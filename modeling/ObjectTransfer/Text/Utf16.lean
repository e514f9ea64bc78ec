/-! # UTF-16 code units

Texts are measured and ordered by their UTF-16 code units. The order differs from that of code
points where a character beyond U+FFFF meets one from U+E000 on.
-/

namespace ObjectTransfer.Utf16

/-- The code units of a character. -/
def unitsOf (c : Char) : List Nat :=
  let n := c.toNat
  if n < 0x10000 then [n] else [0xD800 + (n - 0x10000) / 0x400, 0xDC00 + (n - 0x10000) % 0x400]

def units (s : String) : List Nat :=
  s.toList.flatMap unitsOf

def size (s : String) : Nat := (units s).length

/-- The characters in front that fit in so many code units. -/
def takeChars : Nat → List Char → List Char
  | _, [] => []
  | room, c :: cs =>
    let needed := (unitsOf c).length
    if needed ≤ room then c :: takeChars (room - needed) cs else []

/-- The longest beginning of a text that fits in so many code units. -/
def take (room : Nat) (s : String) : String :=
  String.ofList (takeChars room s.toList)

/-- Whether one text comes before or with another. -/
def le (s t : String) : Bool :=
  !decide (units t < units s)

end ObjectTransfer.Utf16
