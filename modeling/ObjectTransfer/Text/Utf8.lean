import ObjectTransfer.Value

/-! # Reading text from bytes

`Utf8.decode` never fails: a sequence that is not well-formed UTF-8 becomes one replacement
character, and reading goes on at the first byte that cannot continue it. A byte order mark is a
character like any other.
-/

namespace ObjectTransfer.Utf8

/-- What stands for a sequence that cannot be read. -/
def replacement : Char := '\uFFFD'

/-- A character that has begun: how many bytes it still needs, the range that the next one must lie
in, and the bits read so far. -/
structure Partial where
  needed : Nat
  lowest : Nat
  highest : Nat
  bits : Nat
  deriving DecidableEq, Repr

/-- What a byte means where a character begins: a character of its own, the beginning of a longer
one, or nothing. The ranges leave out overlong forms, surrogates and what lies beyond U+10FFFF. -/
def begin (b : Nat) : List Char × Option Partial :=
  if b < 0x80 then ([Char.ofNat b], none)
  else if b < 0xC2 then ([replacement], none)
  else if b < 0xE0 then ([], some ⟨1, 0x80, 0xBF, b - 0xC0⟩)
  else if b = 0xE0 then ([], some ⟨2, 0xA0, 0xBF, 0⟩)
  else if b = 0xED then ([], some ⟨2, 0x80, 0x9F, 0xD⟩)
  else if b < 0xF0 then ([], some ⟨2, 0x80, 0xBF, b - 0xE0⟩)
  else if b = 0xF0 then ([], some ⟨3, 0x90, 0xBF, 0⟩)
  else if b = 0xF4 then ([], some ⟨3, 0x80, 0x8F, 4⟩)
  else if b < 0xF4 then ([], some ⟨3, 0x80, 0xBF, b - 0xF0⟩)
  else ([replacement], none)

/-- One more byte: what it completes, and what is left open after it. -/
def advance : Option Partial → Nat → List Char × Option Partial
  | none, b => begin b
  | some p, b =>
    if p.lowest ≤ b ∧ b ≤ p.highest then
      let bits := p.bits * 64 + (b - 0x80)
      if p.needed = 1 then ([Char.ofNat bits], none)
      else ([], some ⟨p.needed - 1, 0x80, 0xBF, bits⟩)
    else
      let (chars, rest) := begin b
      (replacement :: chars, rest)

/-- The characters of a byte sequence, from a point inside a character or between two. -/
def decodeFrom : Option Partial → Bytes → List Char
  | none, [] => []
  | some _, [] => [replacement]
  | p, b :: rest =>
    let (chars, p) := advance p b.toNat
    chars ++ decodeFrom p rest

def decode (data : Bytes) : String :=
  String.ofList (decodeFrom none data)

end ObjectTransfer.Utf8
