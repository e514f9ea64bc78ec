import ObjectTransfer.Value

/-! # JSON texts

`Json.read` accepts exactly the texts of RFC 8259. A number is rounded to binary64 once, as it is
read. A repeated member keeps its first place and its last value, and members whose keys are array
indices stand before all others, in increasing order. An escape of half a surrogate pair stands for
no character and reads as U+FFFD.

`Json.quote` writes a string, with no escape that is not needed.
-/

namespace ObjectTransfer.Json

def isBlank (c : Char) : Bool :=
  c == ' ' || c == '\t' || c == '\n' || c == '\r'

def skipBlank (cs : List Char) : List Char :=
  cs.dropWhile isBlank

/-- What follows a word that the text must begin with. -/
def expect : List Char → List Char → Option (List Char)
  | [], rest => some rest
  | w :: ws, c :: cs => if w = c then expect ws cs else none
  | _ :: _, [] => none

/-! ## Numbers -/

def digitsValue (ds : List Char) : Nat :=
  ds.foldl (fun n d => n * 10 + (d.toNat - '0'.toNat)) 0

/-- A run of at least one digit, and what follows it. -/
def digits? (cs : List Char) : Option (List Char × List Char) :=
  let ds := cs.takeWhile Char.isDigit
  if ds.isEmpty then none else some (ds, cs.dropWhile Char.isDigit)

/-- The integer part of a number: a zero alone, or digits that do not begin with one. -/
def integerPart? (cs : List Char) : Option (List Char × List Char) :=
  match cs with
  | '0' :: rest => some (['0'], rest)
  | cs => digits? cs

/-- The fraction of a number, if it has one. -/
def fractionPart? (cs : List Char) : Option (List Char × List Char) :=
  match cs with
  | '.' :: rest => digits? rest
  | cs => some ([], cs)

/-- The exponent of a number, zero if it has none. -/
def exponentPart? (cs : List Char) : Option (Int × List Char) :=
  let exponent (rest : List Char) : Option (Int × List Char) :=
    match rest with
    | '+' :: rest => (digits? rest).map fun (ds, rest) => ((digitsValue ds : Int), rest)
    | '-' :: rest => (digits? rest).map fun (ds, rest) => (-(digitsValue ds : Int), rest)
    | rest => (digits? rest).map fun (ds, rest) => ((digitsValue ds : Int), rest)
  match cs with
  | 'e' :: rest => exponent rest
  | 'E' :: rest => exponent rest
  | cs => some (0, cs)

def unsigned? (negative : Bool) (cs : List Char) : Option (Value × List Char) := do
  let (whole, rest) ← integerPart? cs
  let (places, rest) ← fractionPart? rest
  let (exponent, rest) ← exponentPart? rest
  let n := Number.ofDecimal negative (digitsValue (whole ++ places)) (exponent - places.length)
  return (.number n, rest)

def number? (cs : List Char) : Option (Value × List Char) :=
  match cs with
  | '-' :: rest => unsigned? true rest
  | cs => unsigned? false cs

/-! ## Strings -/

def hexDigit? (c : Char) : Option Nat :=
  if c.isDigit then some (c.toNat - '0'.toNat)
  else if 'a' ≤ c ∧ c ≤ 'f' then some (c.toNat - 'a'.toNat + 10)
  else if 'A' ≤ c ∧ c ≤ 'F' then some (c.toNat - 'A'.toNat + 10)
  else none

/-- The code unit of four hexadecimal digits. -/
def unit? (a b c d : Char) : Option Nat := do
  let a ← hexDigit? a
  let b ← hexDigit? b
  let c ← hexDigit? c
  let d ← hexDigit? d
  return ((a * 16 + b) * 16 + c) * 16 + d

/-- The character of a two-character escape. -/
def shortEscape? : Char → Option Char
  | '"' => some '"'
  | '\\' => some '\\'
  | '/' => some '/'
  | 'b' => some '\x08'
  | 'f' => some '\x0c'
  | 'n' => some '\n'
  | 'r' => some '\r'
  | 't' => some '\t'
  | _ => none

/-- One element of a string: a plain character, or a code unit that an escape wrote. -/
inductive Piece where
  | char (c : Char)
  | unit (n : Nat)

/-- The pieces of a string after its opening quote, and what follows its closing quote. -/
def pieces? : List Char → Option (List Piece × List Char)
  | [] => none
  | '"' :: rest => some ([], rest)
  | '\\' :: 'u' :: a :: b :: c :: d :: rest => do
    let n ← unit? a b c d
    let (ps, rest) ← pieces? rest
    return (.unit n :: ps, rest)
  | '\\' :: e :: rest => do
    let c ← shortEscape? e
    let (ps, rest) ← pieces? rest
    return (.char c :: ps, rest)
  | c :: rest => do
    if c.toNat < 0x20 ∨ c = '\\' then none
    let (ps, rest) ← pieces? rest
    return (.char c :: ps, rest)

/-- Pieces as characters: two code units that form a surrogate pair are one character. -/
def joinPieces : List Piece → List Char
  | [] => []
  | .char c :: rest => c :: joinPieces rest
  | .unit high :: .unit low :: rest =>
    if 0xD800 ≤ high ∧ high < 0xDC00 ∧ 0xDC00 ≤ low ∧ low < 0xE000 then
      Char.ofNat (0x10000 + (high - 0xD800) * 0x400 + (low - 0xDC00)) :: joinPieces rest
    else
      (if 0xD800 ≤ high ∧ high < 0xE000 then '\uFFFD' else Char.ofNat high) ::
        joinPieces (.unit low :: rest)
  | .unit n :: rest =>
    (if 0xD800 ≤ n ∧ n < 0xE000 then '\uFFFD' else Char.ofNat n) :: joinPieces rest

/-- A string after its opening quote. -/
def stringTail? (cs : List Char) : Option (String × List Char) :=
  (pieces? cs).map fun (ps, rest) => (String.ofList (joinPieces ps), rest)

/-! ## Members -/

/-- The array index that a key spells, if it spells one. -/
def index? (key : String) : Option Nat := do
  let (ds, rest) ← integerPart? key.toList
  let n := digitsValue ds
  if rest.isEmpty ∧ n < (1 <<< 32) - 1 then some n else none

/-- A member under its key, in the place of an earlier one. -/
def putMember (members : List (String × Value)) (key : String) (v : Value) :
    List (String × Value) :=
  if members.any (·.1 == key) then members.map fun m => if m.1 == key then (key, v) else m
  else members ++ [(key, v)]

/-- The object with members written in this order. -/
def objectOf (written : List (String × Value)) : Value :=
  let members := written.foldl (fun ms m => putMember ms m.1 m.2) []
  let indexed := members.filterMap fun m => (index? m.1).map fun i => (i, m)
  let ordered := (indexed.mergeSort fun a b => a.1 ≤ b.1).map (·.2)
  .object (ordered ++ members.filter fun m => (index? m.1).isNone)

/-! ## Values -/

mutual

/-- A value with the white space before it. The first argument bounds the depth of the reading. -/
def value? : Nat → List Char → Option (Value × List Char)
  | 0, _ => none
  | depth + 1, cs =>
    match skipBlank cs with
    | '"' :: rest => (stringTail? rest).map fun (s, rest) => (.text s, rest)
    | '[' :: rest =>
      match skipBlank rest with
      | ']' :: rest => some (.array [], rest)
      | rest => (items? depth rest).map fun (vs, rest) => (.array vs, rest)
    | '{' :: rest =>
      match skipBlank rest with
      | '}' :: rest => some (objectOf [], rest)
      | rest => (members? depth rest).map fun (ms, rest) => (objectOf ms, rest)
    | 't' :: rest => (expect ['r', 'u', 'e'] rest).map ((.bool true, ·))
    | 'f' :: rest => (expect ['a', 'l', 's', 'e'] rest).map ((.bool false, ·))
    | 'n' :: rest => (expect ['u', 'l', 'l'] rest).map ((.null, ·))
    | rest => number? rest

/-- The elements of an array, at least one, up to its closing bracket. -/
def items? : Nat → List Char → Option (List Value × List Char)
  | 0, _ => none
  | depth + 1, cs => do
    let (v, rest) ← value? depth cs
    match skipBlank rest with
    | ',' :: rest =>
      let (vs, rest) ← items? depth rest
      some (v :: vs, rest)
    | ']' :: rest => some ([v], rest)
    | _ => none

/-- The members of an object, at least one, up to its closing brace. -/
def members? : Nat → List Char → Option (List (String × Value) × List Char)
  | 0, _ => none
  | depth + 1, cs =>
    match skipBlank cs with
    | '"' :: rest => do
      let (key, rest) ← stringTail? rest
      let rest ← expect [':'] (skipBlank rest)
      let (v, rest) ← value? depth rest
      match skipBlank rest with
      | ',' :: rest =>
        let (ms, rest) ← members? depth rest
        some ((key, v) :: ms, rest)
      | '}' :: rest => some ([(key, v)], rest)
      | _ => none
    | _ => none

end

/-- The value that a JSON text stands for, or nothing if the text is not JSON. Every level of
reading takes at least one character, or two with the bracket around it, so the depth suffices. -/
def read (s : String) : Option Value :=
  let cs := s.toList
  match value? (2 * cs.length + 2) cs with
  | some (v, rest) => if (skipBlank rest).isEmpty then some v else none
  | none => none

/-! ## Writing strings -/

/-- A character within a string. Control characters have short escapes or four digits. -/
def escape (c : Char) : List Char :=
  match c with
  | '"' => ['\\', '"']
  | '\\' => ['\\', '\\']
  | '\x08' => ['\\', 'b']
  | '\x0c' => ['\\', 'f']
  | '\n' => ['\\', 'n']
  | '\r' => ['\\', 'r']
  | '\t' => ['\\', 't']
  | c =>
    if c.toNat < 0x20 then
      let digits := Nat.toDigits 16 c.toNat
      ['\\', 'u'] ++ List.replicate (4 - digits.length) '0' ++ digits
    else [c]

def quote (s : String) : String :=
  "\"" ++ String.ofList (s.toList.flatMap escape) ++ "\""

end ObjectTransfer.Json
