import ObjectTransfer.Value.Description

/-! # Joining chunks

`joinChunks?` puts the chunks of an object together. Chunks are dynamic values, so joining fails
when one of them is not a byte array. Why it fails is found in the order in which memory is obtained
and filled: the lengths of all chunks are added up, that many bytes are asked for, and only then is
each chunk looked at.

Anything may call itself a length. Lengths add up as numbers until one of them is neither a number
nor a switch; from then on the total is a text, and adding means appending.
-/

namespace ObjectTransfer

namespace Fault

/-- What adding the end marker to a number fails with. -/
def markerNumber : Fault := typeError "Cannot convert a Symbol value to a number"

/-- What asking for more bytes than there is memory fails with. -/
def outOfMemory : Fault := rangeError "Array buffer allocation failed"

end Fault

/-! ## Sizes -/

/-- The largest number of bytes that can be asked for. -/
def maxSize : Nat := (1 <<< 53) - 1

/-- The largest number of bytes for which there is memory. -/
def maxMemory : Nat := 1 <<< 36

/-- Digits from the last on, in groups of three. -/
def groupDigits : List Char → List Char
  | a :: b :: c :: d :: rest => a :: b :: c :: '_' :: groupDigits (d :: rest)
  | ds => ds

/-- The text of a number that is out of its range. A large integer has its digits in groups, and its
sign belongs to none. -/
def sizeText (n : Number) : String :=
  if n.isWhole && n.abs.exceeds (1 <<< 32) then
    (if n.isNegative then "-" else "") ++
      String.ofList (groupDigits n.abs.text.toList.reverse).reverse
  else n.text

/-- What asking for this many bytes fails with when no size is such. -/
def Fault.sizeOutOfRange (received : String) : Fault :=
  rangeError ("The value of \"size\" is out of range. It must be >= 0 && <= " ++ toString maxSize ++
    ". Received " ++ received)

/-- What asking for bytes fails with when a text says how many. -/
def Fault.sizeNotNumber (received : String) : Fault :=
  typeError ("The \"size\" argument must be of type number. Received type string (" ++
    quoted received ++ ")")

/-! ## Totals -/

inductive Total where
  | number (n : Number)
  /-- No number, since infinities of both signs were added. -/
  | undetermined
  /-- A text, since something else than a number was added. -/
  | text (s : String)

namespace Total

def zero : Total := .number (.whole 0)

/-- The text that something is appended to. -/
def toText : Total → String
  | number n => n.text
  | undetermined => "NaN"
  | text s => s

def addNumber (t : Total) (n : Number) : Total :=
  match t with
  | number m =>
    match m.add? n with
    | some sum => number sum
    | none => undetermined
  | undetermined => undetermined
  | text s => text (s ++ n.text)

/-- Append a value without a numeric meaning. -/
def append (t : Total) (v : Value) : Except Fault Total :=
  v.interpolate?.map fun s => text (t.toText ++ s)

/-- Add a length. What does not count as true adds nothing. -/
def add (t : Total) (length : Value) : Except Fault Total :=
  if length.isTruthy then
    match t, length with
    | text _, v => t.append v
    | t, .number n => .ok (t.addNumber n)
    | t, .bool _ => .ok (t.addNumber (.whole 1))
    | _, .eof => .error .markerNumber
    | t, v => t.append v
  else .ok t

/-- Why this many bytes cannot be had, if they cannot. -/
def refusal? : Total → Option Fault
  | number n =>
    if n.isNegative || n.exceeds maxSize then some (.sizeOutOfRange (sizeText n))
    else if n.exceeds maxMemory then some .outOfMemory
    else none
  | undetermined => some (.sizeOutOfRange "NaN")
  | text s => some (.sizeNotNumber s)

end Total

/-- The lengths of chunks, added up. Reading the length of an absent or null chunk fails. -/
def totalLength? (t : Total) : List Value → Except Fault Total
  | [] => .ok t
  | v :: rest =>
    match v.member? "length" with
    | .error f => .error f
    | .ok length =>
      match t.add length with
      | .error f => .error f
      | .ok t => totalLength? t rest

/-! ## Chunks -/

/-- What joining fails with for a chunk, by its place, that is not a byte array. -/
def notBytes (place : Nat) (v : Value) : Fault :=
  match v.describe? with
  | .error f => f
  | .ok description =>
    .typeError ("The \"list[" ++ toString place ++
      "]\" argument must be an instance of Buffer or Uint8Array. Received " ++ description)

/-- Why chunks cannot be joined of which one, the first, is not a byte array. -/
def joinFailure (chunks : List Value) (place : Nat) (v : Value) : Fault :=
  match totalLength? .zero chunks with
  | .error f => f
  | .ok t => t.refusal?.getD (notBytes place v)

/-- The bytes of chunks from a place on, or the first chunk that is not a byte array. -/
def joinFrom (place : Nat) : List Value → Except (Nat × Value) Bytes
  | [] => .ok []
  | .bytes data :: rest => (joinFrom (place + 1) rest).map (data ++ ·)
  | v :: _ => .error (place, v)

/-- The bytes of all chunks, one after another. -/
def joinChunks? (chunks : List Value) : Except Fault Bytes :=
  match joinFrom 0 chunks with
  | .ok data => .ok data
  | .error (place, v) => .error (joinFailure chunks place v)

theorem joinFrom_bytes (place : Nat) (datas : List Bytes) :
    joinFrom place (datas.map .bytes) = .ok datas.flatten := by
  induction datas generalizing place with
  | nil => rfl
  | cons d ds ih => simp [joinFrom, ih, Except.map]

/-- Chunks that are all byte arrays can be joined, in their order. -/
theorem joinChunks?_bytes (datas : List Bytes) :
    joinChunks? (datas.map .bytes) = .ok datas.flatten := by
  simp [joinChunks?, joinFrom_bytes]

end ObjectTransfer
