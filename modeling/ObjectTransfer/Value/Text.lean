import ObjectTransfer.Number.Decimal
import ObjectTransfer.Value

/-! # The text of a value

Two conversions differ in one point only: `Value.text?` is the explicit one and names the end
marker, while `Value.interpolate?` writes a value into a larger text and refuses the marker. Both
fail on a value that has no text.
-/

namespace ObjectTransfer

namespace Fault

/-- What converting an object without a text fails with. -/
def noText : Fault := typeError "Cannot convert object to primitive value"

/-- What writing the end marker into a text fails with. -/
def markerText : Fault := typeError "Cannot convert a Symbol value to a string"

/-- An error's text: name and message, or only the one of them that is not empty. -/
def text (f : Fault) : String :=
  if f.name = "" then f.message
  else if f.message = "" then f.name
  else f.name ++ ": " ++ f.message

end Fault

namespace Value

/-- The text of an object, which has none when it replaces the conversion by a member of its own. -/
def objectText? (members : List (String × Value)) : Except Fault String :=
  match ownMember? members "toString" with
  | some _ => .error .noText
  | none => .ok "[object Object]"

/-- The bytes of a byte array in decimal, separated by commas. -/
def bytesText (data : Bytes) : String :=
  ",".intercalate (data.map fun b => toString b.toNat)

mutual

/-- The text of a value within a larger text. -/
def interpolate? : Value → Except Fault String
  | undefined => .ok "undefined"
  | null => .ok "null"
  | bool b => .ok (if b then "true" else "false")
  | number n => .ok n.text
  | text s => .ok s
  | array items => (elementTexts? items).map (",".intercalate ·)
  | object members => objectText? members
  | bytes data => .ok (bytesText data)
  | fault f => .ok f.text
  | eof => .error .markerText
  | unprintable => .error .noText
  | metadata _ => .ok "[object Map]"
  | scope => .ok "[object Object]"

/-- The texts of an array's elements, where null and absent elements are empty. -/
def elementTexts? : List Value → Except Fault (List String)
  | [] => .ok []
  | v :: rest =>
    match if v.isNothing then .ok "" else interpolate? v with
    | .error f => .error f
    | .ok t => (elementTexts? rest).map (t :: ·)

end

/-- The text of a value on its own. -/
def text? : Value → Except Fault String
  | eof => .ok "Symbol(EOF)"
  | v => v.interpolate?

/-- A value as an error: an error stays as it is, and anything else becomes the message of one.
Fails when the value has no text. -/
def toFault? : Value → Except Fault Fault
  | fault f => .ok f
  | v => v.text?.map Fault.error

end Value

namespace Fault

/-- The error for a bucket that does not exist; building it fails when its name has no text. -/
def bucketNotFound? (bucket : Value) : Except Fault Fault := do
  let b ← bucket.interpolate?
  return plain (.bucketNotFound bucket) ("bucket \"" ++ b ++ "\" not found")

/-- The error for a key that its bucket does not hold; building it fails when a name has no text. -/
def objectNotFound? (bucket key : Value) : Except Fault Fault := do
  let k ← key.interpolate?
  let b ← bucket.interpolate?
  return plain (.objectNotFound bucket key)
    ("object \"" ++ k ++ "\" not found in bucket \"" ++ b ++ "\"")

end Fault

end ObjectTransfer
