import ObjectTransfer.Json
import ObjectTransfer.Value.Text

/-! # Describing values

A complaint about a value of the wrong type describes the value: by its type and its text, or by its
class. An object may name a class of its own, under the member `constructor`; `Value.describe?`
fails if what it names there can have no name, or none that can be written.
-/

namespace ObjectTransfer

/-- A text in quotes, for descriptions: a long one is cut, and the quotes are single unless there is
a single quote between them. -/
def quoted (s : String) : String :=
  let s := if 28 < Utf16.size s then Utf16.take 25 s ++ "..." else s
  if s.toList.contains '\'' then Json.quote s else "'" ++ s ++ "'"

namespace Fault

/-- What looking for a name in a value fails with that can have no members. -/
def nameless (v : String) : Fault :=
  typeError ("Cannot use 'in' operator to search for 'name' in " ++ v)

end Fault

namespace Value

/-- A number, described; here the sign of zero shows. -/
def numberText : Number → String
  | .negativeZero => "-0"
  | n => n.text

def instanceOf (className : String) : String := "an instance of " ++ className

/-- An object, described by the class that it names itself. -/
def describeInstance? (named : Value) : Except Fault String :=
  if named.isTruthy then
    match named with
    | object members =>
      match ownMember? members "name" with
      | some name => name.interpolate?.map instanceOf
      | none => .ok "[Object]"
    | fault f => .ok (instanceOf f.name)
    | bool b => .error (.nameless (if b then "true" else "false"))
    | number n => .error (.nameless n.text)
    | text s => .error (.nameless s)
    | eof => .error (.nameless "Symbol(EOF)")
    | _ => .ok "[Object]"
  else .ok "[Object]"

def describe? : Value → Except Fault String
  | undefined => .ok "undefined"
  | null => .ok "null"
  | bool b => .ok ("type boolean (" ++ (if b then "true" else "false") ++ ")")
  | number n => .ok ("type number (" ++ numberText n ++ ")")
  | text s => .ok ("type string (" ++ quoted s ++ ")")
  | array _ => .ok (instanceOf "Array")
  | object members =>
    match ownMember? members "constructor" with
    | some named => describeInstance? named
    | none => .ok (instanceOf "Object")
  | bytes _ => .ok (instanceOf "Uint8Array")
  | fault f => .ok (instanceOf f.kind.name)
  | eof => .ok "type symbol (Symbol(EOF))"
  | unprintable => .ok "[Object: null prototype] {}"
  | metadata _ => .ok (instanceOf "Map")
  | scope => .ok (instanceOf "Object")

end Value

end ObjectTransfer
