import ObjectTransfer.Number
import ObjectTransfer.Text.Utf16

/-! # Values and faults

What callers hand to a stream, and what a stream hands back, is a dynamic value: the streams check
and route values, and only the storage side looks inside them. A failure is a value too, since
anything may be thrown; a `Fault` is a proper error with a kind of its own.
-/

namespace ObjectTransfer

/-- The contents of an object or of one chunk. -/
abbrev Bytes := List UInt8

mutual

/-- A dynamic value. -/
inductive Value where
  /-- The absent value. -/
  | undefined
  /-- The explicit null. -/
  | null
  | bool (b : Bool)
  | number (n : Number)
  | text (s : String)
  /-- An array; an element may be absent. -/
  | array (items : List Value)
  /-- An object, with its members in their order. -/
  | object (members : List (String × Value))
  /-- A byte array. -/
  | bytes (data : Bytes)
  /-- An error. -/
  | fault (f : Fault)
  /-- The sentinel that a receiver gets from a half that is closed and drained. -/
  | eof
  /-- An object that cannot be converted to text. -/
  | unprintable
  /-- Call metadata with so many entries. -/
  | metadata (size : Nat)
  /-- The scope of a call that is never cancelled and has no deadline. -/
  | scope

/-- An error: its kind, the name that it was given in place of its kind's own, its message, and what
caused it (`undefined` when nothing is recorded). The name is for display only; the kind decides. -/
inductive Fault where
  | mk (kind : FaultKind) (givenName : Option String) (message : String) (cause : Value)

/-- The kinds of error that can be told apart. -/
inductive FaultKind where
  | error
  | typeError
  /-- A number is out of its range. -/
  | rangeError
  /-- An argument is missing or of the wrong form. -/
  | invalidArgument
  /-- The half that an operation needs is closed. -/
  | streamClosed
  /-- A half ended without the terminal message that was expected. -/
  | unexpectedEnd
  | bucketNotFound (bucket : Value)
  | objectNotFound (bucket key : Value)

end

instance : Inhabited Value := ⟨.undefined⟩
instance : Inhabited Fault := ⟨.mk .error none "" .undefined⟩

/-- How an asynchronous computation ended: with a value, or with a thrown value. -/
abbrev Outcome := Except Value Value

namespace FaultKind

def name : FaultKind → String
  | error => "Error"
  | typeError => "TypeError"
  | rangeError => "RangeError"
  | invalidArgument => "InvalidArgumentError"
  | streamClosed => "StreamClosedError"
  | unexpectedEnd => "UnexpectedEndOfStreamError"
  | bucketNotFound _ => "BucketNotFoundError"
  | objectNotFound _ _ => "ObjectNotFoundError"

end FaultKind

namespace Fault

def kind : Fault → FaultKind
  | mk k _ _ _ => k

def givenName : Fault → Option String
  | mk _ n _ _ => n

def name (f : Fault) : String :=
  f.givenName.getD f.kind.name

def message : Fault → String
  | mk _ _ m _ => m

def cause : Fault → Value
  | mk _ _ _ c => c

/-- An error that shows its kind's own name and has no cause. -/
def plain (kind : FaultKind) (message : String) : Fault :=
  mk kind none message .undefined

def error (message : String) : Fault := plain .error message
def typeError (message : String) : Fault := plain .typeError message
def rangeError (message : String) : Fault := plain .rangeError message
def invalidArgument (message : String) : Fault := plain .invalidArgument message

/-- What an operation on a closed half fails with. -/
def streamClosed : Fault := plain .streamClosed "stream is closed"

/-- What closing a channel for the second time fails with. -/
def closedTwice : Fault := plain .streamClosed "close of closed channel"

def unexpectedEnd (message : String) : Fault := plain .unexpectedEnd message

/-- The message of an unexpected end when none is given. -/
def unexpectedEndMessage : String := "stream ended without a terminal message"

def isStreamClosed : Fault → Bool
  | mk .streamClosed _ _ _ => true
  | _ => false

def isInvalidArgument : Fault → Bool
  | mk .invalidArgument _ _ _ => true
  | _ => false

end Fault

namespace Value

/-- Whether a value is null or absent, so that nothing can be read from it. -/
def isNothing : Value → Bool
  | undefined => true
  | null => true
  | _ => false

def isEof : Value → Bool
  | eof => true
  | _ => false

def isStreamClosed : Value → Bool
  | fault f => f.isStreamClosed
  | _ => false

def isInvalidArgument : Value → Bool
  | fault f => f.isInvalidArgument
  | _ => false

/-- Whether a value counts as true: it is not absent, null, false, zero or empty. -/
def isTruthy : Value → Bool
  | undefined => false
  | null => false
  | bool b => b
  | number n => !n.isZero
  | text s => !s.isEmpty
  | _ => true

/-- The member that an error shows under a name. -/
def ofFaultMember (f : Fault) : String → Value
  | "name" => text f.name
  | "message" => text f.message
  | "cause" => f.cause
  | "bucket" =>
    match f.kind with
    | .bucketNotFound b => b
    | .objectNotFound b _ => b
    | _ => undefined
  | "key" =>
    match f.kind with
    | .objectNotFound _ k => k
    | _ => undefined
  | _ => undefined

/-- The member of an object that was written with it. -/
def ownMember? (members : List (String × Value)) (name : String) : Option Value :=
  (members.find? (·.1 == name)).map (·.2)

/-- The length of a sequence, under the name of that member. -/
def ofLength (length : Nat) : String → Value
  | "length" => number (.whole length)
  | _ => undefined

/-- The members of a scope: a signal, of which nothing is ever read, and the absence of a deadline.
-/
def scopeMembers : List (String × Value) := [("signal", object []), ("deadline", undefined)]

/-- The member of a value under a name, `undefined` when it has none. A text is as long as its
UTF-16 code units are many. -/
def member (v : Value) (name : String) : Value :=
  match v with
  | object members => (ownMember? members name).getD undefined
  | scope => (ownMember? scopeMembers name).getD undefined
  | fault f => ofFaultMember f name
  | text s => ofLength (Utf16.size s) name
  | array items => ofLength items.length name
  | bytes data => ofLength data.length name
  | _ => undefined

/-- Reading a member fails on a value that is null or absent. -/
def member? (v : Value) (name : String) : Except Fault Value :=
  match v with
  | undefined => .error (.typeError s!"Cannot read properties of undefined (reading '{name}')")
  | null => .error (.typeError s!"Cannot read properties of null (reading '{name}')")
  | v => .ok (v.member name)

/-- Whether two values that came in different messages are the same. A composite value is the same
only as itself, and every message brings its own. -/
def same : Value → Value → Bool
  | undefined, undefined => true
  | null, null => true
  | bool a, bool b => a == b
  | number a, number b => a.same b
  | text a, text b => a == b
  | eof, eof => true
  | _, _ => false

end Value

end ObjectTransfer
