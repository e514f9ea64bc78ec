import ObjectTransfer.Json
import ObjectTransfer.Text.Utf8

/-! # The loopback configuration

A configuration is given as a dynamic value that may leave out any field. `Config.resolve` accepts
an object whose fields are all known and valid, and fills in the defaults; otherwise it reports
every issue, field by field. A field that is absent (`undefined`) counts as left out, and null does
not.
-/

namespace ObjectTransfer

/-- A configuration of the loopback storage. -/
structure Config where
  /-- Bytes per download response. -/
  chunkSize : Nat
  /-- Buckets that exist before the first upload. -/
  buckets : List String
  /-- Create a missing bucket on upload instead of rejecting the object. -/
  createsBuckets : Bool
  chunkSize_pos : 0 < chunkSize

namespace Config

def default : Config := ⟨65536, [], true, by decide⟩

/-- What is wrong with a field. -/
inductive Complaint where
  | wrongType (expected received : String)
  | required
  | notPositive
  | emptyText
  | unknownKeys (keys : List String)

/-- A complaint about the field at a path; the empty path is the whole configuration. -/
structure Issue where
  path : List String
  complaint : Complaint

namespace Complaint

def text : Complaint → String
  | wrongType expected received => "Expected " ++ expected ++ ", received " ++ received
  | required => "Required"
  | notPositive => "Number must be greater than 0"
  | emptyText => "String must contain at least 1 character(s)"
  | unknownKeys keys =>
    "Unrecognized key(s) in object: " ++ ", ".intercalate (keys.map fun k => "'" ++ k ++ "'")

end Complaint

namespace Issue

def text (i : Issue) : String :=
  let path := ".".intercalate i.path
  (if path = "" then "(root)" else path) ++ ": " ++ i.complaint.text

end Issue

/-- The type of a value, as complaints name it. -/
def typeName : Value → String
  | .undefined => "undefined"
  | .null => "null"
  | .bool _ => "boolean"
  | .number _ => "number"
  | .text _ => "string"
  | .array _ => "array"
  | .eof => "symbol"
  | .metadata _ => "map"
  | .object _ => "object"
  | .bytes _ => "object"
  | .fault _ => "object"
  | .unprintable => "object"
  | .scope => "object"

/-- The keys of an error that counts as an object: what its kind records, and its name where that
was set. The plain kinds share the name of all their errors, unless one is given a name of its own.
-/
def faultKeys (f : Fault) : List String :=
  match f.kind with
  | .invalidArgument => ["name", "cause"]
  | .streamClosed => ["name"]
  | .unexpectedEnd => ["name"]
  | .bucketNotFound _ => ["bucket", "name"]
  | .objectNotFound _ _ => ["bucket", "key", "name"]
  | _ => if f.givenName.isSome then ["name"] else []

/-- The members of a value that counts as an object. A byte array has its indices for keys. -/
def members? : Value → Option (List (String × Value))
  | .object ms => some ms
  | .bytes data => some (data.zipIdx.map fun (b, i) => (toString i, .number (.whole b.toNat)))
  | .fault f => some ((faultKeys f).map fun key => (key, Value.ofFaultMember f key))
  | .unprintable => some []
  | .scope => some Value.scopeMembers
  | _ => none

def chunkSizeKey : String := "chunkSize"
def bucketsKey : String := "buckets"
def createsBucketsKey : String := "autoCreateBuckets"

def knownKeys : List String := [chunkSizeKey, bucketsKey, createsBucketsKey]

/-- The issues of a chunk size: it must be an integer, and it must be positive. -/
def chunkSizeIssues (v : Value) : List Issue :=
  match v with
  | .undefined => []
  | .number n =>
    (if n.isWhole then [] else [⟨[chunkSizeKey], .wrongType "integer" "float"⟩]) ++
      if n.isPositive then [] else [⟨[chunkSizeKey], .notPositive⟩]
  | v => [⟨[chunkSizeKey], .wrongType "number" (typeName v)⟩]

/-- The issues of one bucket name, by its place. -/
def bucketIssues (place : Nat) (v : Value) : List Issue :=
  match v with
  | .text s => if s = "" then [⟨[bucketsKey, toString place], .emptyText⟩] else []
  | .undefined => [⟨[bucketsKey, toString place], .required⟩]
  | v => [⟨[bucketsKey, toString place], .wrongType "string" (typeName v)⟩]

def bucketsIssues (v : Value) : List Issue :=
  match v with
  | .undefined => []
  | .array vs => vs.zipIdx.flatMap fun (v, i) => bucketIssues i v
  | v => [⟨[bucketsKey], .wrongType "array" (typeName v)⟩]

def createsBucketsIssues (v : Value) : List Issue :=
  match v with
  | .undefined => []
  | .bool _ => []
  | v => [⟨[createsBucketsKey], .wrongType "boolean" (typeName v)⟩]

/-- The issue of unknown fields, in the order in which they are given. -/
def unknownIssues (ms : List (String × Value)) : List Issue :=
  let unknown := (ms.map (·.1)).filter fun k => !knownKeys.contains k
  if unknown.isEmpty then [] else [⟨[], .unknownKeys unknown⟩]

def issues (v : Value) : List Issue :=
  match members? v with
  | none => [⟨[], .wrongType "object" (typeName v)⟩]
  | some ms =>
    let field := Value.member (.object ms)
    chunkSizeIssues (field chunkSizeKey) ++ bucketsIssues (field bucketsKey) ++
      createsBucketsIssues (field createsBucketsKey) ++ unknownIssues ms

/-- A chunk size without issues, or the default. -/
def chunkSizeOf (v : Value) : { n : Nat // 0 < n } :=
  match v with
  | .number (.whole n) => if h : 0 < n.toNat then ⟨n.toNat, h⟩ else ⟨_, default.chunkSize_pos⟩
  | _ => ⟨_, default.chunkSize_pos⟩

def bucketsOf (v : Value) : List String :=
  match v with
  | .array vs => vs.filterMap fun
    | .text s => some s
    | _ => none
  | _ => default.buckets

def createsBucketsOf (v : Value) : Bool :=
  match v with
  | .bool b => b
  | _ => default.createsBuckets

/-- The configuration that a value without issues stands for. -/
def ofValid (v : Value) : Config :=
  let field := Value.member (.object ((members? v).getD []))
  let size := chunkSizeOf (field chunkSizeKey)
  ⟨size, bucketsOf (field bucketsKey), createsBucketsOf (field createsBucketsKey), size.2⟩

def invalid (is : List Issue) : Fault :=
  .invalidArgument ("Invalid loopback config: " ++ "; ".intercalate (is.map Issue.text))

/-- The configuration that a value stands for; no value stands for the default. -/
def resolve (v : Value) : Except Fault Config :=
  let v :=
    match v with
    | .undefined => .object []
    | v => v
  match issues v with
  | [] => .ok (ofValid v)
  | is => .error (invalid is)

def toValue (c : Config) : Value :=
  .object
    [(chunkSizeKey, .number (.whole c.chunkSize)),
     (bucketsKey, .array (c.buckets.map .text)),
     (createsBucketsKey, .bool c.createsBuckets)]

/-- The configuration in a JSON file. What the host says about a file that cannot be read, or about
a text that is not JSON, is the complaint. -/
def load (path complaint : String) (content : Option Bytes) : Except Fault Config :=
  match content with
  | none =>
    .error (.error ("Failed to load loopback config from " ++ path ++ ": " ++ complaint))
  | some data =>
    match Json.read (Utf8.decode data) with
    | none =>
      .error (.error
        ("Failed to parse loopback config from " ++ path ++ ": Invalid JSON format. " ++ complaint))
    | some v => resolve v

end Config

end ObjectTransfer
