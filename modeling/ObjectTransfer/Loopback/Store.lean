import ObjectTransfer.Value

/-! # The object store

Objects are kept by bucket and key, both in the order of their first appearance. A request may name
them by any value.
-/

namespace ObjectTransfer

/-- The objects of a bucket, by key. -/
abbrev Objects := List (Value × Bytes)

/-- The buckets, by name. -/
structure Store where
  buckets : List (Value × Objects)

namespace Objects

def get? (os : Objects) (key : Value) : Option Bytes :=
  (os.find? (·.1.same key)).map (·.2)

/-- Keep an object under a key, in the place of an earlier one. -/
def put : Objects → Value → Bytes → Objects
  | [], key, data => [(key, data)]
  | (k, old) :: rest, key, data =>
    if k.same key then (k, data) :: rest else (k, old) :: put rest key data

end Objects

namespace Store

/-- A store with these buckets, all empty. -/
def ofBuckets (names : List String) : Store :=
  ⟨names.eraseDups.map fun b => (.text b, [])⟩

/-- The objects of a bucket, if it exists. -/
def bucket? (s : Store) (bucket : Value) : Option Objects :=
  (s.buckets.find? (·.1.same bucket)).map (·.2)

def get? (s : Store) (bucket key : Value) : Option Bytes :=
  (s.bucket? bucket).bind (·.get? key)

/-- Add a bucket, empty, unless it exists. -/
def create (s : Store) (bucket : Value) : Store :=
  match s.bucket? bucket with
  | some _ => s
  | none => ⟨s.buckets ++ [(bucket, [])]⟩

/-- Change the first bucket of a name. -/
def modifyBucket (bucket : Value) (f : Objects → Objects) :
    List (Value × Objects) → List (Value × Objects)
  | [] => []
  | (b, os) :: rest =>
    if b.same bucket then (b, f os) :: rest else (b, os) :: modifyBucket bucket f rest

/-- Keep an object in an existing bucket. -/
def put (s : Store) (bucket key : Value) (data : Bytes) : Store :=
  ⟨modifyBucket bucket (·.put key data) s.buckets⟩

/-- The keys of a bucket, in the order of their first appearance. -/
def keys (s : Store) (bucket : Value) : List Value :=
  ((s.bucket? bucket).getD []).map (·.1)

end Store

end ObjectTransfer
