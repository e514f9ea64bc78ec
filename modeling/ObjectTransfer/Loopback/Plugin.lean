import ObjectTransfer.Bytes.Join
import ObjectTransfer.Bytes.Sha256
import ObjectTransfer.Loopback.Config
import ObjectTransfer.Loopback.Store
import ObjectTransfer.Plugin
import ObjectTransfer.Value.Text

/-! # The loopback storage

A plugin that keeps objects in memory. A download streams the object that was stored when it began.
An upload is taken in completely before anything is decided: every chunk must name the same bucket
and key, a bad chunk does not stop the intake, and an aborted upload leaves no trace.
-/

namespace ObjectTransfer.Loopback

/-- What an upload brought so far. -/
structure Intake where
  /-- The bucket and key of the first chunk. -/
  target : Option (Value × Value)
  /-- The chunks, the latest first. -/
  chunks : List Value
  /-- What is wrong with the upload. -/
  failure : Option Fault

namespace Intake

def empty : Intake := ⟨none, [], none⟩

/-- The complaint about a chunk for another object than the first one's. -/
def mismatch? (bucket key targetBucket targetKey : Value) : Except Fault Fault := do
  let b ← bucket.interpolate?
  let k ← key.interpolate?
  let tb ← targetBucket.interpolate?
  let tk ← targetKey.interpolate?
  return .invalidArgument
    ("chunk for " ++ b ++ "/" ++ k ++ " in upload of " ++ tb ++ "/" ++ tk)

/-- Take in a request. After a bad one the others are only received. -/
def add (t : Intake) (request : Value) : Except Fault Intake :=
  match t.failure, t.target with
  | some _, _ => .ok t
  | none, none =>
    .ok { t with
      target := some (request.member "bucket", request.member "key")
      chunks := request.member "fileChunk" :: t.chunks }
  | none, some (bucket, key) =>
    let b := request.member "bucket"
    let k := request.member "key"
    if b.same bucket && k.same key then
      .ok { t with chunks := request.member "fileChunk" :: t.chunks }
    else
      (mismatch? b k bucket key).map fun f => { t with failure := some f }

end Intake

/-- What a handler of the loopback storage waits for. -/
inductive Duty where
  /-- Nothing yet; it is to stream an object. -/
  | get (bucket key : String)
  /-- Nothing yet; it is to receive an object. -/
  | put
  /-- A send; these bytes are still to be sent. -/
  | streaming (rest : Bytes)
  /-- A receive. -/
  | receiving (intake : Intake)
  /-- Its last call. -/
  | ending
  /-- Nothing any more. -/
  | finished

/-- Send the next chunk, or close after the last one. -/
def stream (c : Config) (data : Bytes) : Act Duty :=
  if data.isEmpty then .call .close .ending
  else
    .call (.send (.object [("fileChunk", .bytes (data.take c.chunkSize))]))
      (.streaming (data.drop c.chunkSize))

/-- Send an error, unless it could not even be built. -/
def complain (f : Except Fault Fault) : Act Duty :=
  match f with
  | .ok f => .call (.fail (.fault f)) .ending
  | .error f => .fail (.fault f)

def answerGet (c : Config) (s : Store) (bucket key : String) : Act Duty :=
  match s.bucket? (.text bucket) with
  | none => complain (Fault.bucketNotFound? (.text bucket))
  | some objects =>
    match objects.get? (.text key) with
    | none => complain (Fault.objectNotFound? (.text bucket) (.text key))
    | some data => stream c data

/-- Acknowledge an object with its checksum. -/
def acknowledge (data : Bytes) : Act Duty :=
  .call (.respond (.object [("checksumSha256", .bytes (Sha256.digest data))])) .ending

/-- Decide on an upload that was received to its end. -/
def conclude (c : Config) (s : Store) (t : Intake) : Store × Act Duty :=
  match t.failure, t.target with
  | some f, _ => (s, complain (.ok f))
  | none, none => (s, complain (.ok (.invalidArgument "upload contained no chunks")))
  | none, some (bucket, key) =>
    if (s.bucket? bucket).isNone && !c.createsBuckets then
      (s, complain (Fault.bucketNotFound? bucket))
    else
      let s := s.create bucket
      match joinChunks? t.chunks.reverse with
      | .error f => (s, .fail (.fault f))
      | .ok data => (s.put bucket key data, acknowledge data)

def step (c : Config) (s : Store) (d : Duty) (o : Outcome) : Store × Act Duty :=
  match d, o with
  | .get bucket key, _ => (s, answerGet c s bucket key)
  | .put, _ => (s, .call .receive (.receiving .empty))
  | .streaming rest, .ok _ => (s, stream c rest)
  | .streaming _, .error v => (s, .fail v)
  | .receiving t, .ok .eof => conclude c s t
  | .receiving t, .ok request =>
    match t.add request with
    | .ok t => (s, .call .receive (.receiving t))
    | .error f => (s, .fail (.fault f))
  | .receiving _, .error v =>
    (s, .log ⟨.debug, "[LoopbackStorage] Upload aborted by the client:", some v⟩ .finished)
  | .ending, .ok _ => (s, .succeed)
  | .ending, .error v => (s, .fail v)
  | .finished, _ => (s, .succeed)

def duty : Invocation → Duty
  | .get bucket key => .get bucket key
  | .put => .put

def inspect (s : Store) : Query → Value
  | .holds bucket key => .bool (s.get? (.text bucket) (.text key)).isSome
  | .keys bucket => .array (s.keys (.text bucket))

/-- The loopback storage of a configuration. -/
def plugin (c : Config) : Plugin where
  Shared := Store
  Local := Duty
  initial := .ofBuckets c.buckets
  invoke s i := (s, duty i)
  step s d o := step c s d o
  inspect s q := inspect s q

end ObjectTransfer.Loopback
