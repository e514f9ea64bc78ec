import ObjectTransfer.Bytes.Join

/-! # Reading an object

A reader receives until the end of the download and joins the chunks of what it received. It is
described by what it does with the outcome of each receive, so the same reader serves any client.
-/

namespace ObjectTransfer

/-- A reader between two receives: the chunks so far, the latest first. -/
structure Reading where
  chunks : List Value

namespace Reading

def start : Reading := ⟨[]⟩

inductive Next where
  /-- Receives once more. -/
  | again (r : Reading)
  /-- Is done. -/
  | done (o : Outcome)

/-- Go on with the outcome of a receive. -/
def resume (r : Reading) (o : Outcome) : Next :=
  match o with
  | .error v => .done (.error v)
  | .ok .eof =>
    match joinChunks? r.chunks.reverse with
    | .ok data => .done (.ok (.bytes data))
    | .error f => .done (.error (.fault f))
  | .ok v =>
    match v.member? "fileChunk" with
    | .ok chunk => .again ⟨chunk :: r.chunks⟩
    | .error f => .done (.error (.fault f))

/-- Read with receives that have these outcomes, and the end marker after them. The result, and the
number of receives made. -/
def replay (r : Reading) : List Outcome → Outcome × Nat
  | [] =>
    match r.resume (.ok .eof) with
    | .done o => (o, 1)
    | .again _ => (.ok .undefined, 1)
  | o :: rest =>
    match r.resume o with
    | .done o => (o, 1)
    | .again r =>
      let (result, receives) := r.replay rest
      (result, receives + 1)

end Reading

end ObjectTransfer
