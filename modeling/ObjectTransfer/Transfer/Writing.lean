import ObjectTransfer.Log
import ObjectTransfer.Stream.Method
import ObjectTransfer.Transfer.Source

/-! # Writing an object

A writer sends the chunks of a source one at a time and asks for the next one only when the last was
taken. If the plugin closes the request half, the writer stops its source and reads the response,
which says why. If the source fails, the writer aborts the upload with that failure; when the plugin
ended the upload first, it reads the plugin's response and drops it, and fails with its own failure
all the same.

A writer is described by what it does with the outcome of each wait, so the same writer serves any
client.
-/

namespace ObjectTransfer

/-- What a writer waits for. -/
inductive WritingPhase where
  /-- Nothing yet. -/
  | starting
  /-- A gate that its source waits for. -/
  | blocked
  /-- This answer of its source, which arrives in so many turns. -/
  | asking (answer : Pulled) (turns : Nat)
  /-- A send of a chunk. -/
  | sending
  /-- The end of its source, which it stopped early because of this failure of a send, if any. The
  end takes two turns. -/
  | stopping (failure : Option Value)
  /-- Its source, which it stopped early. -/
  | leaving (failure : Option Value)
  /-- The abort of the upload. -/
  | aborting (failure : Fault)
  /-- A response to drop, since the plugin ended the upload before it could be aborted. -/
  | discarding (failure : Fault)
  /-- Nothing but its turn to fail. -/
  | failing (failure : Fault)
  /-- The response. -/
  | acknowledging

/-- A writer: where the object goes, what its source has still to do, and what it waits for. -/
structure Writing where
  bucket : String
  key : String
  source : Source
  phase : WritingPhase

namespace Writing

inductive Next where
  /-- Something that is settled already. -/
  | rests
  | waits (gate : String)
  /-- A call on its client. -/
  | calls (m : Method)
  /-- Nothing; it is done. -/
  | done (o : Outcome)

/-- What others may notice of a writer. -/
inductive Remark where
  /-- The source yielded a chunk. -/
  | pulled
  /-- The source ended. -/
  | sourceEnded
  | logged (log : Log)

/-- A turn of a writer: what was noticed, the writer after it, and what it waits for. -/
structure Turn where
  remarks : List Remark
  state : Writing
  next : Next

def start (bucket key : String) (source : Source) : Writing :=
  ⟨bucket, key, source, .starting⟩

def request (w : Writing) (chunk : Value) : Value :=
  .object [("bucket", .text w.bucket), ("key", .text w.key), ("fileChunk", chunk)]

def place (w : Writing) : String := w.bucket ++ "/" ++ w.key

/-- Wait for an answer of the source, which has this still to do. -/
def ask (w : Writing) (remarks : List Remark) (source : Source) (answer : Pulled) : Turn :=
  ⟨remarks, { w with source, phase := .asking answer (source.turns answer) }, .rests⟩

/-- Pull from the source. -/
def pull (w : Writing) : Turn :=
  match w.source.items with
  | [] => w.ask [.sourceEnded] w.source .exhausted
  | .chunk v :: _ => w.ask [.pulled] w.source.advance (.chunk v)
  | .fails v :: _ => w.ask [.sourceEnded] w.source.ended (.failed v)
  | .waits gate :: _ =>
    ⟨[], { w with source := w.source.advance, phase := .blocked }, .waits gate⟩

/-- Abort because of a failure of the source or of a send. A failure without a text cannot be made
an error and ends the writer at once. -/
def abort (w : Writing) (failure : Value) : Turn :=
  match failure.toFault? with
  | .ok f => ⟨[], { w with phase := .aborting f }, .calls (.sendRaw (.rawError (.fault f)))⟩
  | .error f => ⟨[], w, .done (.error (.fault f))⟩

/-- Stop the source early. -/
def leave (w : Writing) (failure : Option Value) : Turn :=
  ⟨[.sourceEnded], { w with source := w.source.ended, phase := .stopping failure }, .rests⟩

/-- Half-close and read the response. -/
def acknowledge (w : Writing) : Turn :=
  ⟨[], { w with phase := .acknowledging }, .calls .awaitResponse⟩

def finish (w : Writing) (o : Outcome) (logs : List Log) : Turn :=
  ⟨logs.map .logged, w, .done o⟩

/-- Go on with the outcome of what the writer waited for. -/
def resume (w : Writing) (o : Outcome) : Turn :=
  match w.phase, o with
  | .starting, _ => w.pull
  | .blocked, .ok _ => w.pull
  | .blocked, .error v => w.ask [.sourceEnded] w.source.ended (.failed v)
  | .asking answer (turns + 2), _ =>
    ⟨[], { w with phase := .asking answer (turns + 1) }, .rests⟩
  | .asking (.chunk v) _, _ => ⟨[], { w with phase := .sending }, .calls (.send (w.request v))⟩
  | .asking .exhausted _, _ => w.acknowledge
  | .asking (.failed v) _, _ => w.abort v
  | .sending, .ok _ => w.pull
  | .sending, .error v => w.leave (if v.isStreamClosed then none else some v)
  | .stopping failure, _ => ⟨[], { w with phase := .leaving failure }, .rests⟩
  | .leaving none, _ => w.acknowledge
  | .leaving (some v), _ => w.abort v
  | .aborting f, .ok _ => w.finish (.error (.fault f)) []
  | .aborting f, .error v =>
    if v.isStreamClosed then
      ⟨[], { w with phase := .discarding f }, .calls .awaitResponse⟩
    else
      w.finish (.error (.fault f))
        [⟨.debug, "[writeObject] Could not abort upload of " ++ w.place ++ ":", some v⟩]
  | .discarding f, .ok _ => ⟨[], { w with phase := .failing f }, .rests⟩
  | .discarding f, .error v =>
    ⟨[.logged ⟨.debug, "[writeObject] Plugin ended upload of " ++ w.place ++ " first:", some v⟩],
      { w with phase := .failing f }, .rests⟩
  | .failing f, _ => w.finish (.error (.fault f)) []
  | .acknowledging, .ok .eof =>
    w.finish
      (.error (.fault (.unexpectedEnd ("upload of " ++ w.place ++ " ended without a response")))) []
  | .acknowledging, o => w.finish o []

/-! ## Rehearsal

A writer can be tried on a client whose answers are fixed beforehand. -/

/-- The fixed answers of a client: one for each send in order, one for the abort, and one for
reading the response. A send without an answer succeeds. -/
structure Answers where
  sends : List Outcome
  abort : Outcome
  response : Outcome

/-- What a rehearsal showed: the calls on the client, whether the source ended, the log, and the
result if there was one. -/
structure Rehearsal where
  calls : List Method
  sourceEnded : Bool
  logs : List Log
  result : Option Outcome

namespace Rehearsal

def empty : Rehearsal := ⟨[], false, [], none⟩

/-- Take note of what was noticed. -/
def observe (r : Rehearsal) : Remark → Rehearsal
  | .pulled => r
  | .sourceEnded => { r with sourceEnded := true }
  | .logged log => { r with logs := r.logs ++ [log] }

end Rehearsal

/-- The answer to a call, and the answers left. -/
def Answers.answer (a : Answers) : Method → Outcome × Answers
  | .send _ =>
    match a.sends with
    | [] => (.ok .undefined, a)
    | o :: rest => (o, { a with sends := rest })
  | .sendRaw _ => (a.abort, a)
  | .awaitResponse => (a.response, a)
  | _ => (.ok .undefined, a)

/-- Go on for so many turns, unless the writer is done or waits for a gate before. -/
def rehearseFor : Nat → Writing → Outcome → Answers → Rehearsal → Rehearsal
  | 0, _, _, _, r => r
  | turns + 1, w, o, answers, r =>
    let turn := w.resume o
    let r := turn.remarks.foldl Rehearsal.observe r
    match turn.next with
    | .done o => { r with result := some o }
    | .waits _ => r
    | .rests => rehearseFor turns turn.state (.ok .undefined) answers r
    | .calls m =>
      let (o, answers) := answers.answer m
      rehearseFor turns turn.state o answers { r with calls := r.calls ++ [m] }

/-- Rehearse a writer. Every chunk of its source takes at most four turns, and what comes after the
last one at most twelve. -/
def rehearse (w : Writing) (answers : Answers) : Rehearsal :=
  rehearseFor (4 * w.source.items.length + 12) w (.ok .undefined) answers .empty

end Writing

end ObjectTransfer
