import ObjectTransfer.Exchange.Listeners

/-! # The steps of an exchange

`Exchange.work` does one piece of work. `Exchange.resume` takes a task that is ready, any of them;
an exchange goes on with the agenda until it is empty and then with a ready task, and it is quiet
when there is neither. `Exchange.advance` always takes the task that waits longest.
-/

namespace ObjectTransfer.Exchange

variable {P : Plugin}

def remark (source : Nat) (x : Exchange P) (r : Writing.Remark) : Exchange P :=
  match r with
  | .pulled => x.record (.pulled source)
  | .sourceEnded => x.record (.sourceEnded source)
  | .logged line => x.record (.logged line)

/-- Go on with a reader, in front of the rest of its task. -/
def resumeReading (i : StreamId) (r : Reading) (o : Outcome) (t : Task P) (x : Exchange P) :
    Exchange P :=
  match r.resume o with
  | .again r => x.push (.enter i .client .receive (t.under (.reading i r)))
  | .done o => x.push (.give o t)

/-- Go on with a writer, in front of the rest of its task. -/
def resumeWriting (i : StreamId) (source : Nat) (w : Writing) (o : Outcome) (t : Task P)
    (x : Exchange P) : Exchange P :=
  let turn := w.resume o
  let waiting := t.under (.writing i source turn.state)
  let x := turn.remarks.foldl (remark source) x
  match turn.next with
  | .rests => x.wake (.returned (.ok .undefined) waiting)
  | .waits gate => x.awaitGates [gate] waiting
  | .calls m => x.push (.enter i .client m waiting)
  | .done o => x.push (.give o t)

/-- Go on with a handler, in front of the rest of its task. -/
def resumeHandling (i : StreamId) (state : P.Local) (o : Outcome) (t : Task P) (x : Exchange P) :
    Exchange P :=
  let waiting (state : P.Local) := t.under (.handling i state)
  let now (t : Task P) : Work P := .run (.returned (.ok .undefined) t)
  let (shared, act) := P.step x.shared state o
  let x := { x with shared }
  match act with
  | .call m next => x.push (.enter i .server m (waiting next))
  | .wait gate next => x.awaitGates [gate] (waiting next)
  | .rest next => x.wake (.returned (.ok .undefined) (waiting next))
  | .fork child next => (x.push (now (waiting next))).push (now ⟨[.handling i child], .nobody⟩)
  | .did handler deed v next => (x.record (.did handler deed v)).push (now (waiting next))
  | .log line next => (x.record (.logged line)).push (now (waiting next))
  | .succeed => x.push (.give (.ok .undefined) t)
  | .fail v => x.push (.give (.error v) t)
  | .refuse v => x.push (.run (.returned (.error v) t))

/-- Close whatever a handler left open, and hand on the outcome of the service. -/
def finishService (i : StreamId) (o : Outcome) (t : Task P) (x : Exchange P) : Exchange P :=
  x.push (.close ⟨i, .requests⟩ (.close ⟨i, .responses⟩ (.give o t)))

/-- Go on with the service of a stream after its handler ended. A handler that failed because the
caller closed the stream is given up; any other failure is delivered to the caller as an error,
after the request half is closed, so that a caller who still sends can read it. -/
def resumeServing (i : StreamId) (o : Outcome) (t : Task P) (x : Exchange P) : Exchange P :=
  match o with
  | .ok _ => x.finishService i (.ok .undefined) t
  | .error v =>
    let label := x.serviceLabel i
    if v.isStreamClosed then
      (x.log .debug ("[InMemoryStoragePlugin] Caller abandoned " ++ label ++ ".")
        none).finishService i (.ok .undefined) t
    else
      let x := x.log .error ("[InMemoryStoragePlugin] Handler for " ++ label ++ " failed:") (some v)
      match v.toFault? with
      | .ok f =>
        x.push (.close ⟨i, .requests⟩ (.deliver i f (t.under (.delivering i))))
      | .error f => x.finishService i (.error (.fault f)) t

/-- Deliver a failure to the client of a stream, unless its response half is closed. -/
def deliver (i : StreamId) (f : Fault) (t : Task P) (x : Exchange P) : Exchange P :=
  if (x.half ⟨i, .responses⟩).closed then x.give (.ok .undefined) t
  else x.push (.enter i .server (.fail (.fault f)) (t.under .relaying))

/-- Go on with the innermost function of a task. -/
def resumeFrame (o : Outcome) (t : Task P) (x : Exchange P) : Exchange P :=
  match t.frames with
  | [] => x.settle t.owner o
  | f :: frames =>
    let t := { t with frames }
    match f with
    | .reading i r => x.resumeReading i r o t
    | .writing i source w => x.resumeWriting i source w o t
    | .handling i state => x.resumeHandling i state o t
    | .serving i => x.resumeServing i o t
    | .delivering i => x.finishService i o t
    | .relaying => x.push (.give o t)
    | .following gate => x.awaitGates [gate] t

def run (w : Wake P) (x : Exchange P) : Exchange P :=
  match w with
  | .sent h terminal taken t =>
    let o : Outcome := if taken then .ok .undefined else .error (.fault .streamClosed)
    if terminal then x.push (.close h (.give o t)) else x.push (.give o t)
  | .received h none t => (x.record (.received h (.ok .eof))).push (.give (.ok .eof) t)
  | .received h (some (.payload v)) t => (x.record (.received h (.ok v))).push (.give (.ok v) t)
  | .received h (some (.failure f)) t =>
    (x.record (.received h (.error (.fault f)))).push (.close h (.give (.error (.fault f)) t))
  | .returned o t => x.resumeFrame o t
  | .late hook label 0 => x.push (.emit ⟨none, [], [hook], .undefined, .lateClosure label⟩)
  | .late hook label (turns + 1) => x.wake (.late hook label turns)

def serve (i : StreamId) (invocation : Invocation) (x : Exchange P) : Exchange P :=
  let (shared, state) := P.invoke x.shared invocation
  { x with shared }.push
    (.run (.returned (.ok .undefined) ⟨[.handling i state, .serving i], .service i⟩))

def work (w : Work P) (x : Exchange P) : Exchange P :=
  match w with
  | .run w => x.run w
  | .give o t => x.give o t
  | .close h next => x.closeHalf h next
  | .receive h t => x.receive h t
  | .enter i role m t => x.enter i role m t
  | .serve i invocation => x.serve i invocation
  | .deliver i f t => x.deliver i f t
  | .emit e => x.emission e

/-- Let the ready task at a place go on. -/
def resume (x : Exchange P) (place : Nat) : Exchange P :=
  match x.ready[place]? with
  | none => x
  | some w => { x with ready := x.ready.eraseIdx place, agenda := [.run w] }

/-- One step: the next piece of work, or the task that is ready for longest. Nothing if the exchange
is quiet. -/
def advance? (x : Exchange P) : Option (Exchange P) :=
  match x.agenda with
  | w :: rest => some ({ x with agenda := rest }.work w)
  | [] =>
    match x.ready with
    | [] => none
    | w :: rest => some { x with ready := rest, agenda := [.run w] }

/-- So many steps, or fewer if the exchange becomes quiet. -/
def advance : Nat → Exchange P → Exchange P
  | 0, x => x
  | steps + 1, x =>
    match x.advance? with
    | none => x
    | some x => advance steps x

/-- So many steps of work, or fewer if the agenda becomes empty. -/
def clear : Nat → Exchange P → Exchange P
  | 0, x => x
  | steps + 1, x =>
    match x.agenda with
    | [] => x
    | w :: rest => clear steps ({ x with agenda := rest }.work w)

end ObjectTransfer.Exchange
