import Mathlib.Data.Multiset.Filter
import ObjectTransfer.Exchange.Run

/-! # Threads

A thread is a task together with what it does next or waits for. Where a task stands is spread over
the agenda, the ready tasks, the channels and the gates; the threads of an exchange gather all of
them, so that a step of the exchange takes some threads away and puts others in their place.

Functions that only hand on an outcome are left out of a thread.
-/

namespace ObjectTransfer

/-- What a task does next, or what it waits for. -/
inductive Stage where
  /-- Its handler is about to be started. -/
  | starting (i : StreamId) (invocation : Invocation)
  /-- It enters a method. -/
  | entering (i : StreamId) (role : Role) (m : Method)
  /-- It delivers a failure. -/
  | delivering (i : StreamId) (f : Fault)
  /-- It asks a half for a message. -/
  | asking (h : HalfId)
  /-- It waits for a message of a half. -/
  | wanting (h : HalfId)
  /-- It waits for its message to be taken. -/
  | offering (h : HalfId) (m : Message) (terminal : Bool)
  /-- It was given a message, or told that the half ended. -/
  | received (h : HalfId) (m : Option Message)
  /-- It closes a half and then goes on. -/
  | closing (h : HalfId) (next : Stage)
  /-- It waits for gates. -/
  | waiting (gates : List String)
  /-- The outcome of what it waited for is known. -/
  | bound (o : Outcome)

namespace Stage

/-- A sender whose message was taken or dropped. -/
def sent (h : HalfId) (terminal taken : Bool) : Stage :=
  let o : Outcome := if taken then .ok .undefined else .error (.fault .streamClosed)
  if terminal then closing h (bound o) else bound o

/-- What a receive comes to. -/
def receipt : Option Message → Outcome
  | none => .ok .eof
  | some m => m.outcome

/-- A receiver after it took note of what it was given. -/
def afterReceipt (h : HalfId) : Option Message → Stage
  | some (.failure f) => closing h (bound (.error (.fault f)))
  | m => bound (receipt m)

/-- The outcome that a stage leads to without anybody else. -/
def outcome? : Stage → Option Outcome
  | received _ m => some (receipt m)
  | closing _ next => next.outcome?
  | bound o => some o
  | _ => none

/-- Whether a stage leads to the closing of a half. -/
def Closes (h : HalfId) : Stage → Prop
  | received h' (some (.failure _)) => h' = h
  | closing h' next => h' = h ∨ next.Closes h
  | _ => False

/-- Whether a stage waits in the channel of a half. -/
def ParkedAt (h : HalfId) : Stage → Prop
  | wanting h' => h' = h
  | offering h' _ _ => h' = h
  | _ => False

def IsParked : Stage → Prop
  | wanting _ => True
  | offering _ _ _ => True
  | waiting _ => True
  | _ => False

/-- What the closing of a half means for a stage. -/
def release (h : HalfId) : Stage → Stage
  | wanting h' => if h' = h then received h none else wanting h'
  | offering h' m terminal => if h' = h then sent h terminal false else offering h' m terminal
  | s => s

def gateFailure? : Option Outcome → Option Value
  | some (.error v) => some v
  | _ => none

/-- The stage of a task that waits until all of these gates are settled, or one of them with a
failure. -/
def ofGates (outcome? : String → Option Outcome) (names : List String) : Stage :=
  match names.findSome? fun name => gateFailure? (outcome? name) with
  | some v => bound (.error v)
  | none =>
    let missing := names.filter fun name => (outcome? name).isNone
    if missing.isEmpty then bound (.ok .undefined) else waiting missing

/-- What the settlement of a gate means for a stage. -/
def afterGate (name : String) (o : Outcome) : Stage → Stage
  | waiting names =>
    if names.contains name then
      match o with
      | .error v => bound (.error v)
      | .ok _ =>
        let missing := names.filter (· != name)
        if missing.isEmpty then bound (.ok .undefined) else waiting missing
    else waiting names
  | s => s

end Stage

/-- A task and what it does next; `frames` are its functions without those that only relay. -/
structure Thread (P : Plugin) where
  stage : Stage
  frames : List (Frame P)
  owner : Owner

variable {P : Plugin}

def Frame.isRelaying : Frame P → Bool
  | relaying => true
  | _ => false

/-- A task as a thread at a stage. -/
def Task.thread (t : Task P) (stage : Stage) : Thread P :=
  ⟨stage, t.frames.filter (!·.isRelaying), t.owner⟩

namespace Thread

def move (th : Thread P) (f : Stage → Stage) : Thread P := { th with stage := f th.stage }

end Thread

@[simp] theorem Task.move_thread (t : Task P) (s : Stage) (f : Stage → Stage) :
    (t.thread s).move f = t.thread (f s) := rfl

def Wake.threads : Wake P → List (Thread P)
  | sent h terminal taken t => [t.thread (.sent h terminal taken)]
  | received h m t => [t.thread (.received h m)]
  | returned o t => [t.thread (.bound o)]
  | late _ _ _ => []

def Work.threads : Work P → List (Thread P)
  | run w => w.threads
  | give o t => [t.thread (.bound o)]
  | close h next => next.threads.map (·.move (.closing h))
  | receive h t => [t.thread (.asking h)]
  | enter i role m t => [t.thread (.entering i role m)]
  | serve i invocation => [⟨.starting i invocation, [.serving i], .service i⟩]
  | deliver i f t => [t.thread (.delivering i f)]
  | emit ⟨_, _, _, _, .closing _ next⟩ => next.threads
  | emit _ => []

def Wake.hooks : Wake P → List Hook
  | late hook _ _ => [hook]
  | _ => []

def Work.hooks : Work P → List Hook
  | run w => w.hooks
  | close _ next => next.hooks
  | emit e => e.rest
  | _ => []

def Half.threads (h : HalfId) (half : Half P) : List (Thread P) :=
  (half.channel.senders.map fun s => s.2.task.thread (.offering h s.1 s.2.terminal)) ++
    half.channel.receivers.map (·.thread (.wanting h))

def Stream.threads (i : StreamId) (s : Stream P) : List (Thread P) :=
  s.requests.threads ⟨i, .requests⟩ ++ s.responses.threads ⟨i, .responses⟩

namespace Exchange

def parked (x : Exchange P) : List (Thread P) :=
  (x.streams.mapIdx Stream.threads).flatten

def threads (x : Exchange P) : Multiset (Thread P) :=
  ↑(x.agenda.flatMap Work.threads) + ↑(x.ready.flatMap Wake.threads) + ↑x.parked +
    ↑(x.gates.waiting.map fun entry => entry.2.thread (.waiting entry.1))

end Exchange

end ObjectTransfer
