import ObjectTransfer.Exchange.Calls

/-! # Calling listeners

An emission calls its listeners one after another. A listener that throws ends the emission; one
whose result is a promise does not hold up the next. What the results mean is up to the purpose of
the emission.
-/

namespace ObjectTransfer.Exchange

variable {P : Plugin}

/-- Start a listener: what it has to do, after what it does at once. -/
def startListener (l : Listener) (argument : Value) (x : Exchange P) :
    Exchange P × List Action :=
  match l with
  | .script tag actions => (x.record (.heard tag argument), actions)
  | .forget i => ({ x with active := x.active.erase i }, [])

/-- Start what is attached to a closure. A countdown calls its listener when it reaches zero. -/
def startHook (hook : Hook) (argument : Value) (x : Exchange P) : Exchange P × List Action :=
  match hook with
  | .direct l => x.startListener l argument
  | .half n =>
    match x.countdowns[n]? with
    | none => (x, [])
    | some (stillOpen, l) =>
      let x := { x with countdowns := x.countdowns.set n (stillOpen - 1, l) }
      if stillOpen = 1 then x.startListener l .undefined else (x, [])

/-- Wait for the results of listeners: a rejection that is there already, the first in order,
prevails; otherwise all gates are waited for. -/
def awaitReplies (replies : List Reply) (t : Task P) (x : Exchange P) : Exchange P :=
  let failure := replies.findSome? fun
    | .rejected v => some v
    | .gate g =>
      match x.gates.outcome? g with
      | some (.error v) => some v
      | _ => none
    | .nothing => none
  match failure with
  | some v => x.wake (.returned (.error v) t)
  | none =>
    x.awaitGates
      (replies.filterMap fun
        | .gate g => some g
        | _ => none) t

/-- The task that notices how the listeners of a closure ended. Their results reach it through three
functions; what a listener throws does not. -/
def witness (label : String) : Task P :=
  ⟨[.relaying, .relaying, .relaying], .notice label⟩

/-- The task that notices how a late listener of a closure ended. A gate that it gave is looked at
one turn later, and its failure takes one turn less than those of other listeners. -/
def lateWitness (label : String) (replies : List Reply) (x : Exchange P) : Exchange P :=
  match replies with
  | [.gate g] =>
    x.wake (.returned (.ok .undefined) ⟨[.following g, .relaying, .relaying], .notice label⟩)
  | replies => x.awaitReplies replies (witness label)

def completed (e : Emission (Work P)) (x : Exchange P) : Exchange P :=
  match e.purpose with
  | .closure label => x.awaitReplies e.replies (witness label)
  | .lateClosure label => x.lateWitness label e.replies
  | .awaited n => x.awaitReplies e.replies ⟨[], .call n⟩
  | .plainLasting n event =>
    let hooks := (x.emitter.registrations event).once.listeners.map Hook.direct
    { x with emitter := x.emitter.clearOnce event }.push
      (.emit ⟨none, [], hooks, e.argument, .plainLast n⟩)
  | .plainLast n => x.answer n (.bool true)
  | .closing h next => x.announce h next

def broken (e : Emission (Work P)) (v : Value) (x : Exchange P) : Exchange P :=
  match e.purpose with
  | .closure label => x.wake (.returned (.error v) ⟨[], .notice label⟩)
  | .lateClosure label => x.wake (.returned (.error v) ⟨[], .notice label⟩)
  | .awaited n => x.wake (.returned (.error v) ⟨[], .call n⟩)
  | .plainLasting n _ => x.settle (.plain n) (.error v)
  | .plainLast n => x.settle (.plain n) (.error v)
  | .closing _ next => x.push (next.failed v)

/-- Go on with an emission: one action of the listener that runs, or the next listener. -/
def emission (e : Emission (Work P)) (x : Exchange P) : Exchange P :=
  match e.current with
  | some (.throws v :: _, _) => x.broken e v
  | some (.rejects v :: rest, _) =>
    x.push (.emit { e with current := some (rest, .rejected v) })
  | some (.waits g :: rest, _) => x.push (.emit { e with current := some (rest, .gate g) })
  | some (.performs c :: rest, reply) =>
    (x.push (.emit { e with current := some (rest, reply) })).command c
  | some ([], reply) =>
    x.push (.emit { e with current := none, replies := e.replies ++ [reply] })
  | none =>
    match e.rest with
    | [] => x.completed e
    | hook :: rest =>
      let (x, actions) := x.startHook hook e.argument
      x.push (.emit { e with current := some (actions, .nothing), rest })

end ObjectTransfer.Exchange
