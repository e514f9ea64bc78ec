import ObjectTransfer.Exchange.Stream

/-! # Work

Work is what must be done before anything else can run. Closing a half calls its listeners at once,
and a listener may do anything; so calling listeners is work too, and work may carry the work that
comes after it.
-/

namespace ObjectTransfer

/-- The result of a listener. -/
inductive Reply where
  | nothing
  | rejected (v : Value)
  | gate (g : String)

/-- Why listeners are called; `W` is the type of work. -/
inductive Purpose (W : Type) where
  /-- A half closed. -/
  | closure (label : String)
  /-- A half had closed before its listener was registered. -/
  | lateClosure (label : String)
  /-- An awaited emission, the call of this number. -/
  | awaited (n : Nat)
  /-- The first part of a plain emission, the call of this number: the lasting listeners that it
  reaches. -/
  | plainLasting (n : Nat) (event : String)
  /-- The last part of a plain emission: the listeners that are called once, or all listeners if
  there were never any of that sort when it began. -/
  | plainLast (n : Nat)
  /-- The actions that a half performs as it closes, and the work after the closing. -/
  | closing (h : HalfId) (next : W)

structure Emission (W : Type) where
  /-- The listener that runs, if any: what it has still to do, and its result so far. -/
  current : Option (List Action × Reply)
  /-- The results of the listeners that returned, in order. -/
  replies : List Reply
  /-- The listeners still to call. -/
  rest : List Hook
  argument : Value
  purpose : Purpose W

/-- A piece of work. -/
inductive Work (P : Plugin) where
  /-- Let a task go on. -/
  | run (w : Wake P)
  /-- Hand an outcome to a task. -/
  | give (o : Outcome) (t : Task P)
  /-- Close a half, then do this. -/
  | close (h : HalfId) (next : Work P)
  /-- Receive on a half. -/
  | receive (h : HalfId) (t : Task P)
  /-- Enter a method of a party of a stream. -/
  | enter (stream : StreamId) (role : Role) (m : Method) (t : Task P)
  /-- Start the service of a stream. -/
  | serve (stream : StreamId) (i : Invocation)
  /-- Deliver a failure to the client of a stream, unless its response half is closed. -/
  | deliver (stream : StreamId) (f : Fault) (t : Task P)
  /-- Call listeners. -/
  | emit (e : Emission (Work P))

namespace Work

variable {P : Plugin}

/-- The work in the place of work that cannot be done because something before it threw. -/
def failed (v : Value) : Work P → Work P
  | give _ t => give (.error v) t
  | receive _ t => give (.error v) t
  | enter _ _ _ t => give (.error v) t
  | deliver _ _ t => give (.error v) t
  | close _ next => next.failed v
  | w => w

end Work

end ObjectTransfer
