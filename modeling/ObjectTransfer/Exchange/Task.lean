import ObjectTransfer.Call
import ObjectTransfer.Plugin
import ObjectTransfer.Transfer.Reading
import ObjectTransfer.Transfer.Writing

/-! # Tasks

A task is a chain of asynchronous functions, each waiting for the one in front of it; the outcome of
the last one goes to the task's owner. A task waits in exactly one place: parked at a half, waiting
for gates, or ready to go on.
-/

namespace ObjectTransfer

/-- An asynchronous function that waits for the outcome of another. -/
inductive Frame (P : Plugin) where
  /-- A reader that waits for a receive. -/
  | reading (stream : StreamId) (r : Reading)
  /-- A writer, with the number of its source. -/
  | writing (stream : StreamId) (source : Nat) (w : Writing)
  /-- A handler of the plugin, with its own state. -/
  | handling (stream : StreamId) (state : P.Local)
  /-- The service of a stream, while the handler runs. -/
  | serving (stream : StreamId)
  /-- The service of a stream, while a failure of the handler is delivered. -/
  | delivering (stream : StreamId)
  /-- A function that hands on the outcome it waits for. -/
  | relaying
  /-- A function that ends as a gate ends. -/
  | following (gate : String)

/-- Who learns the outcome of the last function of a task. -/
inductive Owner where
  /-- The caller of an asynchronous function. -/
  | call (n : Nat)
  /-- The caller of a plain function. -/
  | plain (n : Nat)
  /-- The log, if the listeners of a half failed. -/
  | notice (label : String)
  /-- The log, if the service of a stream failed. -/
  | service (stream : StreamId)
  | nobody

/-- A chain of functions, the innermost in front, and who learns the outcome of the last. -/
structure Task (P : Plugin) where
  frames : List (Frame P)
  owner : Owner

namespace Task

variable {P : Plugin}

/-- A task in front of which one more function waits. -/
def under (t : Task P) (f : Frame P) : Task P :=
  { t with frames := f :: t.frames }

end Task

/-- A task that waits for its message to be taken. -/
structure Offer (P : Plugin) where
  /-- Whether the half is to be closed after it. -/
  terminal : Bool
  task : Task P

/-- What is attached to the closure of a half. -/
inductive Hook where
  | direct (l : Listener)
  /-- One of the two halves that a countdown waits for. -/
  | half (countdown : Nat)

/-- A task that can go on, and what it goes on with. -/
inductive Wake (P : Plugin) where
  /-- Its message was taken, or dropped. -/
  | sent (h : HalfId) (terminal : Bool) (taken : Bool) (t : Task P)
  /-- It received a message, or the half ended. -/
  | received (h : HalfId) (m : Option Message) (t : Task P)
  /-- What it waited for came to an outcome. -/
  | returned (o : Outcome) (t : Task P)
  /-- A listener that was registered for a closure after it, and how many turns it lets pass. -/
  | late (hook : Hook) (label : String) (turns : Nat)

end ObjectTransfer
