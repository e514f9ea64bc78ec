import ObjectTransfer.Value

/-! # Chunk sources

A source yields chunks when it is asked, and ends: exhausted, or failing with a value. An
asynchronous source may have to wait for a gate, a named event from outside, before it goes on.
-/

namespace ObjectTransfer

/-- One thing that a source does. -/
inductive SourceItem where
  /-- Yields a chunk. -/
  | chunk (v : Value)
  /-- Fails. -/
  | fails (v : Value)
  /-- Waits for a gate, and fails if the gate does. -/
  | waits (gate : String)

/-- A source: what it does, in order; after the last item it is exhausted. -/
structure Source where
  asynchronous : Bool
  items : List SourceItem

/-- The answer of a source that was asked for its next chunk. -/
inductive Pulled where
  | chunk (v : Value)
  | exhausted
  | failed (v : Value)

namespace Source

/-- The turns in which an answer arrives. A chunk is unwrapped on its way, and so is the end; a
failure comes straight. An asynchronous source takes one turn more to go on. -/
def turns (s : Source) : Pulled → Nat
  | .chunk _ => if s.asynchronous then 3 else 2
  | .exhausted => if s.asynchronous then 3 else 2
  | .failed _ => if s.asynchronous then 2 else 1

/-- What a source still does after its next item. -/
def advance (s : Source) : Source := { s with items := s.items.drop 1 }

def ended (s : Source) : Source := { s with items := [] }

end Source

end ObjectTransfer
