import ObjectTransfer.Call
import ObjectTransfer.Log
import ObjectTransfer.Settlement

/-! # The journal

Whatever anyone outside can notice of an exchange is an event, and the exchange keeps all events in
a journal.
-/

namespace ObjectTransfer

inductive Event where
  /-- The call of this number began. -/
  | called (n : Nat) (c : Call)
  /-- The call of this number settled. -/
  | settled (n : Nat) (s : Settlement)
  /-- This call opened this stream to the plugin. -/
  | opened (n : Nat) (i : StreamId)
  /-- A half was closed. -/
  | closed (h : HalfId)
  /-- A message on a half passed from its sender to a receiver. -/
  | handed (h : HalfId) (m : Message)
  /-- A receive on a half came to this outcome. -/
  | received (h : HalfId) (o : Outcome)
  /-- A listener was called with an argument. -/
  | heard (tag : String) (argument : Value)
  /-- A handler of a plugin showed something that it did. -/
  | did (handler deed : String) (v : Value)
  /-- The source of this number yielded a chunk. -/
  | pulled (source : Nat)
  /-- The source of this number ended. -/
  | sourceEnded (source : Nat)
  | logged (log : Log)

end ObjectTransfer
