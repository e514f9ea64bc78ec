import ObjectTransfer.Log
import ObjectTransfer.Stream.Method

/-! # Storage plugins

A plugin serves every call with a handler of its own. A handler owns the server side of one stream;
it is described by what it does with the outcome of each wait, with a state of its own and a state
that the handlers of the plugin share. Between two waits it is alone.
-/

namespace ObjectTransfer

inductive Invocation where
  /-- Stream an object. -/
  | get (bucket key : String)
  /-- Receive an object. -/
  | put

/-- What a handler does next; `σ` is its own state. -/
inductive Act (σ : Type) where
  /-- Calls a method of its server and waits for the outcome. -/
  | call (m : Method) (next : σ)
  /-- Waits for a gate. -/
  | wait (gate : String) (next : σ)
  /-- Waits for something that is settled already, so that others may run first. -/
  | rest (next : σ)
  /-- Lets another handler run beside it on the same stream, and goes on. -/
  | fork (child next : σ)
  /-- Shows something that it did. -/
  | did (handler deed : String) (v : Value) (next : σ)
  /-- Writes a log line. -/
  | log (line : Log) (next : σ)
  /-- Is done. -/
  | succeed
  /-- Fails. -/
  | fail (v : Value)
  /-- Throws before it gave a promise to wait for. -/
  | refuse (v : Value)

inductive Query where
  | holds (bucket key : String)
  | keys (bucket : String)

/-- A storage plugin. -/
structure Plugin where
  /-- What all its handlers share. -/
  Shared : Type
  /-- What a handler keeps for itself. -/
  Local : Type
  initial : Shared
  /-- A handler that has not done anything yet. -/
  invoke : Shared → Invocation → Shared × Local
  /-- Go on with the outcome of the last wait. -/
  step : Shared → Local → Outcome → Shared × Act Local
  /-- Answer a question about the objects. -/
  inspect : Shared → Query → Value

namespace Plugin

/-- A plugin that serves nothing. -/
def idle : Plugin where
  Shared := Unit
  Local := Unit
  initial := ()
  invoke _ _ := ((), ())
  step _ _ _ := ((), .succeed)
  inspect _ _ := .undefined

end Plugin

end ObjectTransfer
