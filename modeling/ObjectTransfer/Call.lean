import ObjectTransfer.Stream.Method
import ObjectTransfer.Transfer.Source

/-! # Calls and listeners

A call is made on a stream, on a plugin, or on an event emitter. Listeners are registered by calls
and are lists of actions, which may be calls themselves; so the two are one mutual definition.
-/

namespace ObjectTransfer

/-- Streams are numbered in the order in which they are opened. -/
abbrev StreamId := Nat

structure HalfId where
  stream : StreamId
  side : Side
  deriving DecidableEq, Repr

/-- A call of a host on a plugin. Opening a stream makes the plugin serve it. -/
inductive PluginCall where
  /-- Open a download and read the object that it brings. -/
  | read (bucket key : String)
  /-- Open an upload and write an object over it. -/
  | write (bucket key : String) (source : Source)
  /-- Open a download and keep its client under a name. -/
  | openDownload (name bucket key : String)
  /-- Open an upload and keep its client under a name. -/
  | openUpload (name : String)
  /-- A method of a client that was kept. -/
  | method (name : String) (m : Method)
  /-- Read the object that a kept client's download brings. -/
  | readKept (name : String)
  /-- Whether the plugin holds an object. -/
  | holds (bucket key : String)
  /-- The keys of a bucket of the plugin. -/
  | keys (bucket : String)

mutual

inductive Listener where
  /-- Shows its tag and performs its actions in order. -/
  | script (tag : String) (actions : List Action)
  /-- Strikes a stream off the list of active ones. -/
  | forget (stream : StreamId)

inductive Action where
  /-- Throws, which ends the listener. -/
  | throws (v : Value)
  /-- Makes the listener's result a promise that is rejected. -/
  | rejects (v : Value)
  /-- Makes the listener's result the promise of a gate. -/
  | waits (gate : String)
  | performs (c : Command)

/-- What can be done from outside at any time: make a call, or settle a gate. -/
inductive Command where
  | call (c : Call)
  | settle (gate : String) (o : Outcome)

inductive Call where
  | stream (i : StreamId) (c : StreamCall)
  | plugin (c : PluginCall)
  | emitter (event : String) (c : EmitterCall)

inductive StreamCall where
  /-- A method of a party. -/
  | method (role : Role) (m : Method)
  /-- Close a half from outside either role. -/
  | close (side : Side)
  /-- Register a listener for the closure. -/
  | whenClosed (l : Listener)
  /-- Whether the stream's identifier has the form of one. -/
  | identified
  /-- Read the object that a download brings. -/
  | read
  /-- Write an object over an upload. -/
  | write (bucket key : String) (source : Source)

/-- A call on an emitter, for one event. -/
inductive EmitterCall where
  /-- Register a listener for every emission. -/
  | subscribe (l : Listener)
  /-- Register a listener for the next emission. -/
  | subscribeOnce (l : Listener)
  /-- Withdraw the latest registration of a listener. -/
  | unsubscribe (l : Listener)
  /-- Call the listeners. -/
  | emit (argument : Value)
  /-- Call the listeners and wait for their results. -/
  | emitAndWait (argument : Value)

end

instance : Inhabited Listener := ⟨.forget 0⟩

end ObjectTransfer
