import ObjectTransfer.Plugin

/-! # Plugins that follow a script

A scripted handler performs a list of deeds, waiting for each, and shows what it did. Performing a
deed is a function of its own, so a turn passes between its end and the next deed; an attempt waits
for the deed in it in the same way.

Such a plugin serves to try a host against every behaviour of a plugin.
-/

namespace ObjectTransfer.Scripted

/-- One deed of a handler. -/
inductive Deed where
  /-- Fails. -/
  | throws (v : Value)
  /-- Throws before the handler gave a promise; only as the first deed. -/
  | refuses (v : Value)
  /-- Waits for a gate. -/
  | waits (gate : String)
  /-- Receives until the end. -/
  | drains
  /-- Performs a deed, whose failure is only shown. -/
  | attempts (d : Deed)
  /-- Starts a deed without waiting for it. -/
  | spawns (d : Deed)
  /-- Calls a method of the server. -/
  | calls (m : Method)

/-- What a scripted handler waits for. -/
inductive Phase where
  /-- Nothing yet; this request is to be shown. -/
  | starting (request : Value)
  /-- The end of so many functions that performed a deed. -/
  | ending (functions : Nat)
  /-- The end of the function that performed a deed, which failed. -/
  | throwing (v : Value)
  /-- A method. -/
  | calling (method : String)
  /-- A gate. -/
  | waiting
  /-- A receive among those until the end. -/
  | draining
  /-- Nothing; another receive is due. -/
  | receiving
  /-- Nothing any more. -/
  | finished

/-- A scripted handler. -/
structure State where
  /-- The name under which it shows its deeds. -/
  name : String
  phase : Phase
  /-- How many attempts the present deed is in. A failure of an attempted deed is only shown. -/
  attempts : Nat
  /-- Whether it performs a deed that another handler started. -/
  spawned : Bool
  rest : List Deed

namespace State

def done (st : State) : State := { st with phase := .ending (st.attempts + 1) }

/-- The present deed failed. -/
def throwing (st : State) (v : Value) : State := { st with phase := .throwing v }

end State

/-- The failure of the present deed arrives. -/
def failing (st : State) (v : Value) : Act State :=
  if 0 < st.attempts then .did st.name "caught" v { st with phase := .ending st.attempts }
  else if st.spawned then .did st.name "spawned" v { st with phase := .finished }
  else .fail v

/-- Begin a deed. -/
def perform (st : State) : Deed → Act State
  | .throws v => .rest (st.throwing v)
  | .refuses v => .refuse v
  | .waits gate => .wait gate { st with phase := .waiting }
  | .drains => .call .receive { st with phase := .draining }
  | .attempts d => perform { st with attempts := st.attempts + 1 } d
  | .spawns d => .fork ⟨st.name, .ending 0, 0, true, [d]⟩ st.done
  | .calls m => .call m { st with phase := .calling m.name }

def next (st : State) : Act State :=
  match st.rest with
  | [] => .succeed
  | d :: rest => perform { st with rest, attempts := 0 } d

def step (st : State) (o : Outcome) : Act State :=
  match st.phase, o with
  | .starting request, _ => .did st.name "start" request { st with phase := .ending 0 }
  | .ending 0, _ => next st
  | .ending (functions + 1), _ => .rest { st with phase := .ending functions }
  | .throwing v, _ => failing st v
  | .calling method, .ok v => .did st.name method v st.done
  | .calling _, .error v => .rest (st.throwing v)
  | .waiting, .ok _ => .rest { st with phase := .ending st.attempts }
  | .waiting, .error v => .rest (st.throwing v)
  | .draining, .ok v =>
    .did st.name "recv" v (if v.isEof then st.done else { st with phase := .receiving })
  | .draining, .error v => .rest (st.throwing v)
  | .receiving, _ => .call .receive { st with phase := .draining }
  | .finished, _ => .succeed

/-- The deeds of each call: the calls after the last list repeat it. -/
structure Script where
  gets : List (List Deed)
  puts : List (List Deed)

/-- How many calls of each kind were made. -/
structure Count where
  gets : Nat
  puts : Nat

/-- The deeds of a call, by its number among the calls of its kind. -/
def deedsOf (lists : List (List Deed)) (n : Nat) : List Deed :=
  (lists[n]?).getD (lists.getLast?.getD [])

def invoke (s : Script) (c : Count) : Invocation → Count × State
  | .get bucket key =>
    let request : Value := .object [("bucket", .text bucket), ("key", .text key)]
    ({ c with gets := c.gets + 1 },
      ⟨"get" ++ toString c.gets, .starting request, 0, false, deedsOf s.gets c.gets⟩)
  | .put =>
    ({ c with puts := c.puts + 1 },
      ⟨"put" ++ toString c.puts, .starting .undefined, 0, false, deedsOf s.puts c.puts⟩)

/-- The plugin of a script. -/
def plugin (s : Script) : Plugin where
  Shared := Count
  Local := State
  initial := ⟨0, 0⟩
  invoke := invoke s
  step c st o := (c, step st o)
  inspect _ _ := .undefined

end ObjectTransfer.Scripted
