import ObjectTransfer.Exchange.Basic

/-! # Outcomes, and tasks that wait for them

An outcome goes to the function that waits for it, which goes on later, or, at the end of a task, to
the task's owner at once. A task may also wait for gates: for all of them, or until one fails.
-/

namespace ObjectTransfer.Exchange

variable {P : Plugin}

def settle (owner : Owner) (o : Outcome) (x : Exchange P) : Exchange P :=
  match owner with
  | .call n => x.record (.settled n (.ofPromise o))
  | .plain n => x.record (.settled n (.ofPlain o))
  | .notice label =>
    match o with
    | .ok _ => x
    | .error v => x.log .error ("[" ++ label ++ "] Close listener failed:") (some v)
  | .service i =>
    match o with
    | .ok _ => x
    | .error v =>
      let label := x.serviceLabel i
      if v.isStreamClosed then
        x.log .debug
          ("[InMemoryStoragePlugin] Caller closed " ++ label ++ " before the error was delivered.")
          none
      else
        x.log .error ("[InMemoryStoragePlugin] Failed to deliver error for " ++ label ++ ":")
          (some v)
  | .nobody => x

def give (o : Outcome) (t : Task P) (x : Exchange P) : Exchange P :=
  match t.frames with
  | [] => x.settle t.owner o
  | _ :: _ => x.wake (.returned o t)

/-- Let a task wait until all of these gates are settled, or one of them with a failure. -/
def awaitGates (names : List String) (t : Task P) (x : Exchange P) : Exchange P :=
  let outcomes := names.map fun name => (name, x.gates.outcome? name)
  let failure := outcomes.findSome? fun
    | (_, some (.error v)) => some v
    | _ => none
  match failure with
  | some v => x.wake (.returned (.error v) t)
  | none =>
    let missing := (outcomes.filter (·.2.isNone)).map (·.1)
    if missing.isEmpty then x.wake (.returned (.ok .undefined) t)
    else { x with gates := { x.gates with waiting := x.gates.waiting ++ [(missing, t)] } }

/-- What settling a gate means for a task that waits: it waits for fewer gates, or it goes on. -/
def afterGate (name : String) (o : Outcome) (entry : List String × Task P) :
    (List String × Task P) ⊕ Wake P :=
  if entry.1.contains name then
    match o with
    | .error v => .inr (.returned (.error v) entry.2)
    | .ok _ =>
      let missing := entry.1.filter (· != name)
      if missing.isEmpty then .inr (.returned (.ok .undefined) entry.2)
      else .inl (missing, entry.2)
  else .inl entry

/-- Settle a gate, unless it is settled already. -/
def settleGate (name : String) (o : Outcome) (x : Exchange P) : Exchange P :=
  if (x.gates.outcome? name).isSome then x
  else
    let entries := x.gates.waiting.map (afterGate name o)
    let waiting := entries.filterMap fun
      | .inl entry => some entry
      | .inr _ => none
    let woken := entries.filterMap fun
      | .inl _ => none
      | .inr w => some w
    { x with
      gates := ⟨(name, o) :: x.gates.settled, waiting⟩
      ready := x.ready ++ woken }

end ObjectTransfer.Exchange
