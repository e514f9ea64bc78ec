import ObjectTransfer.Exchange.Step

/-! # Runs in any order

An exchange does the work on its agenda first; then any ready task may go on, or something may
happen outside. `Exchange.Move` is one such step and `Exchange.Run` any number of them, so what
holds after every run holds whatever the order in which tasks go on. Letting the task that waits
longest go on is one of these orders (`Exchange.run_advance`).
-/

namespace ObjectTransfer.Exchange

variable {P : Plugin}

/-- One step, where only allowed commands come from outside. -/
inductive Move (allowed : Command → Prop) : Exchange P → Exchange P → Prop where
  /-- The next piece of work is done. -/
  | work {x : Exchange P} {w : Work P} {rest : List (Work P)} :
    x.agenda = w :: rest → Move allowed x ({ x with agenda := rest }.work w)
  /-- A ready task goes on, any of them. -/
  | resume {x : Exchange P} {place : Nat} :
    x.agenda = [] → place < x.ready.length → Move allowed x (x.resume place)
  /-- A command comes from outside. -/
  | command {x : Exchange P} {c : Command} :
    x.agenda = [] → allowed c → Move allowed x (x.command c)

/-- The states that an exchange can reach from this one. -/
inductive Run (allowed : Command → Prop) (x : Exchange P) : Exchange P → Prop where
  | refl : Run allowed x x
  | step {y z : Exchange P} : Run allowed x y → Move allowed y z → Run allowed x z

variable {allowed : Command → Prop} {x y z : Exchange P}

theorem Move.run (h : Move allowed x y) : Run allowed x y :=
  .step .refl h

theorem Run.trans (first : Run allowed x y) (second : Run allowed y z) : Run allowed x z := by
  induction second with
  | refl => exact first
  | step _ move ih => exact ih.step move

/-- What every step keeps, a run keeps. -/
theorem Run.keeps {I : Exchange P → Prop} (run : Run allowed x y) (holds : I x)
    (kept : ∀ u v, I u → Move allowed u v → I v) : I y := by
  induction run with
  | refl => exact holds
  | step _ move ih => exact kept _ _ ih move

/-- The step in which the task that waits longest goes on is a step. -/
theorem move_of_advance? (h : x.advance? = some y) : Move allowed x y := by
  unfold advance? at h
  split at h
  next w rest agenda =>
    obtain rfl := Option.some.inj h
    exact .work agenda
  next agenda =>
    split at h
    next => exact nomatch h
    next w rest ready =>
      obtain rfl := Option.some.inj h
      have taken : x.resume 0 = { x with ready := rest, agenda := [.run w] } := by
        simp [resume, ready]
      exact taken ▸ .resume agenda (by simp [ready])

/-- Steps in which the task that waits longest goes on are a run. -/
theorem run_advance (steps : Nat) (x : Exchange P) : Run allowed x (x.advance steps) := by
  induction steps generalizing x with
  | zero => exact .refl
  | succ steps ih =>
    unfold advance
    split
    next => exact .refl
    next y advanced => exact (move_of_advance? advanced).run.trans (ih y)

/-- A run goes on with a command and the tasks that wait longest. -/
theorem Run.command (run : Run allowed x y) (free : y.agenda = []) {c : Command}
    (granted : allowed c) (steps : Nat) : Run allowed x ((y.command c).advance steps) :=
  (run.step (.command free granted)).trans (run_advance steps _)

/-- Doing the work on the agenda is a run. -/
theorem run_clear (steps : Nat) (x : Exchange P) : Run allowed x (x.clear steps) := by
  induction steps generalizing x with
  | zero => exact .refl
  | succ steps ih =>
    unfold clear
    split
    next => exact .refl
    next w rest agenda => exact (Move.work agenda).run.trans (ih _)

end ObjectTransfer.Exchange
