import ObjectTransfer.Loopback.Plugin
import ObjectTransfer.Proofs.Deliveries

/-! # Handlers that run

The handler of a service runs from its start to its end, once (`Scene.Running.before`). If it waits
for each of its calls, nobody else speaks for the server of its stream (`Scene.Reachable.hearer`).
Those of the loopback storage do (`Loopback.not_forks`).
-/

namespace ObjectTransfer

variable {P : Plugin}

def Thread.Runs (th : Thread P) : Prop :=
  (∃ i, th.frames = [.serving i] ∧ ∀ o, th.stage ≠ .bound o) ∨
    ∃ i state fs, th.frames = .handling i state :: fs

/-- Whether the handler of a stream is still to start or has not ended. -/
def Scene.Running (s : Scene P) (i : StreamId) : Prop :=
  ∃ th ∈ s.threads, th.owner = .service i ∧ th.Runs

variable {s s' : Scene P} {h : HalfId} {i : StreamId} {th th' : Thread P}

theorem Thread.not_runs_of_nil {st w} : ¬ (⟨st, [], w⟩ : Thread P).Runs := by
  rintro (⟨i, frames, -⟩ | ⟨i, state, fs, frames⟩) <;> cases frames

theorem Thread.served_not_runs {o} : ¬ (served (P := P) i [] (.service i) o).Runs := by
  cases o with
  | ok => exact not_runs_of_nil
  | error v =>
      simp only [served]
      split
      · exact not_runs_of_nil
      · split
        · rintro (⟨i, frames, -⟩ | ⟨i, state, fs, frames⟩) <;> cases frames
        · exact not_runs_of_nil

theorem Thread.bound_not_runs {o w} : ¬ (⟨.bound o, [.serving i], w⟩ : Thread P).Runs := by
  rintro (⟨j, -, running⟩ | ⟨j, state, fs, frames⟩)
  · exact running o rfl
  · exact nomatch frames

theorem Thread.Runs.of_goes {st : Stage} (goes : th.stage.Goes s' st)
    (runs : { th with stage := st }.Runs) : th.Runs := by
  rcases runs with ⟨j, frames, running⟩ | handles
  · refine .inl ⟨j, frames, fun o bound => running o ?_⟩
    exact Stage.bound_goes (bound ▸ goes)
  · exact .inr handles

theorem Thread.Proper.runs_before (proper : th.Proper s) {ths es} (turns : th.Turns s ths es)
    (mem : th' ∈ ths) (owner : th'.owner = .service i) (runs : th'.Runs) : th.Runs := by
  cases turns with
  | start => exact .inl ⟨_, rfl, nofun⟩
  | handle => exact .inr ⟨_, _, _, rfl⟩
  | serve =>
      cases proper with
      | served =>
          obtain rfl := List.mem_singleton.mp mem
          exact absurd runs served_not_runs
  | delivered =>
      cases proper with
      | delivering =>
          obtain rfl := List.mem_singleton.mp mem
          exact runs.elim nofun nofun
  | @read o j r =>
      obtain rfl := List.mem_singleton.mp mem
      cases proper
      exact nomatch (Reading.Next.thread_owner _ _ _ _).symm.trans owner
  | @write o j k v =>
      obtain rfl := List.mem_singleton.mp mem
      cases proper
      exact nomatch (Writing.Turn.thread_owner _ _ _ _ _ _).symm.trans owner
  | follow => cases proper
  | settle => exact absurd mem List.not_mem_nil

theorem Stage.InCall.fails {st : Stage} {f : Fault}
    (inCall : st.InCall s i .server (.fail (.fault f))) :
    st = .entering i .server (.fail (.fault f)) ∨ st.Sends s ⟨i, .responses⟩ (.failure f) true := by
  refine inCall.imp_right fun hasStage => ?_
  obtain ⟨relayed, entry⟩ := Method.entry_fail (s.kindOf i) f
  rw [entry] at hasStage
  cases hasStage with
  | sends sends => exact sends

/-- A service calls its server for its handler, or to deliver a failure. -/
theorem Thread.Proper.runs_or_fails (proper : th.Proper s) (owner : th.owner = .service i)
    (calling : th.stage.IsCalling) :
    th.Runs ∨ ∃ f, th.stage.InCall s i .server (.fail (.fault f)) := by
  cases proper with
  | handler => exact .inl (.inr ⟨_, _, _, rfl⟩)
  | starting | served => exact calling.elim
  | finishing _ finishes => cases finishes <;> exact calling.elim
  | delivering _ delivers =>
      cases owner
      cases delivers with
      | calling _ inCall => exact .inr ⟨_, inCall⟩
      | closing | delivering | undelivered => exact calling.elim
  | beside | reader | writer => exact nomatch owner
  | caller _ _ owner' => rcases owner' with rfl | rfl <;> exact nomatch owner
  | finished free => exact absurd owner (free _)

namespace Scene

theorem Running.before (running : s'.Running i) (lt : i < s.kinds.length) (cast : s.Cast)
    (step : Step s s') : s.Running i := by
  obtain ⟨th', mem, owner, runs⟩ := running
  obtain ⟨th, old, owner', ⟨stage, rfl, goes⟩ | ⟨ths, es, turns, mem⟩⟩ := step.served lt mem owner
  · exact ⟨th, old, owner', runs.of_goes goes⟩
  · exact ⟨th, old, owner', (cast th old).runs_before turns mem owner runs⟩

end Scene

/-! ## Handlers that wait for each of their calls -/

/-- Whether a handler lets another run beside it in a turn. -/
def HandlerTurn.Forks (turn : HandlerTurn P) : Prop :=
  ∃ child next, (P.step turn.shared turn.state turn.outcome).2 = .fork child next

def Act.isFork {σ : Type} : Act σ → Bool
  | fork _ _ => true
  | _ => false

theorem HandlerTurn.forks_iff {turn : HandlerTurn P} :
    (P.step turn.shared turn.state turn.outcome).2.isFork = true ↔ turn.Forks := by
  rw [Forks]
  generalize (P.step turn.shared turn.state turn.outcome).2 = act
  constructor
  · intro forks
    cases act with
    | fork child next => exact ⟨child, next, rfl⟩
    | _ => exact nomatch forks
  · rintro ⟨child, next, rfl⟩
    rfl

instance (turn : HandlerTurn P) : Decidable turn.Forks := decidable_of_iff _ HandlerTurn.forks_iff

def Thread.Beside (th : Thread P) (i : StreamId) : Prop :=
  th.owner = .nobody ∧ ∃ state, th.frames = [.handling i state]

theorem Act.beside {act : Act P.Local} {gates : String → Option Outcome} {i j : StreamId}
    {state : P.Local} {fs : List (Frame P)} {w : Owner} {st : Stage} {s : Scene P} {th : Thread P}
    (mem : th ∈ act.threads gates j fs w) (beside : th.Beside i)
    (proper : Thread.Proper s ⟨st, .handling j state :: fs, w⟩) :
    Thread.Beside ⟨st, .handling j state :: fs, w⟩ i ∨
      i = j ∧ ∃ child next, act = .fork child next := by
  obtain ⟨owner, state', frames⟩ := beside
  have goesOn {next} (same : th.frames = .handling j next :: fs) (owner : w = .nobody) :
      Thread.Beside (⟨st, .handling j state :: fs, w⟩ : Thread P) i := by
    obtain ⟨handles, rfl⟩ := List.cons.inj (same.symm.trans frames)
    injection handles with stream
    exact ⟨owner, state, stream ▸ rfl⟩
  cases act with
  | fork child next =>
      simp only [threads, List.mem_cons, List.not_mem_nil, or_false] at mem
      rcases mem with rfl | rfl
      · cases frames
        exact .inr ⟨rfl, _, next, rfl⟩
      · exact .inl (goesOn rfl owner)
  | succeed | fail | refuse =>
      obtain rfl := List.mem_singleton.mp mem
      obtain rfl : fs = _ := frames
      cases proper
  | call | wait | rest | did | log =>
      obtain rfl := List.mem_singleton.mp mem
      exact .inl (goesOn rfl owner)

namespace Scene

/-- Whether the handlers of a stream waited for each of their calls. -/
def Unforked (s : Scene P) (i : StreamId) : Prop :=
  ∀ turn ∈ s.turns, turn.stream = i → ¬ turn.Forks

theorem Unforked.before (unforked : s'.Unforked i) (later : Later s s') : s.Unforked i :=
  fun turn mem => unforked turn (later.turns.subset mem)

theorem Solo.beside {kindOf closed gates} {ths es} (solo : Solo kindOf closed gates th ths es)
    (proper : th.Proper s) (mem : th' ∈ ths) (beside : th'.Beside i) : th.Beside i := by
  cases solo with
  | received | pass | want | ended | enter | undelivered | deliver =>
      obtain rfl := List.mem_singleton.mp mem
      exact beside
  | read =>
      obtain rfl := List.mem_singleton.mp mem
      cases proper
      exact nomatch (Reading.Next.thread_owner ..).symm.trans beside.1
  | write =>
      obtain rfl := List.mem_singleton.mp mem
      cases proper
      exact nomatch (Writing.Turn.thread_owner ..).symm.trans beside.1
  | serve =>
      obtain rfl := List.mem_singleton.mp mem
      cases proper
      exact nomatch (Thread.served_owner ..).symm.trans beside.1
  | delivered =>
      obtain rfl := List.mem_singleton.mp mem
      cases proper
      exact nomatch beside.1
  | follow => cases proper
  | settle => exact absurd mem List.not_mem_nil

/-- A handler beside the service of a stream was there before, or it was let run in this step. -/
theorem Step.beside (step : Step s s') (cast : s.Cast) (mem : th' ∈ s'.threads)
    (beside : th'.Beside i) :
    (∃ th ∈ s.threads, th.Beside i) ∨ ∃ turn ∈ s'.turns, turn.stream = i ∧ turn.Forks := by
  have first {c} (same : th' = s.firstThread c) : False :=
    nomatch beside.1 ▸ same ▸ s.firstThread_owner c
  cases step with
  | @solo th ths es rest threads solo =>
      have inside := threads ▸ Multiset.mem_cons_self th rest
      rcases Multiset.mem_add.mp mem with new | mem
      · exact .inl ⟨th, inside, solo.beside (cast th inside) new beside⟩
      · exact .inl ⟨th', threads ▸ Multiset.mem_cons_of_mem mem, beside⟩
  | start threads =>
      rcases Multiset.mem_cons.mp mem with rfl | mem
      · exact nomatch beside.1
      · exact .inl ⟨th', threads ▸ Multiset.mem_cons_of_mem mem, beside⟩
  | @handle o j state fs w rest threads =>
      have inside : ⟨.bound o, .handling j state :: fs, w⟩ ∈ s.threads :=
        threads ▸ Multiset.mem_cons_self _ _
      rcases Multiset.mem_add.mp mem with new | mem
      · rcases Act.beside new beside (cast _ inside) with before | ⟨rfl, forks⟩
        · exact .inl ⟨_, inside, before⟩
        · exact .inr ⟨_, List.mem_cons_self, rfl, forks⟩
      · exact .inl ⟨th', threads ▸ Multiset.mem_cons_of_mem mem, beside⟩
  | @close h next fs w rest threads isOpen =>
      rcases Multiset.mem_cons.mp mem with rfl | mem
      · exact .inl ⟨⟨.closing h next, fs, w⟩, threads ▸ Multiset.mem_cons_self _ _, beside⟩
      · obtain ⟨th, inside, rfl⟩ := Multiset.mem_map.mp mem
        exact .inl ⟨th, threads ▸ Multiset.mem_cons_of_mem inside, beside⟩
  | @meet h m terminal fs w fs' w' rest threads =>
      rcases Multiset.mem_cons.mp mem with rfl | mem
      · exact .inl ⟨⟨.wanting h, fs, w⟩, threads ▸ Multiset.mem_cons_self _ _, beside⟩
      rcases Multiset.mem_cons.mp mem with rfl | mem
      · exact .inl ⟨⟨.offering h m terminal, fs', w'⟩,
          threads ▸ Multiset.mem_cons_of_mem (Multiset.mem_cons_self _ _), beside⟩
      · exact .inl ⟨th', threads ▸ Multiset.mem_cons_of_mem (Multiset.mem_cons_of_mem mem), beside⟩
  | gate =>
      obtain ⟨th, inside, rfl⟩ := Multiset.mem_map.mp mem
      exact .inl ⟨th, inside, beside⟩
  | strike | count => exact .inl ⟨th', mem, beside⟩
  | notice =>
      rcases Multiset.mem_cons.mp mem with rfl | mem
      · exact nomatch beside.1
      · exact .inl ⟨th', mem, beside⟩
  | call =>
      rcases Multiset.mem_cons.mp mem with same | mem
      · exact (first same).elim
      · exact .inl ⟨th', mem, beside⟩
  | opening =>
      rcases Multiset.mem_cons.mp mem with rfl | mem
      · exact nomatch beside.1
      rcases Multiset.mem_cons.mp mem with same | mem
      · exact (first same).elim
      · exact .inl ⟨th', mem, beside⟩

theorem Reachable.not_beside (reachable : s.Reachable) (unforked : s.Unforked i) :
    ∀ th ∈ s.threads, ¬ th.Beside i := by
  induction reachable with
  | refl => exact fun th mem => absurd mem (Multiset.notMem_zero th)
  | @tail s s' steps step ih =>
      intro th mem beside
      rcases step.beside (Reachable.cast steps) mem beside with ⟨th', mem', beside'⟩ | forks
      · exact ih (unforked.before step.later) th' mem' beside'
      · obtain ⟨turn, mem, same, forks⟩ := forks
        exact unforked turn mem same forks

/-- If the handlers of a stream wait for each of their calls, only the handler of its service
receives requests. -/
theorem Reachable.hearer (reachable : s.Reachable) (unforked : s.Unforked i) (mem : th ∈ s.threads)
    (hears : th.stage.Hears ⟨i, .requests⟩) : th.owner = .service i ∧ th.Runs := by
  obtain ⟨lt, role, m, side, calls⟩ := reachable.cast.hears mem hears
  have calling : th.stage.IsCalling := by
    cases stage : th.stage <;> rw [stage] at hears <;> first | exact hears.elim | trivial
  have proper := reachable.cast th mem
  cases calls with
  | reader | writer | caller => exact nomatch side
  | beside frames owner => exact absurd ⟨owner, _, frames⟩ (reachable.not_beside unforked th mem)
  | service owner =>
      rcases proper.runs_or_fails owner calling with runs | ⟨f, inCall⟩
      · exact ⟨owner, runs⟩
      · rcases inCall.fails with stage | sends
        · rw [stage] at hears
          exact hears.elim
        · generalize th.stage = st at sends hears
          cases sends <;> exact hears.elim

/-- Likewise, only its service sends to the client. -/
theorem Reachable.voice (reachable : s.Reachable) (unforked : s.Unforked i) (mem : th ∈ s.threads)
    {m terminal} (offers : th.stage = .offering ⟨i, .responses⟩ m terminal) :
    th.owner = .service i ∧ (th.Runs ∨ ∃ f, th.stage.InCall s i .server (.fail (.fault f))) := by
  have calling : th.stage.IsCalling := offers ▸ trivial
  have proper := reachable.cast th mem
  obtain ⟨j, role, m, lt, calls, inCall⟩ := proper.calls calling
  rw [offers] at inCall
  obtain ⟨same, -⟩ := inCall.offering
  obtain rfl : i = j := congrArg HalfId.stream same
  cases calls with
  | reader | writer | caller => exact nomatch congrArg HalfId.side same
  | beside frames owner => exact absurd ⟨owner, _, frames⟩ (reachable.not_beside unforked th mem)
  | service owner => exact ⟨owner, proper.runs_or_fails owner calling⟩

/-- Only its handler sends payloads. -/
theorem Reachable.speaker (reachable : s.Reachable) (unforked : s.Unforked i) (mem : th ∈ s.threads)
    {v terminal} (offers : th.stage = .offering ⟨i, .responses⟩ (.payload v) terminal) :
    th.owner = .service i ∧ th.Runs := by
  obtain ⟨owner, runs | ⟨f, inCall⟩⟩ := reachable.voice unforked mem offers
  · exact ⟨owner, runs⟩
  · rw [offers] at inCall
    rcases inCall.fails with stage | sends
    · exact nomatch stage
    · cases sends

theorem Step.passed_of_silent (step : Step s s') (reachable : s.Reachable) (unforked : s.Unforked i)
    (silent : ∀ th ∈ s.threads, th.owner = .service i →
      ∀ m terminal, th.stage ≠ .offering ⟨i, .responses⟩ m terminal) :
    s'.passed ⟨i, .responses⟩ = s.passed ⟨i, .responses⟩ := by
  obtain ⟨es, events, calm | ⟨h, m, fs, w, terminal, fs', w', rfl, -, -, offers, -⟩⟩ := step.news
  · exact passed_eq es events (calm _)
  · refine passed_eq _ events ?_
    intro m' mem
    obtain ⟨rfl, rfl⟩ : ⟨i, .responses⟩ = h ∧ m' = m := by simpa using mem
    exact silent _ offers (reachable.voice unforked offers rfl).1 _ _ rfl

theorem Reachable.requests_ledger (reachable : s.Reachable) (lt : i < s.kinds.length)
    (unforked : s.Unforked i) {why : Prop}
    (because : ∀ t t', t.Reachable → Step t t' → Steps t' s → t.Running i →
      t'.closed ⟨i, .requests⟩ = true → why) : s.Ledger ⟨i, .requests⟩ why := by
  refine reachable.ledger lt (fun t reached steps => ?_) ?_
  · have named : ∀ th ∈ t.threads, th.stage.Hears ⟨i, .requests⟩ →
        th.owner.name? = some (.inr i) := by
      intro th mem hears
      rw [(reached.hearer (unforked.before steps.later) mem hears).1]
      rfl
    exact .of_name reached.owned named
  · rintro t t' reached step steps closed ⟨th, mem, hears⟩
    have unforked := unforked.before (step.later.trans steps.later)
    obtain ⟨owner, runs⟩ := reached.hearer unforked mem hears
    exact because t t' reached step steps ⟨th, mem, owner, runs⟩ closed

theorem Step.turns_eq (step : Step s s') : s'.turns = s.turns ∨ ∃ turn : HandlerTurn P,
    s'.turns = turn :: s.turns ∧ turn.shared = s.shared ∧ ∃ fs w,
      ⟨.bound turn.outcome, .handling turn.stream turn.state :: fs, w⟩ ∈ s.threads ∧
      ∀ th ∈ (P.step s.shared turn.state turn.outcome).2.threads s.gates turn.stream fs w,
        th ∈ s'.threads := by
  cases step with
  | @handle o i state fs w rest threads =>
      refine .inr ⟨⟨i, state, o, s.shared⟩, rfl, rfl, fs, w, threads ▸ Multiset.mem_cons_self _ _,
        fun th inside => ?_⟩
      exact Multiset.mem_add.mpr (.inl (Multiset.mem_coe.mpr inside))
  | _ => exact .inl rfl

theorem Step.turning (step : Step s s') {turn : HandlerTurn P} (mem : turn ∈ s'.turns) :
    turn ∈ s.turns ∨ turn.shared = s.shared ∧ ∃ fs w,
      ⟨.bound turn.outcome, .handling turn.stream turn.state :: fs, w⟩ ∈ s.threads ∧
      ∀ th ∈ (P.step s.shared turn.state turn.outcome).2.threads s.gates turn.stream fs w,
        th ∈ s'.threads := by
  rcases step.turns_eq with same | ⟨turn', turns, shared, taken⟩
  · exact .inl (same ▸ mem)
  · rw [turns] at mem
    rcases List.mem_cons.mp mem with rfl | old
    · exact .inr ⟨shared, taken⟩
    · exact .inl old

theorem Reachable.turned (reachable : s.Reachable) {turn : HandlerTurn P} (mem : turn ∈ s.turns) :
    turn.stream < s.kinds.length := by
  induction reachable with
  | refl => exact absurd mem List.not_mem_nil
  | @tail s s' steps step ih =>
      rcases step.turning mem with old | ⟨-, fs, w, inside, -⟩
      · exact step.later.lt (ih old)
      · refine step.later.lt ?_
        have proper := Reachable.cast steps _ inside
        cases proper with
        | handler lt | beside lt => exact lt

end Scene

/-! ## The handlers of the loopback storage -/

namespace Loopback

variable {c : Config} {s : Store} {d : Duty} {o : Outcome}

/-- Whether a handler does one thing after another. -/
def Single : Act Duty → Prop
  | .fork _ _ => False
  | _ => True

theorem single_complain (f : Except Fault Fault) : Single (complain f) := by
  cases f <;> trivial

theorem single_stream (data : Bytes) : Single (stream c data) := by
  rw [stream]
  split <;> trivial

theorem single_answerGet (bucket key : String) : Single (answerGet c s bucket key) := by
  rw [answerGet]
  split
  · exact single_complain _
  · split
    · exact single_complain _
    · exact single_stream _

theorem single_conclude (t : Intake) : Single (conclude c s t).2 := by
  fun_cases conclude c s t with
  | case4 | case5 => trivial
  | case1 | case2 | case3 =>
      dsimp only
      exact single_complain _

theorem single_step : Single (step c s d o).2 := by
  fun_cases step c s d o with
  | case1 => exact single_answerGet _ _
  | case3 => exact single_stream _
  | case5 => exact single_conclude _
  | _ => trivial

theorem not_forks (turn : HandlerTurn (plugin c)) : ¬ turn.Forks := by
  rintro ⟨child, next, forks⟩
  have single := single_step (c := c) (s := turn.shared) (d := turn.state) (o := turn.outcome)
  rw [show (step c turn.shared turn.state turn.outcome).2 = .fork child next from forks] at single
  exact single

end Loopback

end ObjectTransfer
