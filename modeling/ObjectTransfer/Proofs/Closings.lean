import ObjectTransfer.Proofs.Handlers

/-! # What leads to a closing

Where a thread leads to the closing of a half and did not before, a message that ends the half
passed, a method that closes it was entered, or a handler ended.
-/

namespace ObjectTransfer

variable {P : Plugin}

theorem Entry.closes_stage {closed : HalfId → Bool} {i : StreamId} {e : Entry} {h : HalfId}
    (closes : (e.stage closed i).Closes h) :
    (∃ side, h = ⟨i, side⟩ ∧ (e = .closes side ∨ e = .closesOpen side)) ∨
      h = ⟨i, .requests⟩ ∧ e = .closesAndReceives := by
  cases e with
  | closes side =>
      rcases closes with rfl | closes
      · exact .inl ⟨side, rfl, .inl rfl⟩
      · exact closes.elim
  | closesOpen side =>
      simp only [stage] at closes
      split at closes
      · exact closes.elim
      · rcases closes with rfl | closes
        · exact .inl ⟨side, rfl, .inr rfl⟩
        · exact closes.elim
  | closesAndReceives =>
      rcases closes with rfl | closes
      · exact .inr ⟨rfl, rfl⟩
      · exact closes.elim
  | sends =>
      simp only [stage] at closes
      split at closes <;> exact closes.elim
  | returns | throws | fulfils | rejects | receives => exact closes.elim

theorem Entry.Fits.closes {kind : StreamKind} {role : Role} {e : Entry} (fits : e.Fits kind role)
    {closed : HalfId → Bool} {i j : StreamId}
    (closes : (e.stage closed i).Closes ⟨j, .requests⟩) :
    j = i ∧ role = .client ∧ (e = .closesOpen .requests ∨ e = .closesAndReceives) := by
  rcases Entry.closes_stage closes with ⟨side, same, rfl | rfl⟩ | ⟨same, rfl⟩
  · cases same
    exact nomatch fits.1
  · cases same
    exact ⟨rfl, fits, .inl rfl⟩
  · cases same
    exact ⟨rfl, fits, .inr rfl⟩

/-- Why a stage leads to the closing of a half that the stage before did not lead to. -/
inductive Stage.Dooms (s' : Scene P) (h : HalfId) : Stage → Prop where
  | taken {f} : .handed h (.failure f) ∈ s'.events → Dooms s' h (.wanting h)
  | sent {m} : .handed h m ∈ s'.events → Dooms s' h (.offering h m true)
  | entered {i role m} : ((m.entry (s'.kindOf i) role).stage s'.closed i).Closes h →
    Dooms s' h (.entering i role m)

variable {s s' : Scene P} {h : HalfId} {st st' : Stage}

theorem Stage.InCall.entered {i j : StreamId} {role role' : Role} {m m' : Method}
    (inCall : (entering i role m).InCall s j role' m') : i = j ∧ role = role' ∧ m = m' := by
  rcases inCall with same | hasStage
  · cases same
    exact ⟨rfl, rfl, rfl⟩
  · generalize m'.entry (s.kindOf j) role' = e at hasStage
    cases hasStage with
    | receives receives | thenReceives _ receives => cases receives
    | sends sends => cases sends

theorem Stage.Rests.not_closes (rests : st.Rests) : ¬ st.Closes h := by
  cases rests <;> exact id

theorem Stage.Goes.dooms (goes : st.Goes s' st') (closes : st'.Closes h) :
    st.Closes h ∨ s'.closed h = true ∨ st.Dooms s' h := by
  cases goes with
  | stay => exact .inl closes
  | @note h' m =>
      rcases m with _ | v | f
      · exact closes.elim
      · exact closes.elim
      · exact .inl (closes.resolve_right id)
  | shut => exact .inl (.inr closes)
  | want | ended | undelivered | deliver => exact closes.elim
  | enter => exact .inr (.inr (.entered closes))
  | @release h' _ isClosed =>
      cases st with
      | wanting h'' =>
          simp only [Stage.release] at closes
          split at closes <;> exact closes.elim
      | offering h'' m terminal =>
          simp only [Stage.release] at closes
          split at closes
          next same =>
            cases terminal with
            | false => exact closes.elim
            | true => exact .inr (.inl (closes.resolve_right id ▸ isClosed))
          next => exact closes.elim
      | _ => exact .inl closes
  | @take h' m handed =>
      cases m with
      | payload => exact closes.elim
      | failure f =>
          obtain rfl : h' = h := closes
          exact .inr (.inr (.taken handed))
  | @taken h' m terminal handed =>
      cases terminal with
      | false => exact closes.elim
      | true =>
          obtain rfl : h' = h := closes.resolve_right id
          exact .inr (.inr (.sent handed))
  | gate settled =>
      cases st with
      | waiting => exact absurd closes (Stage.Rests.waiting.goes (.gate settled)).not_closes
      | _ => exact .inl closes

theorem Stage.closes_finishing {i : StreamId} {o : Outcome} (closes : (finishing i o).Closes h) :
    h.stream = i := by
  rcases closes with rfl | rfl | closes
  · rfl
  · rfl
  · exact closes.elim

theorem Stage.Receives.closes {h' : HalfId} (receives : st.Receives s h') (closes : st.Closes h) :
    h' = h ∧ ∃ f, .handed h' (.failure f) ∈ s.events := by
  cases receives with
  | @taken m handed =>
      cases m with
      | payload => exact closes.elim
      | failure f => exact ⟨closes, f, handed⟩
  | closing handed => exact ⟨closes.resolve_right id, _, handed⟩
  | asking | wanting | ended | eof | payload | failure => exact closes.elim

theorem Stage.InCall.closes {i : StreamId} {role m} (inCall : st.InCall s i role m)
    (closes : st.Closes h) : h.stream = i := by
  have receiving {side} (receives : st.Receives s ⟨i, side⟩) : h.stream = i := by
    obtain ⟨rfl, -⟩ := receives.closes closes
    rfl
  have closing {side o} (same : st = .closing ⟨i, side⟩ o) (next : ¬ o.Closes h) :
      h.stream = i := by
    subst same
    obtain rfl : _ = h := closes.resolve_right next
    rfl
  rcases inCall with rfl | hasStage
  · exact closes.elim
  · generalize m.entry (s.kindOf i) role = e at hasStage
    cases hasStage with
    | receives receives | thenReceives _ receives => exact receiving receives
    | sends sends =>
        cases sends with
        | closing => exact closing rfl id
        | offering | told => exact closes.elim
    | closing | closingOpen | closingFirst => exact closing rfl id
    | returns | throws | fulfils | rejects | closed | closedOpen | closedBefore =>
        exact closes.elim

/-- Who leads to the closing of a half: the service of its stream, a handler beside it, or who calls
a method of its client. -/
theorem Thread.Proper.closer {th : Thread P} (proper : th.Proper s) (closes : th.stage.Closes h) :
    h.stream < s.kinds.length ∧ (th.owner = .service h.stream ∨ th.Beside h.stream ∨
      ∃ n m, th.owner.name? = some (.inl n) ∧ Event.Uses s.events n h.stream ∧
        th.stage.InCall s h.stream .client m) := by
  cases proper with
  | starting | served | finished => exact closes.elim
  | handler lt handles =>
      rcases handles with rests | ⟨m, inCall⟩
      · exact absurd closes rests.not_closes
      · obtain rfl := inCall.closes closes
        exact ⟨lt, .inl rfl⟩
  | beside lt handles =>
      rcases handles with rests | ⟨m, inCall⟩
      · exact absurd closes rests.not_closes
      · obtain rfl := inCall.closes closes
        exact ⟨lt, .inr (.inl ⟨rfl, _, rfl⟩)⟩
  | delivering lt delivers =>
      cases delivers with
      | closing =>
          obtain rfl : _ = h := closes.resolve_right id
          exact ⟨lt, .inl rfl⟩
      | calling _ inCall =>
          obtain rfl := inCall.closes closes
          exact ⟨lt, .inl rfl⟩
      | delivering | undelivered => exact closes.elim
  | finishing lt finishes =>
      cases finishes with
      | requests =>
          obtain rfl := Stage.closes_finishing closes
          exact ⟨lt, .inl rfl⟩
      | responses =>
          obtain rfl : _ = h := closes.resolve_right id
          exact ⟨lt, .inl rfl⟩
      | finished => exact closes.elim
  | reader lt uses inCall =>
      obtain rfl := inCall.closes closes
      exact ⟨lt, .inr (.inr ⟨_, _, rfl, uses, inCall⟩)⟩
  | caller lt borrows owner inCall =>
      obtain rfl := inCall.closes closes
      refine ⟨lt, .inr (.inr ⟨_, _, ?_, .inr borrows, inCall⟩)⟩
      rcases owner with rfl | rfl <;> rfl
  | writer lt _ opened called waits =>
      obtain ⟨m, inCall⟩ := (waits.calls fun rests => rests.not_closes closes).inCall
      obtain rfl := inCall.closes closes
      exact ⟨lt, .inr (.inr ⟨_, m, rfl, .inl ⟨opened, called, rfl⟩, inCall⟩)⟩

theorem Thread.Proper.closes_lt {th : Thread P} (proper : th.Proper s)
    (closes : th.stage.Closes h) : h.stream < s.kinds.length :=
  (proper.closer closes).1

variable {i : StreamId} {th th' : Thread P}

theorem Thread.closes_served {o} (closes : (served (P := P) i [] (.service i) o).stage.Closes h) :
    h.stream = i := by
  cases o with
  | ok => exact Stage.closes_finishing closes
  | error v =>
      simp only [served] at closes
      split at closes
      · exact Stage.closes_finishing closes
      · split at closes
        · rcases closes with rfl | closes
          · rfl
          · exact closes.elim
        · exact Stage.closes_finishing closes

theorem Thread.Proper.closes_after (proper : th.Proper s) {ths es} (turns : th.Turns s ths es)
    (mem : th' ∈ ths) (closes : th'.stage.Closes h) :
    th'.owner = .service h.stream ∧ ¬ th'.Runs := by
  cases turns with
  | start =>
      obtain rfl := List.mem_singleton.mp mem
      exact closes.elim
  | @handle o i state =>
      generalize (P.step s.shared state o).2 = act at mem
      cases act with
      | wait =>
          obtain rfl := List.mem_singleton.mp mem
          exact absurd closes (Stage.rests_ofGates _ _).not_closes
      | fork =>
          simp only [Act.threads, List.mem_cons, List.not_mem_nil, or_false] at mem
          rcases mem with rfl | rfl <;> exact closes.elim
      | _ =>
          obtain rfl := List.mem_singleton.mp mem
          exact closes.elim
  | @read o i r =>
      obtain rfl := List.mem_singleton.mp mem
      generalize r.resume o = next at closes
      cases next <;> exact closes.elim
  | @write o i k v =>
      obtain rfl := List.mem_singleton.mp mem
      generalize v.resume o = turn at closes
      obtain ⟨remarks, state, next⟩ := turn
      cases next with
      | waits => exact absurd closes (Stage.rests_ofGates _ _).not_closes
      | rests | calls | done => exact closes.elim
  | serve =>
      cases proper with
      | served =>
          obtain rfl := List.mem_singleton.mp mem
          obtain rfl := closes_served closes
          exact ⟨served_owner _ _ _ _, served_not_runs⟩
  | delivered =>
      cases proper with
      | delivering =>
          obtain rfl := List.mem_singleton.mp mem
          obtain rfl := Stage.closes_finishing closes
          exact ⟨rfl, not_runs_of_nil⟩
  | follow => cases proper
  | settle => exact absurd mem List.not_mem_nil

namespace Scene

/-- Whatever is closed in a step was doomed before. -/
theorem Step.doomed (step : Step s s') (lt : h.stream < s.kinds.length)
    (closed : s'.closed h = true) : s.Doomed h := by
  refine ⟨lt, ?_⟩
  cases step with
  | @close h' next fs w rest threads =>
      by_cases same : h = h'
      · exact .inr ⟨⟨.closing h' next, fs, w⟩, threads ▸ Multiset.mem_cons_self _ _, .inl same.symm⟩
      · exact .inl ((Function.update_of_ne same ..).symm.trans closed)
  | opening => exact .inl ((if_neg (Nat.ne_of_lt lt)).symm.trans closed)
  | solo | start | handle | meet | gate | strike | count | notice | call => exact .inl closed

theorem Enters.not_closes {ths : List (Thread P)} (enters : Enters s s' ths) {th : Thread P}
    (mem : th ∈ ths) : ¬ th.stage.Closes h := by
  rcases enters.cases mem with ⟨label, rfl⟩ | ⟨c, rfl⟩ | ⟨invocation, rfl⟩
  · exact id
  · rcases s.firstThread_stage c with ⟨o, stage⟩ | ⟨i, m, stage⟩ <;> exact stage ▸ id
  · exact id

end Scene

end ObjectTransfer
