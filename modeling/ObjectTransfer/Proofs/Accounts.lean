import ObjectTransfer.Proofs.Conclusions
import ObjectTransfer.Proofs.Shifts

/-! # What becomes of a call when anything may be called

A call of a method of a stream has one thread until it settles, and none afterwards
(`Scene.Accounted`), and whatever else is called meanwhile, it keeps to the course of its method
(`Scene.Attends`).
-/

namespace ObjectTransfer

variable {P : Plugin}

theorem Owner.name_of_learns {w : Owner} {o : Outcome} {n : Nat} {so : Settlement}
    (learns : .settled n so ∈ w.events o) : w.name? = some (.inl n) := by
  cases w <;> simp_all [events, name?]

theorem Owner.learns {w : Owner} {n : Nat} (named : w.name? = some (.inl n)) (o : Outcome) :
    ∃ so, .settled n so ∈ w.events o := by
  cases w with
  | call | plain =>
      cases named
      exact ⟨_, List.mem_singleton_self _⟩
  | notice | service | nobody => cases named

theorem Owner.eq_of_name {w : Owner} {n : Nat} (named : w.name? = some (.inl n)) :
    w = .call n ∨ w = .plain n := by
  cases w <;> simp_all [name?]

namespace Scene

variable {s s' : Scene P}

/-! ## Shifts -/

theorem Aside.later (aside : s.Aside s') : Later s s' := by
  obtain ⟨es, events, -⟩ := aside.events
  rw [aside.rest]
  exact { Later.refl s with events := ⟨es, events.symm⟩ }

theorem Shift.later (shift : Shift s s') : Later s s' := by
  cases shift with
  | step step => exact step.later
  | aside aside => exact aside.later
  | call => exact { Later.refl s with events := List.suffix_cons _ _, calls := Nat.le_succ _ }
  | join => exact { Later.refl s with }

theorem Shifts.later (shifts : Shifts s s') : Later s s' := by
  induction shifts with
  | refl => exact .refl s
  | tail _ shift ih => exact ih.trans shift.later

theorem Begins.owner {c : Call} {ths : List (Thread P)} (begins : s.Begins c ths) {th : Thread P}
    (mem : th ∈ ths) : th.owner.name? = some (.inl s.calls) := by
  cases begins with
  | method =>
      obtain rfl := List.mem_singleton.mp mem
      simp only []
      split <;> rfl
  | emission => exact absurd mem List.not_mem_nil
  | close | whenClosed | identified | read | write | answered =>
      obtain rfl := List.mem_singleton.mp mem
      rfl

theorem emitted_of_joins {events : List Event} {th : Thread P} (joins : th.Joins events) {n : Nat}
    (named : th.owner.name? = some (.inl n)) : Event.Emitted events n := by
  rcases joins.owner with ⟨label, owner⟩ | ⟨n', emitted, owner | owner⟩ <;> rw [owner] at named <;>
    cases named
  · exact emitted
  · exact emitted

/-- In a step the names of threads stay, apart from a call or a service that begins, or an owner
learns an outcome. -/
theorem Step.names_cases (step : Step s s') :
    (∃ fresh, names s'.threads = fresh + names s.threads ∧
      (∀ n, .inl n ∈ fresh → n = s.calls ∧ s.calls < s'.calls) ∧
      ∀ n so, .settled n so ∈ s'.events → .settled n so ∈ s.events) ∨
    ∃ (th : Thread P) (o : Outcome), names s.threads = names {th} + names s'.threads ∧
      s'.events = th.owner.events o ++ s.events := by
  cases step.renames with
  | same es events unsettled _ _ same =>
      refine .inl
        ⟨0, same.trans (zero_add _).symm, fun n mem => absurd mem (Multiset.notMem_zero _), ?_⟩
      intro n so mem
      rw [events, List.mem_append] at mem
      exact mem.resolve_left (unsettled n so)
  | @settles th o threads events =>
      refine .inr ⟨th, o, ?_, events⟩
      rw [threads, names_cons]
  | @call c begun =>
      subst begun
      have names : names (s.begin c).threads = {.inl s.calls} + names s.threads := by
        change Scene.names (s.firstThread c ::ₘ s.threads) = _
        rw [names_cons, names_singleton, s.firstThread_owner c]
      refine .inl ⟨_, names, fun n mem => ?_, fun n so mem => ?_⟩
      · exact ⟨Sum.inl.inj (Multiset.mem_singleton.mp mem), Nat.lt_succ_self _⟩
      · exact (List.mem_cons.mp mem).resolve_left (by rintro ⟨⟩)
  | @opening c kind invocation opened =>
      subst opened
      have names : names (s.opened c kind invocation).threads =
          {.inr s.kinds.length, .inl s.calls} + names s.threads := by
        change Scene.names (s.firstService invocation ::ₘ s.firstThread c ::ₘ s.threads) = _
        rw [names_cons, names_cons _ s.threads, names_singleton, names_singleton,
          s.firstThread_owner c, ← add_assoc]
        rfl
      refine .inl ⟨_, names, fun n mem => ?_, fun n so mem => ?_⟩
      · have here : n = s.calls := by simpa using mem
        exact ⟨here, Nat.lt_succ_self _⟩
      · simpa [Scene.opened, Scene.openStream, Scene.begin] using mem

theorem Step.mem_names {n : Nat} (step : Step s s') (mem : .inl n ∈ names s'.threads) :
    .inl n ∈ names s.threads ∨ n = s.calls ∧ s.calls < s'.calls := by
  rcases step.names_cases with ⟨fresh, names, begun, -⟩ | ⟨th, o, names, -⟩
  · rw [names, Multiset.mem_add] at mem
    exact mem.symm.imp_right (begun n)
  · rw [names, Multiset.mem_add]
    exact .inl (.inr mem)

/-! ## Calls and their threads -/

def tally (s : Scene P) (n : Nat) : Nat := (names s.threads).count (.inl n)

/-- Whether a call has one thread and did not settle, or has none and settled. -/
def Accounted (s : Scene P) (n : Nat) : Prop :=
  (s.tally n = 1 ∧ ∀ so, .settled n so ∉ s.events) ∨ s.tally n = 0 ∧ ∃ so, .settled n so ∈ s.events

/-- Nothing happens to a call. -/
structure Passes (s s' : Scene P) (n : Nat) : Prop where
  later : Later s s'
  gates : s'.gates = s.gates
  threads : ∀ th ∈ s'.threads, th.owner.name? = some (.inl n) → th ∈ s.threads
  tally : s'.tally n = s.tally n
  settled : ∀ so, .settled n so ∈ s'.events → .settled n so ∈ s.events

theorem tally_add {s : Scene P} {n : Nat} {ths : List (Thread P)}
    (others : ∀ th ∈ ths, th.owner.name? ≠ some (.inl n))
    (threads : s'.threads = ↑ths + s.threads) : s'.tally n = s.tally n := by
  have none : (names (↑ths : Multiset (Thread P))).count (.inl n) = 0 := by
    refine Multiset.count_eq_zero.mpr fun mem => ?_
    obtain ⟨th, inside, named⟩ := mem_names.mp mem
    exact others th inside named
  rw [tally, threads, names_add, Multiset.count_add, none, Nat.zero_add, tally]

theorem Passes.of_add {n : Nat} {ths : List (Thread P)} (later : Later s s')
    (gates : s'.gates = s.gates) (others : ∀ th ∈ ths, th.owner.name? ≠ some (.inl n))
    (threads : s'.threads = ↑ths + s.threads)
    (settled : ∀ so, .settled n so ∈ s'.events → .settled n so ∈ s.events) : Passes s s' n where
  later := later
  gates := gates
  threads th mem named := by
    rw [threads, Multiset.mem_add] at mem
    exact mem.resolve_left fun new => others th new named
  tally := tally_add others threads
  settled := settled

/-- What is no step passes over the calls before, but for those of which a thread joins. -/
theorem Stir.passes {joining : Nat → Prop} (stir : Stir joining s s') {n : Nat} (lt : n < s.calls)
    (apart : ¬ joining n) : Step s s' ∨ Passes s s' n := by
  have later := stir.shift.later
  cases stir with
  | step step => exact .inl step
  | aside aside =>
      obtain ⟨es, events, heard⟩ := aside.events
      have others : ∀ th ∈ ([] : List (Thread P)), th.owner.name? ≠ some (.inl n) :=
        List.forall_mem_nil _
      refine .inr (.of_add later ?_ others ?_ fun so mem => ?_)
      · rw [aside.rest]
      · rw [aside.rest]
        exact (zero_add _).symm
      · rw [events, List.mem_append] at mem
        refine mem.resolve_left fun new => ?_
        obtain ⟨tag, v, same⟩ := heard _ new
        cases same
  | @call c ths begins =>
      refine .inr (.of_add later rfl (fun th mem named => ?_) rfl fun so mem => ?_)
      · rw [begins.owner mem] at named
        cases named
        exact absurd lt (Nat.lt_irrefl _)
      · exact (List.mem_cons.mp mem).resolve_left (by rintro ⟨⟩)
  | @join th joins =>
      have others : ∀ th' ∈ [th], th'.owner.name? ≠ some (.inl n) :=
        List.forall_mem_singleton.mpr fun named => apart (joins.only n (Owner.eq_of_name named))
      exact .inr (.of_add later rfl others rfl fun _ => id)

theorem Shift.stir (shift : Shift s s') {n : Nat} (apart : ¬ Event.Emitted s.events n) :
    Stir (· ≠ n) s s' := by
  cases shift with
  | step step => exact .step step
  | aside aside => exact .aside aside
  | call begins => exact .call begins
  | join joins =>
      refine .join ⟨joins, ?_⟩
      rintro m owner rfl
      exact apart
        (emitted_of_joins joins (by rcases owner with owner | owner <;> rw [owner] <;> rfl))

theorem Shift.passes (shift : Shift s s') {n : Nat} (lt : n < s.calls)
    (apart : ¬ Event.Emitted s.events n) : Step s s' ∨ Passes s s' n :=
  (shift.stir apart).passes lt (not_not_intro rfl)

theorem Accounted.passes {n : Nat} (accounted : s.Accounted n) (passes : Passes s s' n) :
    s'.Accounted n := by
  rw [Accounted, passes.tally]
  refine accounted.imp (And.imp_right fun unsettled so mem => ?_) (And.imp_right ?_)
  · exact unsettled so (passes.settled so mem)
  · exact Exists.imp fun so => passes.later.mem

theorem Accounted.step {n : Nat} (accounted : s.Accounted n) (lt : n < s.calls) (step : Step s s') :
    s'.Accounted n := by
  have later := step.later
  rcases step.names_cases with ⟨fresh, renamed, begun, settled⟩ | ⟨th, o, renamed, events⟩
  · have none :=
      Multiset.count_eq_zero.mpr fun mem => absurd lt (Nat.not_lt_of_le (begun n mem).1.ge)
    have tally : s'.tally n = s.tally n := by
      rw [Scene.tally, renamed, Multiset.count_add, none, Nat.zero_add, Scene.tally]
    rw [Accounted, tally]
    refine accounted.imp (And.imp_right fun unsettled so mem => ?_) (And.imp_right ?_)
    · exact unsettled so (settled n so mem)
    · exact Exists.imp fun so => later.mem
  · have tally : s.tally n = (names {th}).count (.inl n) + s'.tally n := by
      rw [Scene.tally, renamed, Multiset.count_add, Scene.tally]
    by_cases named : th.owner.name? = some (.inl n)
    · -- The call had this one thread.
      have one : (names {th}).count (.inl n) = 1 := by simp [names_singleton, named]
      rw [one] at tally
      have gone : s'.tally n = 0 := by
        rcases accounted with ⟨single, -⟩ | ⟨none, -⟩ <;> omega
      obtain ⟨so, learns⟩ := Owner.learns named o
      exact .inr ⟨gone, so, events ▸ List.mem_append_left _ learns⟩
    · have none : (names {th}).count (.inl n) = 0 := by
        refine Multiset.count_eq_zero.mpr fun mem => named ?_
        obtain ⟨other, same, named⟩ := mem_names.mp mem
        rwa [Multiset.mem_singleton.mp same] at named
      rw [none, Nat.zero_add] at tally
      rw [Accounted, ← tally]
      refine accounted.imp (And.imp_right fun unsettled so mem => ?_) (And.imp_right ?_)
      · rw [events, List.mem_append] at mem
        exact unsettled so (mem.resolve_left fun learns => named (Owner.name_of_learns learns))
      · exact Exists.imp fun so => later.mem

theorem Accounted.stir {n : Nat} (accounted : s.Accounted n) (lt : n < s.calls)
    (stir : Stir (· ≠ n) s s') : s'.Accounted n :=
  (stir.passes lt (not_not_intro rfl)).elim (accounted.step lt) accounted.passes

theorem Accounted.eq {n : Nat} (accounted : s.Accounted n) {th other : Thread P}
    (mem : th ∈ s.threads) (mem' : other ∈ s.threads) (named : th.owner.name? = some (.inl n))
    (named' : other.owner.name? = some (.inl n)) : th = other := by
  by_contra differ
  obtain ⟨rest, threads⟩ := Multiset.exists_cons_of_mem mem
  have inRest : .inl n ∈ names rest := by
    rw [threads, Multiset.mem_cons] at mem'
    exact mem_names.mpr ⟨other, mem'.resolve_left (Ne.symm differ), named'⟩
  have two : s.tally n = 1 + (names rest).count (.inl n) := by
    rw [tally, threads, names_cons, Multiset.count_add]
    simp [names_singleton, named]
  have more := Multiset.count_pos.mpr inRest
  rcases accounted with ⟨one, -⟩ | ⟨none, -⟩ <;> omega

theorem Accounted.unsettled {n : Nat} (accounted : s.Accounted n) {th : Thread P}
    (mem : th ∈ s.threads)
    (named : th.owner.name? = some (.inl n)) (so : Settlement) : .settled n so ∉ s.events := by
  rcases accounted with ⟨-, unsettled⟩ | ⟨none, -⟩
  · exact unsettled so
  · exact absurd (mem_names.mpr ⟨th, mem, named⟩) (Multiset.count_eq_zero.mp none)

theorem Accounted.thread {n : Nat} (accounted : s.Accounted n)
    (unsettled : ∀ so, .settled n so ∉ s.events) :
    ∃ th ∈ s.threads, th.owner.name? = some (.inl n) := by
  rcases accounted with ⟨one, -⟩ | ⟨-, so, settled⟩
  · rw [tally] at one
    exact mem_names.mp (Multiset.count_pos.mp (one ▸ Nat.one_pos))
  · exact absurd settled (unsettled so)

/-- When nothing can go on, a call that does not wait has settled. -/
theorem Accounted.settled_of_quiet {n : Nat} (accounted : s.Accounted n) (quiet : s.Quiet)
    (busy : ∀ th ∈ s.threads, th.owner.name? = some (.inl n) → ¬ th.stage.IsParked) :
    ∃ so, .settled n so ∈ s.events := by
  by_contra unsettled
  obtain ⟨th, mem, named⟩ := accounted.thread (not_exists.mp unsettled)
  exact busy th mem named (quiet.parked th mem)

/-! ## Numbers of calls -/

/-- Whether calls have different numbers, below that of the next one. -/
structure Numbered (s : Scene P) : Prop where
  below : ∀ {n c}, .called n c ∈ s.events → n < s.calls
  unique : ∀ {n c c'}, .called n c ∈ s.events → .called n c' ∈ s.events → c = c'
  named : ∀ {n}, .inl n ∈ names s.threads → n < s.calls
  settled : ∀ {n so}, .settled n so ∈ s.events → n < s.calls

theorem Numbered.apart (numbered : s.Numbered) {n : Nat} {i : StreamId} {c : StreamCall}
    (called : .called n (.stream i c) ∈ s.events) : ¬ Event.Emitted s.events n := by
  rintro ⟨event, c', emitted⟩
  cases numbered.unique called emitted

theorem Numbered.fresh (numbered : s.Numbered) :
    s.tally s.calls = 0 ∧ ∀ so, .settled s.calls so ∉ s.events :=
  ⟨Multiset.count_eq_zero.mpr fun mem => absurd (numbered.named mem) (Nat.lt_irrefl _),
    fun _ settled => absurd (numbered.settled settled) (Nat.lt_irrefl _)⟩

theorem Numbered.called (numbered : s.Numbered) {c : Call} (es : List Event)
    (events : s'.events = es ++ .called s.calls c :: s.events) (calls : s'.calls = s.calls + 1)
    (quiet : ∀ e ∈ es, (∀ n c, e ≠ .called n c) ∧ ∀ n so, e ≠ .settled n so)
    (named : ∀ n, .inl n ∈ names s'.threads → .inl n ∈ names s.threads ∨ n = s.calls) :
    s'.Numbered := by
  have old {n c'} (mem : .called n c' ∈ s'.events) :
      (n = s.calls ∧ c' = c) ∨ .called n c' ∈ s.events := by
    rw [events, List.mem_append, List.mem_cons] at mem
    rcases mem with new | same | old
    · exact absurd rfl ((quiet _ new).1 _ _)
    · cases same
      exact .inl ⟨rfl, rfl⟩
    · exact .inr old
  refine ⟨fun mem => ?_, fun mem mem' => ?_, fun mem => ?_, fun mem => ?_⟩
  · rw [calls]
    rcases old mem with ⟨rfl, -⟩ | old
    · exact Nat.lt_succ_self _
    · exact Nat.lt_succ_of_lt (numbered.below old)
  · rcases old mem with ⟨rfl, rfl⟩ | before <;> rcases old mem' with ⟨same, rfl⟩ | before'
    · rfl
    · exact absurd (numbered.below before') (Nat.lt_irrefl _)
    · exact absurd (numbered.below before) (same ▸ Nat.lt_irrefl _)
    · exact numbered.unique before before'
  · rw [calls]
    rcases named _ mem with old | rfl
    · exact Nat.lt_succ_of_lt (numbered.named old)
    · exact Nat.lt_succ_self _
  · rw [events, List.mem_append, List.mem_cons] at mem
    rw [calls]
    rcases mem with new | same | old
    · exact absurd rfl ((quiet _ new).2 _ _)
    · cases same
    · exact Nat.lt_succ_of_lt (numbered.settled old)

theorem Numbered.same (numbered : s.Numbered) (later : Later s s')
    (called : ∀ {n c}, .called n c ∈ s'.events → .called n c ∈ s.events)
    (named : ∀ n, .inl n ∈ names s'.threads → n < s.calls)
    (settled : ∀ {n so}, .settled n so ∈ s'.events → n < s.calls) : s'.Numbered where
  below mem := Nat.lt_of_lt_of_le (numbered.below (called mem)) later.calls
  unique mem mem' := numbered.unique (called mem) (called mem')
  named mem := Nat.lt_of_lt_of_le (named _ mem) later.calls
  settled mem := Nat.lt_of_lt_of_le (settled mem) later.calls

theorem Numbered.step (numbered : s.Numbered) (step : Step s s') : s'.Numbered := by
  rcases step.events_cases with ⟨es, events, quiet, -, calls, -⟩ | ⟨c, -, rfl⟩ | ⟨c, _, _, -, rfl⟩
  · refine numbered.same step.later (fun mem => ?_) (fun n mem => ?_) (fun mem => ?_)
    · rw [events, List.mem_append] at mem
      exact mem.resolve_left fun new => quiet _ new trivial
    · rcases step.mem_names mem with old | ⟨-, more⟩
      · exact numbered.named old
      · exact absurd more (calls ▸ Nat.lt_irrefl _)
    · rcases step.settled mem with old | ⟨o, w, thread, learns⟩
      · exact numbered.settled old
      · exact numbered.named (mem_names.mpr ⟨_, thread, Owner.name_of_learns learns⟩)
  · refine numbered.called [] rfl rfl nofun fun n mem => ?_
    exact (step.mem_names mem).imp_right And.left
  · refine numbered.called [_] rfl rfl ?_ fun n mem => ?_
    · exact List.forall_mem_singleton.mpr ⟨by simp, by simp⟩
    exact (step.mem_names mem).imp_right And.left

theorem Numbered.shift (numbered : s.Numbered) (shift : Shift s s') : s'.Numbered := by
  have later := shift.later
  cases shift with
  | step step => exact numbered.step step
  | aside aside =>
      obtain ⟨es, events, heard⟩ := aside.events
      have old {e : Event} (mem : e ∈ s'.events) (other : ∀ tag v, e ≠ .heard tag v) :
          e ∈ s.events := by
        rw [events, List.mem_append] at mem
        refine mem.resolve_left fun new => ?_
        obtain ⟨tag, v, same⟩ := heard e new
        exact other tag v same
      refine numbered.same later (fun mem => old mem (by simp)) (fun n mem => ?_)
        fun mem => numbered.settled (old mem (by simp))
      rw [aside.rest] at mem
      exact numbered.named mem
  | @call c ths begins =>
      refine numbered.called [] rfl rfl nofun fun n mem => ?_
      rw [names_add, Multiset.mem_add] at mem
      refine mem.symm.imp_right fun new => ?_
      obtain ⟨th, inside, named⟩ := mem_names.mp new
      exact Sum.inl.inj (Option.some.inj (named.symm.trans (begins.owner inside)))
  | @join th joins =>
      refine numbered.same later id (fun n mem => ?_) numbered.settled
      obtain ⟨th', inside, named⟩ := mem_names.mp mem
      rcases Multiset.mem_cons.mp inside with rfl | old
      · obtain ⟨event, c, called⟩ := emitted_of_joins joins named
        exact numbered.below called
      · exact numbered.named (mem_names.mpr ⟨th', old, named⟩)

/-! ## Stages and outcomes -/

namespace Passes

variable {n : Nat}

theorem under (passes : Passes s s' n) {i : StreamId} {e : Entry} (under : s.Under n i e)
    (known : i < s.kinds.length) : s'.Under n i e where
  threads th mem named := by
    obtain ⟨frames, hasStage⟩ := under.threads th (passes.threads th mem named) named
    exact ⟨frames, passes.later.hasStage known hasStage⟩
  settled so settled := by
    obtain ⟨o, hasStage, same⟩ := under.settled so (passes.settled so settled)
    exact ⟨o, passes.later.hasStage known hasStage, same⟩

theorem due (passes : Passes s s' n) {o : Outcome} (due : s.Due n o) : s'.Due n o where
  threads th mem named := due.threads th (passes.threads th mem named) named
  settled so settled := due.settled so (passes.settled so settled)

end Passes

theorem Due.stir {n : Nat} {o : Outcome} (due : s.Due n o) (lt : n < s.calls)
    (stir : Stir (· ≠ n) s s') : s'.Due n o :=
  (stir.passes lt (not_not_intro rfl)).elim (due.step lt) fun passes => passes.due due

theorem Due.of_accounted {n : Nat} {o : Outcome} (accounted : s.Accounted n) {th : Thread P}
    (mem : th ∈ s.threads) (owner : th.owner = .call n) (frames : th.frames = [])
    (outcome : th.stage.outcome? = some o) : s.Due n o where
  threads other mem' named := by
    have named' : th.owner.name? = some (.inl n) := owner ▸ rfl
    obtain rfl := accounted.eq mem' mem named named'
    exact ⟨owner, frames, outcome⟩
  settled so settled := absurd settled (accounted.unsettled mem (owner ▸ rfl) so)

/-- Whether the calls of the methods of a stream are accounted for, and in the course of their
methods. -/
structure Attends (kind : StreamKind) (i : StreamId) (s : Scene P) : Prop where
  numbered : s.Numbered
  known : s.kinds[i]? = some kind
  accounted : ∀ {n c}, .called n (.stream i c) ∈ s.events → s.Accounted n
  under : ∀ {n role m}, .called n (.stream i (.method role m)) ∈ s.events →
    s.Under n i (m.entry kind role)
  promised : ∀ {n role m}, .called n (.stream i (.method role m)) ∈ s.events →
    (m.entry kind role).isPlain = false →
      ∀ th ∈ s.threads, th.owner.name? = some (.inl n) → th.owner = .call n

theorem Shift.streamCall (shift : Shift s s') {n : Nat} {i : StreamId} {c : StreamCall}
    (mem : .called n (.stream i c) ∈ s'.events) :
    .called n (.stream i c) ∈ s.events ∨
      n = s.calls ∧ ∃ ths, s.Begins (.stream i c) ths ∧ s'.threads = ↑ths + s.threads ∧
        s'.events = .called s.calls (.stream i c) :: s.events ∧ s'.closed = s.closed := by
  cases shift with
  | step step =>
      refine .inl ?_
      rcases step.events_cases with ⟨es, events, quiet, -⟩ | ⟨c, -, rfl⟩ | ⟨c, _, _, -, rfl⟩
      · rw [events, List.mem_append] at mem
        exact mem.resolve_left fun new => quiet _ new trivial
      · exact (List.mem_cons.mp mem).resolve_left (by rintro ⟨⟩)
      · simpa [opened, openStream, begin] using mem
  | aside aside =>
      obtain ⟨es, events, heard⟩ := aside.events
      rw [events, List.mem_append] at mem
      refine .inl (mem.resolve_left fun new => ?_)
      obtain ⟨tag, v, same⟩ := heard _ new
      cases same
  | @call c' ths begins =>
      rcases List.mem_cons.mp mem with same | old
      · cases same
        exact .inr ⟨rfl, ths, begins, rfl, rfl, rfl⟩
      · exact .inl old
  | join => exact .inl mem

namespace Numbered

variable {i : StreamId} {ths : List (Thread P)}

theorem accounted (numbered : s.Numbered) {c : StreamCall} (begins : s.Begins (.stream i c) ths)
    (threads : s'.threads = ↑ths + s.threads)
    (events : s'.events = .called s.calls (.stream i c) :: s.events) : s'.Accounted s.calls := by
  obtain ⟨none, unsettled⟩ := numbered.fresh
  have one : (names (↑ths : Multiset (Thread P))).count (.inl s.calls) = 1 := by
    obtain ⟨th, rfl⟩ : ∃ th, ths = [th] := by cases begins <;> exact ⟨_, rfl⟩
    have named := begins.owner (List.mem_singleton_self th)
    simp [names_singleton, named]
  refine .inl ⟨?_, fun so mem => ?_⟩
  · rw [tally, threads, names_add, Multiset.count_add, one]
    exact congrArg (1 + ·) none
  · rw [events] at mem
    exact unsettled so ((List.mem_cons.mp mem).resolve_left (by rintro ⟨⟩))

/-- The threads of the next call are those with which it begins. -/
theorem begun (numbered : s.Numbered) (threads : s'.threads = ↑ths + s.threads) {th : Thread P}
    (mem : th ∈ s'.threads) (named : th.owner.name? = some (.inl s.calls)) : th ∈ ths := by
  rw [threads, Multiset.mem_add] at mem
  refine mem.resolve_right fun old => ?_
  exact absurd (numbered.named (mem_names.mpr ⟨th, old, named⟩)) (Nat.lt_irrefl _)

end Numbered

namespace Attends

variable {kind : StreamKind} {i : StreamId}

theorem lt (attends : s.Attends kind i) : i < s.kinds.length :=
  (List.getElem?_eq_some_iff.mp attends.known).1

theorem first (attends : s.Attends kind i) {role : Role} {m : Method} {ths : List (Thread P)}
    (begins : s.Begins (.stream i (.method role m)) ths) (threads : s'.threads = ↑ths + s.threads)
    {th : Thread P} (mem : th ∈ s'.threads) (named : th.owner.name? = some (.inl s.calls)) :
    th.frames = [] ∧ th.stage = (m.entry kind role).stage s.closed i ∧
      th.owner = if (m.entry kind role).isPlain then .plain s.calls else .call s.calls := by
  have inside := attends.numbered.begun threads mem named
  have kindOf : s.kindOf i = kind := by
    rw [kindOf, attends.known]
    rfl
  cases begins
  obtain rfl := List.mem_singleton.mp inside
  rw [kindOf]
  exact ⟨rfl, rfl, rfl⟩

theorem shift (attends : s.Attends kind i) (shift : Shift s s') : s'.Attends kind i where
  numbered := attends.numbered.shift shift
  known := by
    obtain ⟨more, kinds⟩ := shift.later.kinds
    rw [← kinds, List.getElem?_append_left attends.lt]
    exact attends.known
  accounted mem := by
    rcases shift.streamCall mem with old | ⟨rfl, ths, begins, threads, events, -⟩
    · exact (attends.accounted old).stir (attends.numbered.below old)
        (shift.stir (attends.numbered.apart old))
    · exact attends.numbered.accounted begins threads events
  under {n role m} mem := by
    rcases shift.streamCall mem with old | ⟨rfl, ths, begins, threads, events, closed⟩
    · have lt := attends.numbered.below old
      rcases shift.passes lt (attends.numbered.apart old) with step | passes
      · exact (attends.under old).step lt attends.lt step
      · exact passes.under (attends.under old) attends.lt
    · refine ⟨fun th mem named => ?_, fun so settled => ?_⟩
      · obtain ⟨frames, stage, -⟩ := attends.first begins threads mem named
        exact ⟨frames, stage ▸ closed ▸ Entry.hasStage_start _⟩
      · rw [events] at settled
        exact absurd ((List.mem_cons.mp settled).resolve_left (by rintro ⟨⟩))
          (attends.numbered.fresh.2 so)
  promised {n role m} mem promise th inside named := by
    rcases shift.streamCall mem with old | ⟨rfl, ths, begins, threads, -⟩
    · have lt := attends.numbered.below old
      rcases shift.passes lt (attends.numbered.apart old) with step | passes
      · obtain ⟨th, before, named', ⟨stage, rfl, -⟩ | ⟨ths, es, turns, after⟩⟩ :=
          step.named lt inside named
        · exact attends.promised old promise th before named'
        · have owner := attends.promised old promise th before named'
          rcases turns.owner after with same | nobody
          · exact same.trans owner
          · rw [nobody] at named
            cases named
      · exact attends.promised old promise th (passes.threads th inside named) named
    · obtain ⟨-, -, owner⟩ := attends.first begins threads inside named
      rw [owner, promise]
      rfl

end Attends

end Scene

namespace Exchange

variable {x y : Exchange P} {kinds : List StreamKind}

theorem numbered_ofStreams (kinds : List StreamKind) (ts) :
    ((ofStreams P kinds).scene ts).Numbered := by
  obtain ⟨threads, -, journal, -⟩ := fresh_ofStreams P kinds
  have nothing (e : Event) : e ∉ ((ofStreams P kinds).scene ts).events := by
    simp [scene, journal]
  have nobody (name) : name ∉ Scene.names ((ofStreams P kinds).scene ts).threads := by
    change name ∉ Scene.names (ofStreams P kinds).threads
    rw [threads]
    exact Multiset.notMem_zero _
  exact ⟨fun mem => absurd mem (nothing _), fun mem => absurd mem (nothing _),
    fun mem => absurd mem (nobody _), fun mem => absurd mem (nothing _)⟩

/-- However the streams are used, the calls are numbered. -/
theorem Run.numbered (run : Run (fun _ => True) (ofStreams P kinds) x) :
    ∃ turns, (x.scene turns).Numbered := by
  obtain ⟨turns, shifts⟩ := Run.shifts .refl run []
  refine ⟨turns, ?_⟩
  generalize x.scene turns = s at shifts
  induction shifts with
  | refl => exact numbered_ofStreams kinds []
  | tail _ shift ih => exact ih.shift shift

theorem attends_ofStreams {i : StreamId} {kind : StreamKind} (known : kinds[i]? = some kind) (ts) :
    ((ofStreams P kinds).scene ts).Attends kind i := by
  obtain ⟨-, -, journal, opened⟩ := fresh_ofStreams P kinds
  have nothing (e : Event) : e ∉ ((ofStreams P kinds).scene ts).events := by
    simp [scene, journal]
  refine ⟨numbered_ofStreams kinds ts, ?_, fun mem => absurd mem (nothing _),
    fun mem => absurd mem (nothing _), fun mem => absurd mem (nothing _)⟩
  change ((ofStreams P kinds).streams.map (·.kind))[i]? = some kind
  rw [opened]
  exact known

/-- Whether a call settles with nothing but this, and has settled when nothing can go on. -/
def Leads (x : Exchange P) (n : Nat) (so : Settlement) : Prop :=
  (∀ so', .settled n so' ∈ x.journal → so' = so) ∧ (x.isQuiet = true → .settled n so ∈ x.journal)

theorem leads {n : Nat} {so : Settlement} {ts} (accounted : (x.scene ts).Accounted n)
    (busy : ∀ th ∈ (x.scene ts).threads, th.owner.name? = some (.inl n) → ¬ th.stage.IsParked)
    (settled : ∀ so', .settled n so' ∈ (x.scene ts).events → so' = so) : x.Leads n so := by
  refine ⟨fun so' mem => settled so' ((mem_events rfl ts).mpr mem), fun quiet => ?_⟩
  obtain ⟨so', mem⟩ := accounted.settled_of_quiet (quiet_scene quiet ts) busy
  exact (mem_events rfl ts).mp (settled so' mem ▸ mem)

theorem leads_of_due {n : Nat} {o : Outcome} {ts} (accounted : (x.scene ts).Accounted n)
    (due : (x.scene ts).Due n o) : x.Leads n (.ofPromise o) := by
  refine leads accounted (fun th mem named parked => ?_) due.settled
  obtain ⟨-, -, outcome⟩ := due.threads th mem named
  cases stage : th.stage <;> rw [stage] at parked outcome <;>
    first | exact parked.elim | cases outcome

/-- However the streams are used, the calls of their methods are in the course of their methods. -/
theorem Run.attends (run : Run (fun _ => True) (ofStreams P kinds) x) {i : StreamId}
    {kind : StreamKind}
    (known : kinds[i]? = some kind) : ∃ turns, (x.scene turns).Attends kind i := by
  obtain ⟨turns, shifts⟩ := Run.shifts .refl run []
  refine ⟨turns, ?_⟩
  generalize x.scene turns = s at shifts
  induction shifts with
  | refl => exact attends_ofStreams known []
  | tail _ shift ih => exact ih.shift shift

end Exchange

end ObjectTransfer
