import ObjectTransfer.Proofs.Accounts

/-! # A call that waits for gates

While none of the gates failed that the task of a call waits for, its stage tells which of them are
settled (`Scene.WaitsForGates`). With the first failure the call is due to fail, whatever happens to
the other gates (`Scene.WaitsOrFails`). Before its task joins, the call has no thread and did not
settle (`Scene.Vacant`).
-/

namespace ObjectTransfer

variable {P : Plugin}

namespace Stage

variable {gates : String → Option Outcome} {names : List String} {name : String}

def Fine (gates : String → Option Outcome) (names : List String) : Prop :=
  ∀ name ∈ names, ∀ v, gates name ≠ some (.error v)

theorem gateFailure?_eq_some {o : Option Outcome} {v : Value} : gateFailure? o = some v ↔
    o = some (.error v) := by
  rcases o with _ | _ | _ <;> simp [gateFailure?]

theorem Fine.findSome? (fine : Fine gates names) :
    (names.findSome? fun name => gateFailure? (gates name)) = none :=
  List.findSome?_eq_none_iff.mpr fun name mem =>
    Option.eq_none_iff_forall_ne_some.mpr fun v failed =>
      fine name mem v (gateFailure?_eq_some.mp failed)

/-- With none of the gates failed, a task waits for those that are not settled. -/
theorem ofGates_of_fine (fine : Fine gates names) :
    ofGates gates names =
      if (names.filter fun name => (gates name).isNone).isEmpty then .bound (.ok .undefined)
      else .waiting (names.filter fun name => (gates name).isNone) := by
  simp only [ofGates, fine.findSome?]

theorem ofGates_of_not_fine (failed : ¬ Fine gates names) :
    ∃ name ∈ names, ∃ v, gates name = some (.error v) ∧ ofGates gates names =
      .bound (.error v) := by
  cases found : names.findSome? fun name => gateFailure? (gates name) with
  | none =>
      refine absurd (fun name mem v failure => ?_) failed
      exact nomatch (gateFailure?_eq_some.mpr failure).symm.trans
        (List.findSome?_eq_none_iff.mp found name mem)
  | some v =>
      obtain ⟨name, mem, failure⟩ := List.exists_of_findSome?_eq_some found
      exact ⟨name, mem, v, gateFailure?_eq_some.mp failure, by simp only [ofGates, found]⟩

theorem fine_update {o : Outcome} (fine : Fine gates names)
    (ok : name ∈ names → ∀ v, o ≠ .error v) : Fine (Function.update gates name (some o)) names := by
  intro name' mem v failed
  by_cases same : name' = name
  · subst same
    rw [Function.update_self] at failed
    exact ok mem v (Option.some.inj failed)
  · rw [Function.update_of_ne same] at failed
    exact fine name' mem v failed

/-- What the settlement of a gate means for a task that waits is what the gates tell then. -/
theorem afterGate_ofGates (fine : Fine gates names) (fresh : gates name = none) (o : Outcome) :
    (ofGates gates names).afterGate name o =
      ofGates (Function.update gates name (some o)) names := by
  have missing : (names.filter fun name' => (Function.update gates name (some o) name').isNone) =
      (names.filter fun name' => (gates name').isNone).filter (· != name) := by
    rw [List.filter_filter]
    refine List.filter_congr fun name' _ => ?_
    by_cases same : name' = name
    · simp [same]
    · simp [same]
  by_cases mem : name ∈ names
  · have waits : name ∈ names.filter fun name => (gates name).isNone :=
      List.mem_filter.mpr ⟨mem, by rw [fresh]; rfl⟩
    have some : (names.filter fun name => (gates name).isNone).isEmpty = false :=
      List.isEmpty_eq_false_iff.mpr (List.ne_nil_of_mem waits)
    have here : (names.filter fun name => (gates name).isNone).contains name = true :=
      List.contains_iff_mem.mpr waits
    rw [ofGates_of_fine fine, some, if_neg Bool.false_ne_true]
    simp only [afterGate, here, if_true]
    cases o with
    | error v =>
        have failed : ¬ Fine (Function.update gates name (.some (.error v))) names := fun fine' =>
          fine' name mem v (Function.update_self ..)
        obtain ⟨name', mem', v', failure, stage⟩ := ofGates_of_not_fine failed
        by_cases same : name' = name
        · rw [same, Function.update_self] at failure
          cases failure
          exact stage.symm
        · rw [Function.update_of_ne same] at failure
          exact absurd failure (fine name' mem' v')
    | ok v =>
        have fine' : Fine (Function.update gates name (.some (.ok v))) names :=
          fine_update fine fun _ _ failed => by cases failed
        rw [ofGates_of_fine fine', missing]
  · have others : (names.filter fun name' => (Function.update gates name (some o) name').isNone) =
        names.filter fun name => (gates name).isNone := by
      refine missing.trans (List.filter_eq_self.mpr fun name' inside => bne_iff_ne.mpr ?_)
      rintro rfl
      exact mem (List.mem_filter.mp inside).1
    have none : (names.filter fun name => (gates name).isNone).contains name = false := by
      rw [← Bool.not_eq_true, List.contains_iff_mem]
      exact fun inside => mem (List.mem_filter.mp inside).1
    rw [ofGates_of_fine fine,
      ofGates_of_fine (fine_update fine fun inside => absurd inside mem), others]
    split
    · rfl
    · simp only [afterGate, none, Bool.false_eq_true, if_false]

theorem ofGates_goes {s : Scene P} {st : Stage} (goes : (ofGates s.gates names).Goes s st) :
    st = ofGates s.gates names := by
  have unsettled : (ofGates s.gates names).Unsettled s.gates := unsettled_ofGates names
  cases stage : ofGates s.gates names with
  | bound o =>
      rw [stage] at goes
      exact bound_goes goes
  | waiting missing =>
      rw [stage] at goes unsettled
      cases goes with
      | stay | release => rfl
      | @gate name o _ settled =>
          have other : missing.contains name = false := by
            rw [← Bool.not_eq_true, List.contains_iff_mem]
            exact fun mem => nomatch (unsettled name mem).symm.trans settled
          simp only [afterGate, other, Bool.false_eq_true, if_false]
  | _ =>
      have rests := rests_ofGates s.gates names
      rw [stage] at rests
      cases rests

end Stage

namespace Scene

variable {s s' : Scene P} {n : Nat} {names : List String}

/-- Whether the thread of a call waits for these gates, and the call settled if it waits no longer.
-/
structure WaitsForGates (s : Scene P) (n : Nat) (names : List String) : Prop where
  threads : ∀ th ∈ s.threads, th.owner.name? = some (.inl n) →
    th = ⟨.ofGates s.gates names, [], .call n⟩
  settled : ∀ so, .settled n so ∈ s.events → ∃ o, Stage.ofGates s.gates names = .bound o ∧
    so = .ofPromise o

/-- Whether a call waits for these gates, none of which failed, or fails as one of them did. -/
inductive WaitsOrFails (s : Scene P) (n : Nat) (names : List String) : Prop where
  | waits : Stage.Fine s.gates names → s.WaitsForGates n names → WaitsOrFails s n names
  | fails {name : String} {v : Value} : name ∈ names → s.gates name = some (.error v) →
    s.Due n (.error v) → WaitsOrFails s n names

/-- A step settles no gate, or one and nothing else happens. -/
theorem Step.gates_cases (step : Step s s') : s'.gates = s.gates ∨ ∃ name o, s.gates name = none ∧
    s' = { s with
      gates := Function.update s.gates name (some o)
      threads := s.threads.map (·.move (.afterGate name o)) } := by
  cases step with
  | gate fresh => exact .inr ⟨_, _, fresh, rfl⟩
  | _ => exact .inl rfl

theorem WaitsForGates.due (waiting : s.WaitsForGates n names) {o : Outcome}
    (stage : Stage.ofGates s.gates names = .bound o) : s.Due n o where
  threads th mem named := by
    obtain rfl := waiting.threads th mem named
    exact ⟨rfl, rfl, congrArg Stage.outcome? stage⟩
  settled so settled := by
    obtain ⟨o', stage', same⟩ := waiting.settled so settled
    rw [stage] at stage'
    cases stage'
    exact same

theorem WaitsForGates.waitsOrFails (waiting : s.WaitsForGates n names) :
    s.WaitsOrFails n names := by
  by_cases fine : Stage.Fine s.gates names
  · exact .waits fine waiting
  · obtain ⟨name, mem, v, failed, stage⟩ := Stage.ofGates_of_not_fine fine
    exact .fails mem failed (waiting.due stage)

theorem WaitsForGates.passes (waiting : s.WaitsForGates n names) (passes : Passes s s' n) :
    s'.WaitsForGates n names where
  threads th mem named := by
    rw [passes.gates]
    exact waiting.threads th (passes.threads th mem named) named
  settled so settled := by
    rw [passes.gates]
    exact waiting.settled so (passes.settled so settled)

theorem WaitsForGates.step (waiting : s.WaitsForGates n names) (fine : Stage.Fine s.gates names)
    (lt : n < s.calls)
    (step : Step s s') : s'.WaitsForGates n names := by
  rcases step.gates_cases with same | ⟨name, o, fresh, rfl⟩
  · constructor
    · intro th' mem named
      obtain ⟨th, old, named', ⟨stage, rfl, goes⟩ | ⟨ths, es, turns, mem⟩⟩ :=
        step.named lt mem named
      · obtain rfl := waiting.threads th old named'
        rw [← same] at goes
        rw [Stage.ofGates_goes goes]
      · obtain rfl := waiting.threads th old named'
        generalize Stage.ofGates s.gates names = stage at turns
        cases turns with
        | settle => exact absurd mem List.not_mem_nil
    · intro so settled
      rw [same]
      rcases step.settled settled with old | ⟨o, w, mem, learns⟩
      · exact waiting.settled so old
      · have thread := waiting.threads _ mem (Owner.name_of_learns learns)
        obtain ⟨stage, -, rfl⟩ := Thread.mk.inj thread
        exact ⟨o, stage.symm, by simpa [Owner.events] using learns⟩
  · have after := Stage.afterGate_ofGates fine fresh o
    constructor
    · intro th' mem named
      obtain ⟨th, old, rfl⟩ := Multiset.mem_map.mp mem
      obtain rfl := waiting.threads th old named
      exact congrArg (fun stage => (⟨stage, [], .call n⟩ : Thread P)) after
    · intro so settled
      obtain ⟨o', stage, same⟩ := waiting.settled so settled
      rw [stage] at after
      exact ⟨o', after.symm, same⟩

theorem Stirs.keeps {I : Scene P → Prop} (stirs : Stirs (· ≠ n) s s') (lt : n < s.calls)
    (holds : I s)
    (kept : ∀ {u v : Scene P}, I u → n < u.calls → Stir (· ≠ n) u v → I v) : I s' := by
  have both : n < s'.calls ∧ I s' := by
    induction stirs with
    | refl => exact ⟨lt, holds⟩
    | tail _ stir ih => exact ⟨Nat.lt_of_lt_of_le ih.1 stir.shift.later.calls, kept ih.2 ih.1 stir⟩
  exact both.2

theorem WaitsOrFails.stir (waits : s.WaitsOrFails n names) (lt : n < s.calls)
    (stir : Stir (· ≠ n) s s') : s'.WaitsOrFails n names := by
  have later := stir.shift.later
  rcases stir.passes lt (not_not_intro rfl) with step | passes
  · cases waits with
    | waits fine waiting => exact (waiting.step fine lt step).waitsOrFails
    | fails mem failed due => exact .fails mem (later.gates _ _ failed) (due.step lt step)
  · cases waits with
    | waits fine waiting => exact (waiting.passes passes).waitsOrFails
    | fails mem failed due => exact .fails mem (later.gates _ _ failed) (passes.due due)

/-! ## Before a thread joins -/

structure Vacant (s : Scene P) (n : Nat) : Prop where
  tally : s.tally n = 0
  unsettled : ∀ so, .settled n so ∉ s.events

theorem Stir.silent (stir : Stir (· ≠ n) s s') (lt : n < s.calls) (tally : s.tally n = 0) :
    s'.tally n = 0 ∧ ∀ so, .settled n so ∈ s'.events → .settled n so ∈ s.events := by
  rcases stir.passes lt (not_not_intro rfl) with step | passes
  · rcases step.names_cases with ⟨fresh, renamed, begun, settled⟩ | ⟨th, o, renamed, events⟩
    · have none :=
        Multiset.count_eq_zero.mpr fun mem => absurd lt (Nat.not_lt_of_le (begun n mem).1.ge)
      refine ⟨?_, settled n⟩
      rw [Scene.tally, renamed, Multiset.count_add, none, Nat.zero_add]
      exact tally
    · have parts : s.tally n = (names {th}).count (.inl n) + s'.tally n := by
        rw [Scene.tally, renamed, Multiset.count_add, Scene.tally]
      rw [tally] at parts
      refine ⟨by omega, fun so mem => ?_⟩
      rw [events, List.mem_append] at mem
      refine mem.resolve_left fun learns => ?_
      have one : .inl n ∈ names ({th} : Multiset (Thread P)) :=
        mem_names.mpr ⟨th, Multiset.mem_singleton_self th, Owner.name_of_learns learns⟩
      have pos := Multiset.count_pos.mpr one
      omega
  · exact ⟨passes.tally.trans tally, passes.settled⟩

theorem Vacant.stir (vacant : s.Vacant n) (lt : n < s.calls) (stir : Stir (· ≠ n) s s') :
    s'.Vacant n := by
  obtain ⟨tally, settled⟩ := stir.silent lt vacant.tally
  exact ⟨tally, fun so mem => vacant.unsettled so (settled so mem)⟩

theorem Vacant.stirs (vacant : s.Vacant n) (lt : n < s.calls) (stirs : Stirs (· ≠ n) s s') :
    s'.Vacant n :=
  stirs.keeps lt vacant Vacant.stir

theorem Vacant.join (vacant : s.Vacant n) (stage : Stage) (frames : List (Frame P)) :
    (s.add [⟨stage, frames, .call n⟩]).Accounted n ∧
      ∀ th ∈ (s.add [⟨stage, frames, .call n⟩]).threads, th.owner.name? = some (.inl n) →
        th = ⟨stage, frames, .call n⟩ := by
  have threads : (s.add [⟨stage, frames, .call n⟩]).threads =
      ⟨stage, frames, .call n⟩ ::ₘ s.threads := rfl
  constructor
  · refine .inl ⟨?_, vacant.unsettled⟩
    rw [Scene.tally, threads, names_cons, Multiset.count_add, names_singleton]
    have none := vacant.tally
    rw [Scene.tally] at none
    simp [Owner.name?, none]
  · intro th mem named
    rw [threads, Multiset.mem_cons] at mem
    refine mem.resolve_right fun old => ?_
    exact absurd (mem_names.mpr ⟨th, old, named⟩) (Multiset.count_eq_zero.mp vacant.tally)

theorem Vacant.due (vacant : s.Vacant n) (o : Outcome) :
    (s.add [⟨.bound o, [], .call n⟩]).Due n o :=
  .of_accounted (vacant.join (.bound o) []).1 (Multiset.mem_cons_self _ _) rfl rfl rfl

theorem Vacant.waitsForGates (vacant : s.Vacant n) (names : List String) :
    (s.add [⟨.ofGates s.gates names, [], .call n⟩]).WaitsForGates n names where
  threads := (vacant.join (.ofGates s.gates names) []).2
  settled so mem := absurd mem (vacant.unsettled so)

end Scene

end ObjectTransfer
