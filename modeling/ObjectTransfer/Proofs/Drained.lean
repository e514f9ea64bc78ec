import ObjectTransfer.Proofs.Quiet

/-! # Receives on a download that is closed

A receive that is called on a download after the stream was closed comes to the end marker, whatever
happened on the stream before and whoever else uses its client (`Exchange.drained`).
-/

namespace ObjectTransfer

variable {P : Plugin}

/-- The stages of a receive on a download that was closed before. -/
inductive Stage.Drains (i : StreamId) (m : Method) : Stage → Prop where
  | entering : Drains i m (.entering i .client m)
  | asking : Drains i m (.asking ⟨i, .responses⟩)
  | ended : Drains i m (.received ⟨i, .responses⟩ none)
  | eof : Drains i m (.bound (.ok .eof))

/-- Whether a call is a receive that comes to the end marker of a download. -/
structure Scene.Drained (s : Scene P) (n : Nat) (i : StreamId) (m : Method) : Prop where
  threads : ∀ th ∈ s.threads, th.owner.name? = some (.inl n) →
    ∃ st, th = ⟨st, [], .call n⟩ ∧ st.Drains i m
  settled : ∀ so, .settled n so ∈ s.events → so = .fulfilled .eof

namespace Scene

variable {s s' : Scene P} {i : StreamId} {n : Nat} {m : Method}

theorem Drained.step (drained : s.Drained n i m) (lt : n < s.calls) (below : i < s.kinds.length)
    (closed : s.closed ⟨i, .responses⟩ = true)
    (receives : m.entry (s.kindOf i) .client = .receives .responses) (step : Step s s') :
    s'.Drained n i m where
  threads th' mem named := by
    obtain ⟨th, old, named', ⟨st', rfl, goes, waits⟩ | ⟨ths, es, turns, inside⟩⟩ :=
      step.waits lt mem named
    · obtain ⟨st, rfl, drains⟩ := drained.threads th old named'
      refine ⟨st', rfl, ?_⟩
      cases drains with
      | entering =>
          cases goes with
          | enter =>
              rw [step.later.kindOf below, receives]
              exact .asking
          | stay | release | gate => exact .entering
      | asking =>
          cases goes with
          | want =>
              rw [waits rfl rfl] at closed
              cases closed
          | ended => exact .ended
          | stay | release | gate => exact .asking
      | ended =>
          cases goes with
          | note => exact .eof
          | stay | release | gate => exact .ended
      | eof => exact Stage.bound_goes goes ▸ .eof
    · obtain ⟨st, rfl, drains⟩ := drained.threads th old named'
      cases turns
      exact absurd inside List.not_mem_nil
  settled so settled := by
    rcases step.settled settled with old | ⟨o, w, mem, learns⟩
    · exact drained.settled so old
    · have named : w.name? = some (.inl n) := by
        cases w <;> simp_all [Owner.events, Owner.name?]
      obtain ⟨st, same, drains⟩ := drained.threads _ mem named
      cases same
      cases drains
      simpa [Owner.events, Settlement.ofPromise] using learns

theorem Drained.begin (reachable : s.Reachable) {name : String} (kept : s.keptClient? name = some i)
    (receives : m.entry (s.kindOf i) .client = .receives .responses) :
    (s.begin (.method name m)).Drained s.calls i m where
  threads th mem named := by
    rcases Multiset.mem_cons.mp mem with rfl | old
    · refine ⟨.entering i .client m, ?_, .entering⟩
      simp only [firstThread, kept, receives, Entry.isPlain]
      rfl
    · exact absurd (reachable.owned.calls (mem_names.mpr ⟨th, old, named⟩)) (Nat.lt_irrefl _)
  settled so settled := by
    have old : .settled s.calls so ∈ s.events := by simpa [Scene.begin] using settled
    exact absurd (reachable.owned.settled old).2 (Nat.lt_irrefl _)

/-- Every receive is drained that is called after the stream was closed. -/
theorem Steps.drained (steps : Steps s s') (reachable : s.Reachable) (below : i < s.kinds.length)
    (closed : s.closed ⟨i, .responses⟩ = true)
    (receives : m.entry (s.kindOf i) .client = .receives .responses) (new : s.calls ≤ n)
    {name : String} (called : .called n (.plugin (.method name m)) ∈ s'.events)
    (uses : Event.Uses s'.events n i) : s'.Drained n i m := by
  induction steps with
  | refl => exact absurd (reachable.orderly.called called) (Nat.not_lt.mpr new)
  | @tail t t' steps step ih =>
      have reached : t.Reachable := reachable.trans steps
      have later := Steps.later steps
      have orderly := reached.orderly.step step
      have receives' : m.entry (t.kindOf i) .client = .receives .responses :=
        later.kindOf below ▸ receives
      rcases step.usedBefore reached.orderly uses with
        old | ⟨rfl, ⟨c, name', names, kept, rfl⟩ | ⟨-, c, kind, invocation, opens, -, rfl⟩⟩
      · obtain ⟨c, calledBefore⟩ := old.called
        cases orderly.calledOnce called (step.later.mem calledBefore)
        exact (ih calledBefore old).step (reached.orderly.called calledBefore) (later.lt below)
          (later.closed _ below closed) receives' step
      · cases orderly.calledOnce called List.mem_cons_self
        cases names
        exact .begin reached kept receives'
      · cases orderly.calledOnce called (List.mem_cons_of_mem _ List.mem_cons_self)
        exact nomatch opens

end Scene

namespace Exchange

/-- What is received on a download after the stream was closed is the end marker. -/
theorem drained {x y : Exchange P} {before after : List (HandlerTurn P)} {i : StreamId} {n : Nat}
    (first : History Command.Hosted (.empty P) x before) (second : History Command.Hosted x y after)
    (below : i < (x.scene before).kinds.length) (kind : (x.scene before).kindOf i = .download)
    (closed : (x.half ⟨i, .responses⟩).closed = true) (new : x.calls ≤ n) {name : String}
    {m : Method} (receives : m.entry .download .client = .receives .responses)
    (called : .called n (.plugin (.method name m)) ∈ y.journal)
    (uses : Event.Uses (y.scene (after ++ before)).events n i) :
    (∀ so, .settled n so ∈ y.journal → so = .fulfilled .eof) ∧
      (y.isQuiet = true → .settled n (.fulfilled .eof) ∈ y.journal) := by
  have called := (mem_events rfl (after ++ before)).mpr called
  have steps := second.steps (first.run.calm calm_empty) before
  have drained := steps.drained first.reachable below closed (kind ▸ receives) new called uses
  have reachable := (first.trans second).reachable
  constructor
  · intro so settled
    exact drained.settled so ((mem_events rfl _).mpr settled)
  · intro quiet
    rcases reachable.owned.kept (reachable.orderly.called called) with named | ⟨so, settled⟩
    · obtain ⟨th, mem, named⟩ := Scene.mem_names.mp named
      have parked := (quiet_scene quiet (after ++ before)).parked th mem
      obtain ⟨st, rfl, drains⟩ := drained.threads th mem named
      cases drains <;> exact parked.elim
    · rw [drained.settled so settled] at settled
      exact (mem_events rfl _).mp settled

end Exchange

end ObjectTransfer
