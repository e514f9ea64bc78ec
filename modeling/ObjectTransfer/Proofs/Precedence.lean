import ObjectTransfer.Proofs.Aborts
import ObjectTransfer.Proofs.Wakings

/-! # First come, first served

When tasks go on in the order in which they became ready (`Exchange.FirstCome`), who was given a
message takes note of it before anybody goes on who became ready later (`Exchange.Precedes`). So a
receive that takes the failure of a writer is rejected with it before the writer fails.
-/

namespace ObjectTransfer

variable {P : Plugin}

def Wake.Returns (owner : Owner) : Wake P → Prop
  | returned _ t => t.owner = owner
  | _ => False

namespace Exchange

/-- One move in which the task that waits longest goes on, or something happens outside. -/
inductive Serves (x y : Exchange P) : Prop where
  | advance : x.advance? = some y → Serves x y
  | command {c} : x.agenda = [] → y = x.command c → Serves x y

/-- The states that an exchange can reach while tasks go on in the order in which they became ready.
-/
abbrev FirstCome : Exchange P → Exchange P → Prop := Relation.ReflTransGen Serves

/-- Whether who was given a message takes note of it before this owner goes on. -/
inductive Precedes (x : Exchange P) (h : HalfId) (m : Option Message) (owner : Owner) : Prop where
  | next {t} : x.agenda = [.run (.received h m t)] → Precedes x h m owner
  | queued {before after t} : x.ready = before ++ .received h m t :: after →
    (∀ w ∈ before, ¬ w.Returns owner) → (∀ w, .run w ∈ x.agenda → ¬ w.Returns owner) →
    Precedes x h m owner

variable {x y : Exchange P} {th : Thread P} {h : HalfId} {m : Option Message} {owner : Owner}
  {past : List Event}

theorem Serves.move (serves : Serves x y) : Move (fun _ => True) x y := by
  cases serves with
  | advance advanced => exact move_of_advance? advanced
  | command quiet same => exact same ▸ .command quiet trivial

theorem FirstCome.run (firstCome : FirstCome x y) : Run (fun _ => True) x y := by
  induction firstCome with
  | refl => exact .refl
  | tail _ serves ih => exact ih.step serves.move

theorem firstCome_advance (steps : Nat) (x : Exchange P) : FirstCome x (x.advance steps) := by
  induction steps generalizing x with
  | zero => exact .refl
  | succ steps ih =>
      unfold Exchange.advance
      split
      next => exact .refl
      next y advanced => exact .head (.advance advanced) (ih y)

/-! ## Where threads are -/

theorem mem_of_busy (mem : th ∈ x.threads) (busy : ¬ th.stage.IsParked) :
    (∃ w ∈ x.agenda, th ∈ w.threads) ∨ ∃ w ∈ x.ready, th ∈ w.threads := by
  simp only [threads, Multiset.mem_add, Multiset.mem_coe, List.mem_flatMap, List.mem_map] at mem
  rcases mem with (((agenda | ready) | parked) | ⟨entry, -, rfl⟩)
  · exact .inl agenda
  · exact .inr ready
  · obtain ⟨h, here⟩ := mem_parked.mp parked
    have waits := Half.parkedAt here
    cases stage : th.stage <;> rw [stage] at waits busy <;>
      first | exact waits.elim | exact absurd trivial busy
  · exact absurd trivial busy

theorem Sober.received_mem (sober : x.Sober) (mem : th ∈ x.threads)
    (stage : th.stage = .received h m) :
    ∃ t, .received h m t ∈ x.ready ∨ x.agenda = [.run (.received h m t)] := by
  have wakes {w : Wake P} (inside : th ∈ w.threads) : ∃ t, w = .received h m t := by
    cases w with
    | sent h' terminal =>
        obtain rfl := List.mem_singleton.mp inside
        cases terminal <;> cases stage
    | received =>
        obtain rfl := List.mem_singleton.mp inside
        cases stage
        exact ⟨_, rfl⟩
    | returned =>
        obtain rfl := List.mem_singleton.mp inside
        cases stage
    | late => exact absurd inside List.not_mem_nil
  have busy : ¬ th.stage.IsParked := by
    rw [stage]
    exact id
  rcases mem_of_busy mem busy with ⟨w, agenda, inside⟩ | ⟨w, ready, inside⟩
  · cases w with
    | run wake =>
        obtain ⟨t, rfl⟩ := wakes inside
        rcases sober.instant with all | ⟨wake, one⟩
        · exact (all _ agenda).elim
        · rw [one] at agenda
          cases List.mem_singleton.mp agenda
          exact ⟨t, .inr one⟩
    | close h' next =>
        obtain ⟨th', -, rfl⟩ := List.mem_map.mp inside
        cases stage
    | emit e =>
        have purpose := sober.work _ agenda
        obtain ⟨current, replies, hooks, argument, purpose'⟩ := e
        cases purpose' with
        | closing => exact purpose.elim
        | _ => exact absurd inside List.not_mem_nil
    | give | receive | enter | serve | deliver =>
        obtain rfl := List.mem_singleton.mp inside
        cases stage
  · obtain ⟨t, rfl⟩ := wakes inside
    exact ⟨t, .inl ready⟩

/-! ## Moves -/

theorem mem_push {w : Work P} (mem : th ∈ w.threads) (x : Exchange P) : th ∈ (x.push w).threads :=
  mem_threads_agenda List.mem_cons_self mem

theorem work_keeps {w : Work P} {emits : Nat → Prop} (guarded : ∀ h, (x.half h).Guarded)
    (sober : w.Sober emits) (mem : th ∈ w.threads) {o : Outcome}
    (outcome : th.stage.outcome? = some o) (frames : th.frames ≠ [])
    (idle : ∀ w', w = .run w' → ¬ w'.Returns th.owner) :
    ∃ st, st.outcome? = some o ∧ ⟨st, th.frames, th.owner⟩ ∈ (x.work w).threads := by
  cases w with
  | run wake =>
      cases wake with
      | sent h terminal taken t =>
          obtain rfl := List.mem_singleton.mp mem
          cases terminal <;> exact ⟨_, outcome, mem_push (List.mem_singleton_self _) x⟩
      | received h m t =>
          obtain rfl := List.mem_singleton.mp mem
          have noted : t.thread (.afterReceipt h m) ∈ (x.run (.received h m t)).threads := by
            rcases m with _ | _ | _ <;> exact mem_push (List.mem_singleton_self _) _
          refine ⟨.afterReceipt h m, ?_, noted⟩
          rcases m with _ | _ | _ <;> exact outcome
      | returned o' t =>
          obtain rfl := List.mem_singleton.mp mem
          exact absurd rfl (idle _ rfl)
      | late => exact absurd mem List.not_mem_nil
  | give o' t =>
      obtain rfl := List.mem_singleton.mp mem
      obtain ⟨fs, owner⟩ := t
      cases fs with
      | nil => exact absurd rfl frames
      | cons f fs =>
          have woken : .returned o' ⟨f :: fs, owner⟩ ∈ (x.work (.give o' ⟨f :: fs, owner⟩)).ready :=
            List.mem_append_right _ (List.mem_singleton_self _)
          exact ⟨_, outcome, Wake.mem_threads woken (List.mem_singleton_self _)⟩
  | close h next =>
      obtain ⟨th', inside, rfl⟩ := List.mem_map.mp mem
      have pushed : next ∈ (x.work (.close h next)).agenda := by
        rcases agenda_closeHalf (guarded h) next with agenda | ⟨e, agenda⟩
        · exact agenda ▸ List.mem_cons_self
        · exact agenda ▸ List.mem_cons_of_mem _ List.mem_cons_self
      exact ⟨th'.stage, outcome, mem_threads_agenda pushed inside⟩
  | emit e =>
      obtain ⟨current, replies, hooks, argument, purpose⟩ := e
      cases purpose with
      | closing => exact sober.elim
      | _ => exact absurd mem List.not_mem_nil
  | receive | enter | serve | deliver =>
      obtain rfl := List.mem_singleton.mp mem
      cases outcome

/-- A thread keeps its functions while none of them goes on. -/
theorem Sober.keeps {allowed : Command → Prop} (sober : x.Sober) (sound : Sound past x)
    (guarded : ∀ h, (x.half h).Guarded) (mem : th ∈ x.threads) {o : Outcome}
    (outcome : th.stage.outcome? = some o) (frames : th.frames ≠ [])
    (idle : ∀ w, .run w ∈ x.agenda → ¬ w.Returns th.owner) (move : Move allowed x y) :
    ∃ st, st.outcome? = some o ∧ ⟨st, th.frames, th.owner⟩ ∈ y.threads := by
  have stays (inside : th ∈ y.threads) :
      ∃ st, st.outcome? = some o ∧ ⟨st, th.frames, th.owner⟩ ∈ y.threads :=
    ⟨th.stage, outcome, inside⟩
  have busy : ¬ th.stage.IsParked := by
    intro parked
    cases stage : th.stage <;> rw [stage] at parked outcome <;>
      first | exact parked.elim | cases outcome
  have awake (ready : x.ready <+: y.ready) {w : Wake P} (inside : w ∈ x.ready)
      (here : th ∈ w.threads) : th ∈ y.threads := Wake.mem_threads (ready.subset inside) here
  cases move with
  | @resume place quiet lt =>
      have same := congrArg Scene.threads (scene_resume quiet lt [])
      exact stays (by rw [← threads_scene _ [], same]; exact mem)
  | @command c quiet =>
      rcases mem_of_busy mem busy with ⟨w, agenda, -⟩ | ⟨w, inside, here⟩
      · exact absurd (quiet ▸ agenda) List.not_mem_nil
      · have pushes : Pushes (fun _ => True) x (x.command c) := Pushes.command fun _ _ _ => trivial
        exact stays (awake pushes.ready inside here)
  | @work w rest agenda =>
      have pushes := sober.pushes sound agenda
      obtain ⟨ws, agenda', -⟩ := pushes.agenda
      rcases mem_of_busy mem busy with ⟨w', inside, here⟩ | ⟨w', inside, here⟩
      · rw [agenda] at inside
        rcases List.mem_cons.mp inside with rfl | later
        · exact work_keeps (x := { x with agenda := rest }) guarded
            (sober.work w' (agenda ▸ List.mem_cons_self))
            here outcome frames fun w same => idle w (same ▸ agenda ▸ List.mem_cons_self)
        · exact stays (mem_threads_agenda (agenda' ▸ List.mem_append_right _ later) here)
      · exact stays (awake pushes.ready inside here)

/-- The task that waits longest goes on, or work is done that needs no turn. -/
theorem Sober.serves (sober : x.Sober) (sound : Sound past x) (serves : Serves x y) :
    (∃ w, x.agenda = [] ∧ x.ready = w :: y.ready ∧ y.agenda = [.run w]) ∨
      x.ready <+: y.ready ∧ ∀ w ∈ y.agenda, w.Instant := by
  cases serves with
  | advance advanced =>
      unfold advance? at advanced
      split at advanced
      next w rest agenda =>
        obtain rfl := Option.some.inj advanced
        have pushes := sober.pushes sound agenda
        obtain ⟨ws, agenda', new⟩ := pushes.agenda
        refine .inr ⟨pushes.ready, fun w' mem => ?_⟩
        rw [agenda', List.mem_append] at mem
        exact mem.elim (fun inside => (new w' inside).2) ((sober.rest agenda).2 w')
      next agenda =>
        split at advanced
        next => cases advanced
        next w rest ready =>
          obtain rfl := Option.some.inj advanced
          exact .inl ⟨w, agenda, ready, rfl⟩
  | @command c quiet same =>
      subst same
      have pushes : Pushes (fun _ => True) x (x.command c) := Pushes.command fun _ _ _ => trivial
      obtain ⟨ws, agenda, new⟩ := pushes.agenda
      refine .inr ⟨pushes.ready, fun w mem => (new w ?_).2⟩
      rwa [agenda, quiet, List.append_nil] at mem

theorem journal_run_received (x : Exchange P) (h : HalfId) (m : Option Message) (t : Task P) :
    (x.run (.received h m t)).journal = .received h (Stage.receipt m) :: x.journal := by
  rcases m with _ | _ | _ <;> rfl

/-- Who was given a message takes note of it, or does so before this owner goes on. -/
theorem Precedes.serves (precedes : x.Precedes h m owner) (sober : x.Sober) (sound : Sound past x)
    (serves : Serves x y)
    (idle : ∀ w, .run w ∈ y.agenda → (Work.run w).Instant → ¬ w.Returns owner) :
    y.journal = .received h (Stage.receipt m) :: x.journal ∨ y.Precedes h m owner := by
  cases precedes with
  | @next t agenda =>
      refine .inl ?_
      cases serves with
      | advance advanced =>
          simp only [advance?, agenda] at advanced
          obtain rfl := Option.some.inj advanced
          exact journal_run_received _ h m t
      | command quiet => cases agenda.symm.trans quiet
  | @queued before after t ready waits _ =>
      refine .inr ?_
      rcases sober.serves sound serves with ⟨w, -, first, agenda⟩ | ⟨⟨more, kept⟩, instant⟩
      · rw [ready] at first
        cases before with
        | nil =>
            cases first
            exact .next agenda
        | cons w' before =>
            obtain ⟨rfl, rest⟩ := List.cons.inj first
            refine .queued rest.symm (fun w mem => waits w (List.mem_cons_of_mem _ mem))
              fun w mem => ?_
            rw [agenda] at mem
            cases List.mem_singleton.mp mem
            exact waits w' List.mem_cons_self
      · rw [ready, List.append_assoc, List.cons_append] at kept
        exact .queued kept.symm waits fun w mem => idle w mem (instant _ mem)

end Exchange

end ObjectTransfer
