import Mathlib.Data.List.Nodup
import ObjectTransfer.Proofs.Discretion

/-! # The laws of an emitter

What is proved of emissions rests on these laws. The listeners of an event are those for every
emission and then those for the next one, each in the order of their registration
(`Emitter.listeners_eq`, `Emitter.listeners_subscribe`, `Emitter.listeners_subscribeOnce`). An
awaited emission calls all of them (`Exchange.startEmitter_emitAndWait`), and of the emissions only
a plain one withdraws any: those for the next emission, before it calls them
(`Exchange.completed_plainLasting`, `Exchange.emitter_completed`).
-/

namespace ObjectTransfer

theorem Listener.eraseLast_sublist (tag : String) (ls : List Listener) :
    (Listener.eraseLast tag ls).Sublist ls := by
  have erased :=
    (List.eraseP_sublist (p := fun l : Listener => l.tag == tag) (l := ls.reverse)).reverse
  rwa [List.reverse_reverse] at erased

@[simp] theorem Lasting.listeners_add (r : Lasting) (l : Listener) :
    (r.add l).listeners = r.listeners ++ [l] :=
  rfl

@[simp] theorem Waiting.listeners_add (w : Waiting) (l : Listener) :
    (w.add l).listeners = w.listeners ++ [l] := by
  cases w <;> rfl

theorem Waiting.withdraw_sublist (tag : String) (w : Waiting) :
    (w.withdraw tag).listeners.Sublist w.listeners := by
  cases w with
  | none | one => exact List.nil_sublist _
  | several ls =>
      have erased := Listener.eraseLast_sublist tag ls
      simp only [Waiting.withdraw]
      split
      · exact List.nil_sublist _
      · assumption

theorem Lasting.withdraw_subset (tag : String) (r : Lasting) :
    (r.withdraw tag).listeners ⊆ r.listeners := by
  cases r with
  | never => exact List.Subset.refl _
  | since ls muted => exact (Listener.eraseLast_sublist tag ls).subset

theorem Lasting.audible_subset (r : Lasting) : r.audible ⊆ r.listeners := by
  cases r with
  | never => exact List.Subset.refl _
  | since ls muted => cases muted <;> simp [Lasting.audible, Lasting.listeners]

namespace Emitter

/-- Whether every event has one entry, and every listener is known by its own tag. -/
structure Tidy (e : Emitter) : Prop where
  keys : (e.events.map (·.1)).Nodup
  known : ∀ r ∈ e.known, r.2.tag = r.1

variable {e : Emitter} {event : String}

def total (e : Emitter) (m : Registrations → Nat) : Nat := (e.events.map fun r => m r.2).sum

theorem registrations_of_absent (absent : ¬ e.events.any (·.1 == event) = true) :
    e.registrations event = .none := by
  have missing : e.events.find? (·.1 == event) = none :=
    List.find?_eq_none.mpr fun r mem found => absent (List.any_eq_true.mpr ⟨r, mem, found⟩)
  simp [registrations, missing]

theorem registrations_of_mem (tidy : e.Tidy) {r : String × Registrations} (mem : r ∈ e.events) :
    e.registrations r.1 = r.2 := by
  have keys := tidy.keys
  unfold registrations
  generalize e.events = rs at mem keys
  induction rs with
  | nil => exact absurd mem List.not_mem_nil
  | cons first rs ih =>
      obtain ⟨apart, keys⟩ := List.nodup_cons.mp keys
      rcases List.mem_cons.mp mem with rfl | mem
      · simp
      · have other : (first.1 == r.1) = false := by
          simp only [beq_eq_false_iff_ne]
          exact fun same => apart (List.mem_map.mpr ⟨r, mem, same.symm⟩)
        rw [List.find?_cons, other]
        exact ih mem keys

theorem keys_modify (e : Emitter) (event : String) (f : Registrations → Registrations) :
    (e.modify event f).events.map (·.1) =
      if e.events.any (·.1 == event) then e.events.map (·.1)
        else e.events.map (·.1) ++ [event] := by
  simp only [modify]
  split
  · simp only [List.map_map]
    congr 1
    funext r
    simp only [Function.comp_apply]
    split <;> rfl
  · simp

theorem Tidy.modify (tidy : e.Tidy) (event : String) (f : Registrations → Registrations) :
    (e.modify event f).Tidy where
  keys := by
    rw [keys_modify]
    split
    · exact tidy.keys
    next absent =>
      refine tidy.keys.append (List.nodup_singleton _) ?_
      intro key mem here
      obtain rfl := List.mem_singleton.mp here
      obtain ⟨r, inside, same⟩ := List.mem_map.mp mem
      exact absent (List.any_eq_true.mpr ⟨r, inside, by simpa using same⟩)
  known := by
    simp only [Emitter.modify]
    split <;> exact tidy.known

theorem mem_modify (tidy : e.Tidy) {f : Registrations → Registrations} {r : String × Registrations}
    (mem : r ∈ (e.modify event f).events) :
    r ∈ e.events ∨ r = (event, f (e.registrations event)) := by
  simp only [modify] at mem
  split at mem
  · obtain ⟨old, inside, rfl⟩ := List.mem_map.mp mem
    split
    next same =>
      obtain rfl : old.1 = event := by simpa using same
      rw [registrations_of_mem tidy inside]
      exact .inr rfl
    · exact .inl inside
  next absent =>
    rcases List.mem_append.mp mem with old | new
    · exact .inl old
    · rw [registrations_of_absent absent]
      exact .inr (List.mem_singleton.mp new)

theorem total_modify (tidy : e.Tidy) (event : String) {m : Registrations → Nat}
    (nothing : m .none = 0) (f : Registrations → Registrations) :
    (e.modify event f).total m + m (e.registrations event) =
      e.total m + m (f (e.registrations event)) := by
  have keys := tidy.keys
  by_cases present : e.events.any (·.1 == event) = true
  · simp only [total, modify, present, if_true, registrations]
    generalize e.events = rs at keys present
    induction rs with
    | nil => cases present
    | cons first rs ih =>
        obtain ⟨apart, keys⟩ := List.nodup_cons.mp keys
        by_cases here : (first.1 == event) = true
        · -- The other entries have other names.
          have others :
              (rs.map fun r => if (r.1 == event) = true then (r.1, f r.2) else r) = rs := by
            refine (List.map_congr_left fun r mem => if_neg fun same => apart ?_).trans
              (List.map_id rs)
            rw [beq_iff_eq] at here same
            exact List.mem_map.mpr ⟨r, mem, same.trans here.symm⟩
          rw [List.map_cons, others]
          simp [here]
          omega
        · have later : rs.any (·.1 == event) = true := by simpa [here] using present
          have sums := ih keys later
          simp only [List.map_cons, List.sum_cons, List.find?_cons, here,
            Bool.false_eq_true, if_false]
          omega
  · simp [total, modify, present, registrations_of_absent present, nothing]

theorem le_total (tidy : e.Tidy) (event : String) {m : Registrations → Nat}
    (nothing : m .none = 0) : m (e.registrations event) ≤ e.total m := by
  have without := total_modify tidy event nothing fun _ => .none
  omega

theorem registrations_mem (e : Emitter) (event : String) :
    (event, e.registrations event) ∈ e.events ∨ e.registrations event = .none := by
  simp only [registrations]
  cases found : e.events.find? (·.1 == event) with
  | none => exact .inr rfl
  | some r =>
      have named : r.1 = event := by simpa using List.find?_some found
      exact .inl (named ▸ List.mem_of_find?_eq_some found)

theorem events_identify (e : Emitter) (l : Listener) : (e.identify l).1.events = e.events := by
  simp only [identify]
  split <;> rfl

theorem Tidy.identify (tidy : e.Tidy) (l : Listener) :
    (e.identify l).1.Tidy ∧ (e.identify l).2.tag = l.tag := by
  simp only [Emitter.identify]
  split
  next found =>
    have named := List.find?_some found
    have known := tidy.known _ (List.mem_of_find?_eq_some found)
    exact ⟨tidy, known.trans (by simpa using named)⟩
  · refine ⟨⟨tidy.keys, fun r mem => ?_⟩, rfl⟩
    rcases List.mem_append.mp mem with old | new
    · exact tidy.known r old
    · obtain rfl := List.mem_singleton.mp new
      rfl

end Emitter

/-! ## Laws -/

namespace Emitter

variable {event other : String}

theorem find?_changed (event other : String) (f : Registrations → Registrations)
    (rs : List (String × Registrations)) :
    (rs.map fun r => if r.1 == event then (r.1, f r.2) else r).find? (·.1 == other) =
      (rs.find? (·.1 == other)).map fun r => if r.1 == event then (r.1, f r.2) else r := by
  rw [List.find?_map]
  congr 2
  funext r
  simp only [Function.comp_apply]
  split <;> rfl

/-- A change of one event is found there, and nowhere else. -/
theorem registrations_modify (e : Emitter) (event : String) (f : Registrations → Registrations) :
    (e.modify event f).registrations event = f (e.registrations event) := by
  by_cases present : e.events.any (·.1 == event) = true
  · obtain ⟨r, found⟩ :=
      Option.isSome_iff_exists.mp (List.find?_isSome.mpr (List.any_eq_true.mp present))
    have named := List.find?_some found
    simp only [modify, present, if_true, registrations, find?_changed, found,
      Option.map_some, named, Option.getD_some]
  · have missing : e.events.find? (·.1 == event) = none :=
      List.find?_eq_none.mpr fun r mem here => present (List.any_eq_true.mpr ⟨r, mem, here⟩)
    rw [registrations_of_absent present]
    simp [modify, present, registrations, missing]

theorem registrations_modify_of_ne (e : Emitter) (apart : other ≠ event)
    (f : Registrations → Registrations) :
    (e.modify event f).registrations other = e.registrations other := by
  simp only [modify]
  split
  · simp only [registrations, find?_changed]
    cases found : e.events.find? (·.1 == other) with
    | none => rfl
    | some r =>
        have named : r.1 = other := by simpa using List.find?_some found
        have elsewhere : (r.1 == event) = false := by simpa [named] using apart
        simp only [Option.map_some, elsewhere, Bool.false_eq_true, if_false]
  · have stranger : (event == other) = false := by simpa using apart.symm
    simp [registrations, stranger]

/-- The listeners of an event are those for every emission, and then those for the next one. -/
theorem listeners_eq (e : Emitter) (event : String) :
    e.listeners event =
      (e.registrations event).lasting.listeners ++ (e.registrations event).once.listeners :=
  rfl

theorem listeners_subscribe (e : Emitter) (event : String) (l : Listener) :
    (e.subscribe event l).listeners event = (e.registrations event).lasting.listeners ++
      (e.identify l).2 :: (e.registrations event).once.listeners := by
  have same : (e.identify l).1.registrations event = e.registrations event := by
    simp only [registrations, events_identify e l]
  simp only [listeners_eq, subscribe, registrations_modify, same, Lasting.listeners_add,
    List.append_assoc, List.singleton_append]

theorem listeners_subscribeOnce (e : Emitter) (event : String) (l : Listener) :
    (e.subscribeOnce event l).listeners event = e.listeners event ++ [(e.identify l).2] := by
  have same : Emitter.registrations { (e.identify l).1 with usesOnce := true } event =
      e.registrations event := by
    simp only [registrations, events_identify e l]
  simp only [listeners_eq, subscribeOnce, registrations_modify, same, Waiting.listeners_add,
    List.append_assoc]

theorem listeners_clearOnce (e : Emitter) (event : String) :
    (e.clearOnce event).listeners event = (e.registrations event).lasting.listeners := by
  simp only [listeners_eq, clearOnce, registrations_modify, Waiting.listeners, List.append_nil]

theorem listeners_clearOnce_of_ne (e : Emitter) (apart : other ≠ event) :
    (e.clearOnce event).listeners other = e.listeners other := by
  simp only [listeners_eq, clearOnce, registrations_modify_of_ne e apart]

end Emitter

namespace Exchange

variable {P : Plugin}

/-- An awaited emission calls the listeners of its event, of both sorts, and withdraws none. -/
theorem startEmitter_emitAndWait (n : Nat) (event : String) (v : Value) (x : Exchange P) :
    x.startEmitter n event (.emitAndWait v) =
      x.push (.emit ⟨none, [], (x.emitter.listeners event).map .direct, v, .awaited n⟩) :=
  rfl

/-- An emission withdraws no listener as it begins. -/
theorem emitter_startEmitter (n : Nat) (event : String) (v : Value) (x : Exchange P) :
    (x.startEmitter n event (.emit v)).emitter = x.emitter ∧
      (x.startEmitter n event (.emitAndWait v)).emitter = x.emitter := by
  refine ⟨?_, rfl⟩
  simp only [startEmitter]
  split <;> rfl

/-- After the listeners for every emission, a plain one withdraws those for the next one and calls
them. -/
theorem completed_plainLasting {e : Emission (Work P)} {n : Nat} {event : String}
    (purpose : e.purpose = .plainLasting n event) (x : Exchange P) :
    x.completed e = { x with emitter := x.emitter.clearOnce event }.push
      (.emit ⟨none, [], (x.emitter.registrations event).once.listeners.map .direct, e.argument,
        .plainLast n⟩) := by
  simp only [completed, purpose]

theorem emitter_announce (h : HalfId) (next : Work P) (x : Exchange P) :
    (x.announce h next).emitter = x.emitter := by
  simp only [announce]
  split <;> rfl

theorem emitter_completed {e : Emission (Work P)}
    (other : ∀ n event, e.purpose ≠ .plainLasting n event) (x : Exchange P) :
    (x.completed e).emitter = x.emitter := by
  simp only [completed]
  cases purpose : e.purpose with
  | closure | awaited => exact (Discreet.awaitReplies _ _ x).emitter
  | lateClosure =>
      simp only [lateWitness]
      split
      · rfl
      · exact (Discreet.awaitReplies _ _ x).emitter
  | plainLasting n event => exact absurd purpose (other n event)
  | plainLast => exact (Discreet.answer _ _ x).emitter
  | closing h next => exact emitter_announce h next x

theorem emitter_broken (e : Emission (Work P)) (v : Value) (x : Exchange P) :
    (x.broken e v).emitter = x.emitter := by
  simp only [broken]
  cases e.purpose with
  | plainLasting | plainLast => exact (Discreet.settle _ _ x).emitter
  | _ => rfl

theorem emitter_startHook (hook : Hook) (v : Value) (x : Exchange P) :
    (x.startHook hook v).1.emitter = x.emitter := by
  have started (l : Listener) (v : Value) (y : Exchange P) :
      (y.startListener l v).1.emitter = y.emitter := by
    cases l <;> rfl
  cases hook with
  | direct l => exact started l v x
  | half n =>
      simp only [startHook]
      split
      · rfl
      · split
        · exact started _ _ _
        · rfl

/-- Unless a listener makes a call, no step of another emission withdraws or registers anybody. -/
theorem emitter_emission {e : Emission (Work P)}
    (idle : ∀ c rest reply, e.current ≠ some (.performs c :: rest, reply))
    (other : ∀ n event, e.purpose ≠ .plainLasting n event) (x : Exchange P) :
    (x.emission e).emitter = x.emitter := by
  unfold emission
  split
  · exact emitter_broken e _ x
  · rfl
  · rfl
  next current => exact absurd current (idle _ _ _)
  · rfl
  · split
    · exact emitter_completed other x
    next hook rest _ => exact emitter_startHook hook e.argument x

end Exchange

end ObjectTransfer
