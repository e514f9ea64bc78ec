import Mathlib.Algebra.Order.Group.Multiset
import Mathlib.Tactic.Abel
import ObjectTransfer.Proofs.Thread

/-! # Threads at a half

Which threads wait at a half depends on that half alone, so changing a half changes no others.
-/

namespace ObjectTransfer

variable {P : Plugin}

theorem Wake.not_parkedAt {w : Wake P} {th} (mem : th ∈ w.threads) (h : HalfId) :
    ¬ th.stage.ParkedAt h := by
  cases w with
  | sent h' terminal taken t =>
      obtain rfl := List.mem_singleton.mp mem
      cases terminal <;> exact id
  | received | returned =>
      obtain rfl := List.mem_singleton.mp mem
      exact id
  | late => exact absurd mem List.not_mem_nil

theorem Work.not_parkedAt {w : Work P} {th} (mem : th ∈ w.threads) (h : HalfId) :
    ¬ th.stage.ParkedAt h := by
  fun_induction Work.threads w generalizing th with
  | case1 w => exact Wake.not_parkedAt mem h
  | case3 h' next =>
      obtain ⟨th, -, rfl⟩ := List.mem_map.mp mem
      exact id
  | case8 _ _ _ _ _ next ih => exact ih mem
  | case9 => exact absurd mem List.not_mem_nil
  | case2 | case4 | case5 | case6 | case7 =>
      obtain rfl := List.mem_singleton.mp mem
      exact id

theorem Half.parkedAt {h : HalfId} {half : Half P} {th} (mem : th ∈ half.threads h) :
    th.stage.ParkedAt h := by
  rcases List.mem_append.mp mem with mem | mem <;> obtain ⟨_, -, rfl⟩ := List.mem_map.mp mem <;>
    exact rfl

theorem Stage.ParkedAt.unique {s : Stage} {h h' : HalfId} (parked : s.ParkedAt h)
    (parked' : s.ParkedAt h') : h = h' := by
  cases s <;> first | exact parked.symm.trans parked' | exact parked.elim

theorem Stream.parkedAt {i : StreamId} {s : Stream P} {th} (mem : th ∈ s.threads i) :
    ∃ side, th.stage.ParkedAt ⟨i, side⟩ := by
  rcases List.mem_append.mp mem with mem | mem
  · exact ⟨_, Half.parkedAt mem⟩
  · exact ⟨_, Half.parkedAt mem⟩

namespace Exchange

variable {x : Exchange P} {h h' : HalfId}

def Has (x : Exchange P) (h : HalfId) : Prop := h.stream < x.streams.length

theorem has_of_open (isOpen : (x.half h).closed = false) : x.Has h := by
  by_contra absent
  have : x.streams[h.stream]? = none := List.getElem?_eq_none (Nat.le_of_not_lt absent)
  simp [half, this, Half.shut] at isOpen

def streamOf (x : Exchange P) (h : HalfId) (has : x.Has h) : Stream P :=
  have lt : h.stream < x.streams.length := has
  x.streams[h.stream]

theorem getElem?_streams (has : x.Has h) : x.streams[h.stream]? = some (x.streamOf h has) :=
  List.getElem?_eq_getElem has

theorem half_of_has (has : x.Has h) : x.half h = (x.streamOf h has).half h.side := by
  simp [half, getElem?_streams has]

theorem modifyHalf_of_not_has (absent : ¬ x.Has h) (f : Half P → Half P) :
    x.modifyHalf h f = x := by
  simp [modifyHalf, List.modify_eq_self (Nat.le_of_not_lt absent)]

theorem half_modifyHalf (has : x.Has h) (f : Half P → Half P) :
    (x.modifyHalf h f).half h = f (x.half h) := by
  rw [half_of_has has]
  have found := getElem?_streams has
  cases h with
  | mk i side => cases side <;> simp_all [half, modifyHalf, Stream.modify, Stream.half]

theorem half_modifyHalf_of_ne (ne : h' ≠ h) (f : Half P → Half P) :
    (x.modifyHalf h f).half h' = x.half h' := by
  obtain ⟨i, side⟩ := h
  obtain ⟨j, side'⟩ := h'
  by_cases same : j = i
  · subst same
    have other : side' ≠ side := fun same => ne (by rw [same])
    cases hs : x.streams[j]? with
    | none => simp [half, modifyHalf, hs]
    | some s =>
        cases side <;> cases side' <;>
          simp [half, modifyHalf, hs, Stream.modify, Stream.half] at other ⊢
  · simp [half, modifyHalf, List.getElem?_modify_ne _ _ (Ne.symm same)]

/-- The threads that wait at the other halves than this one. -/
def parkedElsewhere (x : Exchange P) (h : HalfId) (has : x.Has h) : List (Thread P) :=
  ((x.streams.take h.stream).mapIdx Stream.threads).flatten ++
    (match h.side with
      | .requests => (x.streamOf h has).responses.threads ⟨h.stream, .responses⟩
      | .responses => (x.streamOf h has).requests.threads ⟨h.stream, .requests⟩) ++
    ((x.streams.drop (h.stream + 1)).mapIdx
      fun j => Stream.threads (j + (h.stream + 1))).flatten

theorem parked_modifyHalf (has : x.Has h) (f : Half P → Half P) :
    (↑(x.modifyHalf h f).parked : Multiset (Thread P)) =
      ↑((f (x.half h)).threads h) + ↑(x.parkedElsewhere h has) := by
  have length : (x.streams.take h.stream).length = h.stream := List.length_take_of_le has.le
  have modified (g : Stream P → Stream P) : x.streams.modify h.stream g =
      x.streams.take h.stream ++ g (x.streamOf h has) :: x.streams.drop (h.stream + 1) :=
    List.modify_eq_take_cons_drop has
  simp only [parked, modifyHalf, modified, List.mapIdx_append,
    List.mapIdx_cons, length, List.flatten_append, List.flatten_cons, ← Multiset.coe_add,
    parkedElsewhere, half_of_has has, Nat.zero_add, Nat.add_assoc, Nat.add_comm 1]
  cases h with
  | mk i side =>
      cases side <;>
        simp only [Stream.modify, Stream.threads, Stream.half, ← Multiset.coe_add] <;> abel

theorem not_parkedAt_of_mem_parkedElsewhere (has : x.Has h) {th}
    (mem : th ∈ x.parkedElsewhere h has) : ¬ th.stage.ParkedAt h := by
  intro here
  rcases List.mem_append.mp mem with mem | mem
  · rcases List.mem_append.mp mem with mem | mem
    · obtain ⟨_, mem, inside⟩ := List.mem_flatten.mp mem
      obtain ⟨j, lt, rfl⟩ := List.mem_mapIdx.mp mem
      obtain ⟨side, there⟩ := Stream.parkedAt inside
      have := here.unique there
      subst this
      simp at lt
    · cases h with
      | mk i side => cases side <;> cases here.unique (Half.parkedAt mem)
  · obtain ⟨_, mem, inside⟩ := List.mem_flatten.mp mem
    obtain ⟨j, lt, rfl⟩ := List.mem_mapIdx.mp mem
    obtain ⟨side, there⟩ := Stream.parkedAt inside
    exact (Nat.lt_add_left j h.stream.lt_succ_self).ne (congrArg HalfId.stream (here.unique there))

/-- The threads of an exchange are those that wait at a half and those elsewhere. -/
theorem threads_modifyHalf (has : x.Has h) : ∃ rest : Multiset (Thread P),
    x.threads = ↑((x.half h).threads h) + rest ∧ (∀ th ∈ rest, ¬ th.stage.ParkedAt h) ∧
      ∀ f, (x.modifyHalf h f).threads = ↑((f (x.half h)).threads h) + rest := by
  refine ⟨↑(x.agenda.flatMap Work.threads) + ↑(x.ready.flatMap Wake.threads) +
    ↑(x.parkedElsewhere h has) +
    ↑(x.gates.waiting.map fun entry => entry.2.thread (.waiting entry.1)), ?_, ?_, fun f => ?_⟩
  · have same : x.modifyHalf h id = x := by
      simp only [modifyHalf]
      cases h with
      | mk i side => cases side <;> simp [Stream.modify, List.modify_id, ← Function.id_def]
    have := parked_modifyHalf has id
    rw [same] at this
    simp only [threads, this, id]
    abel
  · intro th mem
    simp only [Multiset.mem_add, Multiset.mem_coe, List.mem_flatMap, List.mem_map] at mem
    rcases mem with ((⟨w, -, mem⟩ | ⟨w, -, mem⟩) | mem) | ⟨entry, -, rfl⟩
    · exact Work.not_parkedAt mem h
    · exact Wake.not_parkedAt mem h
    · exact not_parkedAt_of_mem_parkedElsewhere has mem
    · exact id
  · simp only [threads, parked_modifyHalf has f]
    simp only [modifyHalf]
    abel

end Exchange

end ObjectTransfer
