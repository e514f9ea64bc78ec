import ObjectTransfer.Proofs.Fates

/-! # The active streams

A stream is active as long as one of its halves is open or something that was attached to the
closure of a half is still to be called. The countdown of an upload tells how much of that is left
(`Scene.Listed`).
-/

namespace ObjectTransfer

variable {P : Plugin}

/-- The stream that a hook strikes off, at once or when its countdown ends. -/
def Hook.stream? (countdowns : List (Nat × Listener)) : Hook → Option StreamId
  | direct (.forget i) => some i
  | half n =>
    match countdowns[n]? with
    | some (_, .forget i) => some i
    | _ => none
  | _ => none

namespace Hook

variable {cs : List (Nat × Listener)} {hook : Hook} {i : StreamId}

theorem stream?_half {n k : Nat} (found : cs[n]? = some (k, .forget i)) :
    (half n).stream? cs = some i := by
  simp [stream?, found]

theorem stream?_append (more : List (Nat × Listener)) (known : hook.stream? cs = some i) :
    hook.stream? (cs ++ more) = some i := by
  cases hook with
  | direct l => cases l <;> exact known
  | half n =>
      have lt : n < cs.length := by
        by_contra beyond
        simp [stream?, List.getElem?_eq_none (Nat.le_of_not_lt beyond)] at known
      simpa [stream?, List.getElem?_append_left lt] using known

theorem stream?_set {n k k' : Nat} (found : cs[n]? = some (k, .forget i)) (hook : Hook) :
    hook.stream? (cs.set n (k', .forget i)) = hook.stream? cs := by
  cases hook with
  | direct l => cases l <;> rfl
  | half n' =>
      by_cases same : n = n'
      · subst same
        have lt : n < cs.length := (List.getElem?_eq_some_iff.mp found).1
        rw [stream?_half found, stream?_half (List.getElem?_set_self lt)]
      · simp [stream?, List.getElem?_set_ne same]

end Hook

namespace Scene

def openHalves (s : Scene P) (i : StreamId) : Nat :=
  (if s.closed ⟨i, .requests⟩ then 0 else 1) + if s.closed ⟨i, .responses⟩ then 0 else 1

/-- How much is to be called because halves of a stream closed. -/
def due (s : Scene P) (i : StreamId) : Nat :=
  (s.pending.filterMap (·.stream? s.countdowns)).count i

/-- How much is still to come before a stream is no longer active. -/
def owed (s : Scene P) (i : StreamId) : Nat := s.openHalves i + s.due i

/-- What is attached to closures fits the streams that are open and active. -/
structure Listed (s : Scene P) : Prop where
  shut : ∀ h, s.kinds.length ≤ h.stream → s.closed h = true
  hooks : ∀ h, h.stream < s.kinds.length →
    (s.hooks h).map (·.stream? s.countdowns) = if s.closed h then [] else [some h.stream]
  pending : ∀ hook ∈ s.pending, ∃ i < s.kinds.length, hook.stream? s.countdowns = some i
  known : ∀ i ∈ s.active, i < s.kinds.length
  active : ∀ i < s.kinds.length, s.active.count i = if s.owed i = 0 then 0 else 1
  countdowns : ∀ {c k : Nat} {i}, s.countdowns[c]? = some (k, Listener.forget i) →
    i < s.kinds.length ∧ k = s.owed i
  once : ∀ {c c' k k' : Nat} {i}, s.countdowns[c]? = some (k, Listener.forget i) →
    s.countdowns[c']? = some (k', Listener.forget i) → c = c'
  /-- A stream that is struck off without a countdown has one half that was ever open. -/
  direct : ∀ {i}, .direct (.forget i) ∈ s.pending ∨
    (∃ h, h.stream < s.kinds.length ∧ .direct (.forget i) ∈ s.hooks h) →
    s.owed i ≤ 1 ∧ ∀ c k : Nat, s.countdowns[c]? ≠ some (k, Listener.forget i)

variable {s s' : Scene P}

theorem Listed.empty : (Scene.empty P).Listed := by
  constructor <;> simp [Scene.empty, Exchange.empty, Exchange.scene, Exchange.half, Half.shut]

theorem Listed.same (listed : s.Listed) (kinds : s'.kinds = s.kinds) (closed : s'.closed = s.closed)
    (hooks : s'.hooks = s.hooks) (pending : s'.pending = s.pending) (active : s'.active = s.active)
    (countdowns : s'.countdowns = s.countdowns) : s'.Listed := by
  have owed (i) : s'.owed i = s.owed i := by
    simp only [Scene.owed, openHalves, due, closed, pending, countdowns]
  constructor
  · rw [kinds, closed]
    exact listed.shut
  · rw [kinds, closed, hooks, countdowns]
    exact listed.hooks
  · rw [kinds, pending, countdowns]
    exact listed.pending
  · rw [kinds, active]
    exact listed.known
  · simp only [kinds, active, owed]
    exact listed.active
  · simp only [countdowns, kinds, owed]
    exact listed.countdowns
  · simp only [countdowns]
    exact listed.once
  · simp only [pending, kinds, hooks, owed, countdowns]
    exact listed.direct

theorem Listed.of_open (listed : s.Listed) {h : HalfId} (isOpen : s.closed h = false) :
    h.stream < s.kinds.length := by
  by_contra beyond
  exact absurd (listed.shut h (Nat.le_of_not_lt beyond)) (by simp [isOpen])

theorem Listed.direct_lt (listed : s.Listed) {i : StreamId}
    (there : .direct (.forget i) ∈ s.pending ∨
    ∃ h, h.stream < s.kinds.length ∧ .direct (.forget i) ∈ s.hooks h) : i < s.kinds.length := by
  rcases there with waits | ⟨h, lt, waits⟩
  · obtain ⟨j, lt, known⟩ := listed.pending _ waits
    cases known
    exact lt
  · have known := List.mem_map_of_mem (f := (·.stream? s.countdowns)) waits
    rw [listed.hooks h lt] at known
    split at known
    · exact absurd known List.not_mem_nil
    · cases List.mem_singleton.mp known
      exact lt

theorem due_cons {hook : Hook} {rest : Multiset Hook} {j : StreamId}
    (pending : s.pending = hook ::ₘ rest) (known : hook.stream? s.countdowns = some j)
    (i : StreamId) :
    s.due i = (rest.filterMap (·.stream? s.countdowns)).count i + if i = j then 1 else 0 := by
  rw [due, pending, Multiset.filterMap_cons_some _ _ _ known, Multiset.count_cons]

theorem due_eq_zero (nothing : s.pending = 0) (i : StreamId) : s.due i = 0 := by
  rw [due, nothing]
  rfl

theorem Listed.due_attached (listed : s.Listed) {h : HalfId} (isOpen : s.closed h = false)
    (i : StreamId) :
      (↑((s.hooks h).filterMap (·.stream? s.countdowns)) : Multiset StreamId).count i =
      if i = h.stream then 1 else 0 := by
  have attached := listed.hooks h (listed.of_open isOpen)
  rw [isOpen] at attached
  obtain ⟨hook, hooks, known⟩ := List.map_eq_singleton_iff.mp attached
  simp [hooks, known, Multiset.count_singleton]

theorem Listed.owed_close (listed : s.Listed) {h : HalfId} (isOpen : s.closed h = false)
    (closed : s'.closed = Function.update s.closed h true)
    (pending : s'.pending = ↑(s.hooks h) + s.pending) (countdowns : s'.countdowns = s.countdowns)
    (i : StreamId) : s'.owed i = s.owed i := by
  have due : s'.due i = (if i = h.stream then 1 else 0) + s.due i := by
    rw [Scene.due, pending, countdowns, Multiset.filterMap_add, Multiset.count_add,
      Multiset.filterMap_coe, listed.due_attached isOpen, Scene.due]
  rw [Scene.owed, Scene.owed, due]
  by_cases same : i = h.stream
  · subst same
    have opened : s.openHalves h.stream = s'.openHalves h.stream + 1 := by
      obtain ⟨i, side⟩ := h
      cases side with
      | requests =>
          simp_all [openHalves, Function.update]
          exact Nat.add_comm _ _
      | responses => simp_all [openHalves, Function.update]
    rw [if_pos rfl, opened]
    omega
  · have other : s'.openHalves i = s.openHalves i := by
      have ne (side) : (⟨i, side⟩ : HalfId) ≠ h := fun same' => same (by rw [← same'])
      simp only [openHalves, closed, Function.update_of_ne (ne _)]
    rw [if_neg same, other, zero_add]

/-- A half is closed, and what is attached to it is to be called. -/
theorem Listed.close (listed : s.Listed) {h : HalfId} (isOpen : s.closed h = false)
    (kinds : s'.kinds = s.kinds) (closed : s'.closed = Function.update s.closed h true)
    (hooks : s'.hooks = Function.update s.hooks h [])
    (pending : s'.pending = ↑(s.hooks h) + s.pending) (active : s'.active = s.active)
    (countdowns : s'.countdowns = s.countdowns) : s'.Listed := by
  have lt := listed.of_open isOpen
  have owed := listed.owed_close isOpen closed pending countdowns
  constructor
  case shut =>
    intro h' beyond
    rw [kinds] at beyond
    rw [closed, Function.update_apply]
    split
    · rfl
    · exact listed.shut h' beyond
  case hooks =>
    intro h' lt'
    rw [kinds] at lt'
    rw [closed, hooks, countdowns, Function.update_apply, Function.update_apply]
    split
    · rfl
    · exact listed.hooks h' lt'
  case pending =>
    intro hook mem
    rw [pending, Multiset.mem_add] at mem
    rw [kinds, countdowns]
    rcases mem with mem | mem
    · have known := List.mem_map_of_mem (f := (·.stream? s.countdowns)) mem
      rw [listed.hooks h lt, isOpen] at known
      exact ⟨_, lt, List.mem_singleton.mp known⟩
    · exact listed.pending hook mem
  case known => simpa only [kinds, active] using listed.known
  case active => simpa only [kinds, active, owed] using listed.active
  case countdowns =>
    simp only [countdowns, kinds, owed]
    exact listed.countdowns
  case once =>
    simp only [countdowns]
    exact listed.once
  case direct =>
    intro i there
    rw [owed, countdowns]
    refine listed.direct ?_
    rcases there with waits | ⟨h', lt', waits⟩
    · rw [pending, Multiset.mem_add] at waits
      rcases waits with waits | waits
      · exact .inr ⟨h, lt, waits⟩
      · exact .inl waits
    · rw [hooks, Function.update_apply] at waits
      split at waits
      · exact absurd waits List.not_mem_nil
      · exact .inr ⟨h', kinds ▸ lt', waits⟩

theorem Listed.call (listed : s.Listed) {hook : Hook} {rest : Multiset Hook} {j : StreamId}
    (calls : s.pending = hook ::ₘ rest) (target : hook.stream? s.countdowns = some j)
    (kinds : s'.kinds = s.kinds) (closed : s'.closed = s.closed) (hooks : s'.hooks = s.hooks)
    (pending : s'.pending = rest)
    (active : s'.active = if s.owed j = 1 then s.active.erase j else s.active)
    (streams : ∀ hook : Hook, hook.stream? s'.countdowns = hook.stream? s.countdowns)
    (countdowns : ∀ {c k : Nat} {i}, s'.countdowns[c]? = some (k, Listener.forget i) →
      ∃ k', s.countdowns[c]? = some (k', Listener.forget i) ∧
        k + (if i = j then 1 else 0) = k') : s'.Listed := by
  have owed (i) : s.owed i = s'.owed i + if i = j then 1 else 0 := by
    have due : s.due i = s'.due i + if i = j then 1 else 0 := by
      rw [due_cons calls target, Scene.due, pending]
      simp only [streams]
    have same : s'.openHalves i = s.openHalves i := by simp only [openHalves, closed]
    rw [Scene.owed, Scene.owed, due, same]
    omega
  constructor
  case shut => simpa only [kinds, closed] using listed.shut
  case hooks => simpa only [kinds, closed, hooks, streams] using listed.hooks
  case pending =>
    intro hook' mem
    rw [pending] at mem
    rw [kinds, streams]
    exact listed.pending hook' (calls ▸ Multiset.mem_cons_of_mem mem)
  case known =>
    intro i mem
    rw [active] at mem
    rw [kinds]
    refine listed.known i ?_
    split at mem
    · exact List.mem_of_mem_erase mem
    · exact mem
  case active =>
    intro i lt'
    have before := listed.active i (kinds ▸ lt')
    have left := owed i
    rw [active]
    by_cases same : i = j
    · subst same
      rw [if_pos rfl] at left
      split
      next last =>
        rw [List.count_erase_self, before, if_neg (by omega), if_pos (by omega)]
      next more => rw [before, if_neg (by omega), if_neg (by omega)]
    · rw [if_neg same, add_zero] at left
      rw [← left, ← before]
      split
      · exact List.count_erase_of_ne same
      · rfl
  case countdowns =>
    intro c k i found
    obtain ⟨k', found', counted⟩ := countdowns found
    obtain ⟨lt', rfl⟩ := listed.countdowns found'
    have left := owed i
    exact ⟨kinds ▸ lt', by omega⟩
  case once =>
    intro c c' k k' i found found'
    obtain ⟨_, old, -⟩ := countdowns found
    obtain ⟨_, old', -⟩ := countdowns found'
    exact listed.once old old'
  case direct =>
    intro i there
    have old : .direct (.forget i) ∈ s.pending ∨
        ∃ h, h.stream < s.kinds.length ∧ .direct (.forget i) ∈ s.hooks h := by
      rcases there with waits | ⟨h, lt', waits⟩
      · exact .inl (calls ▸ Multiset.mem_cons_of_mem (pending ▸ waits))
      · exact .inr ⟨h, kinds ▸ lt', hooks ▸ waits⟩
    have left := owed i
    refine ⟨by have := (listed.direct old).1; omega, fun c k found => ?_⟩
    obtain ⟨_, found', -⟩ := countdowns found
    exact (listed.direct old).2 _ _ found'

/-! ## A stream is opened -/

section Opened

variable {c : PluginCall} {kind : StreamKind} {invocation : Invocation} {i : StreamId} {h : HalfId}

theorem closed_opened_of_ne (old : h.stream ≠ s.kinds.length) :
    (s.opened c kind invocation).closed h = s.closed h :=
  if_neg old

theorem hooks_opened_of_ne (old : h.stream ≠ s.kinds.length) :
    (s.opened c kind invocation).hooks h = s.hooks h :=
  if_neg old

theorem hooks_opened (new : h.stream = s.kinds.length) :
    ((s.opened c kind invocation).hooks h).map
        (·.stream? (s.opened c kind invocation).countdowns) =
      if (s.opened c kind invocation).closed h then [] else [some h.stream] := by
  obtain ⟨i, side⟩ := h
  obtain rfl : i = s.kinds.length := new
  have counted : (s.countdowns ++ [(2, Listener.forget s.kinds.length)])[s.countdowns.length]? =
      some (2, .forget s.kinds.length) := by simp
  cases kind <;> cases side <;>
    simp [Scene.opened, openStream, begin, Stream.fresh, Stream.half, Half.shut, Half.fresh,
      Hook.stream?]

theorem direct_hooks_opened (new : h.stream = s.kinds.length)
    (waits : .direct (.forget i) ∈ (s.opened c kind invocation).hooks h) :
    kind = .download ∧ i = s.kinds.length := by
  obtain ⟨j, side⟩ := h
  obtain rfl : j = s.kinds.length := new
  cases kind with
  | download =>
      refine ⟨rfl, ?_⟩
      cases side with
      | requests => simp [Scene.opened, openStream, begin] at waits
      | responses => simpa [Scene.opened, openStream, begin] using waits
  | upload => cases side <;> simp [Scene.opened, openStream, begin] at waits

theorem countdowns_opened {n k : Nat}
    (found : (s.opened c kind invocation).countdowns[n]? = some (k, .forget i)) :
    s.countdowns[n]? = some (k, .forget i) ∨
      kind = .upload ∧ n = s.countdowns.length ∧ k = 2 ∧ i = s.kinds.length := by
  cases kind with
  | download => exact .inl found
  | upload =>
      change (s.countdowns ++ [(2, .forget s.kinds.length)])[n]? = some (k, .forget i) at found
      rw [List.getElem?_append] at found
      split at found
      · exact .inl found
      · obtain ⟨lt, same⟩ := List.getElem?_eq_some_iff.mp found
        have here : n - s.countdowns.length = 0 := by simpa using lt
        simp only [here, List.getElem_cons_zero, Prod.mk.injEq, Listener.forget.injEq] at same
        exact .inr ⟨rfl, by omega, same.1.symm, same.2.symm⟩

theorem stream?_opened {hook : Hook} (known : hook.stream? s.countdowns = some i) :
    hook.stream? (s.opened c kind invocation).countdowns = some i := by
  cases kind with
  | download => exact known
  | upload => exact Hook.stream?_append _ known

theorem filterMap_congr {hooks : Multiset Hook} {f g : Hook → Option StreamId}
    (same : ∀ hook ∈ hooks, f hook = g hook) : hooks.filterMap f = hooks.filterMap g := by
  obtain ⟨hooks, rfl⟩ := Quotient.exists_rep hooks
  exact congrArg Multiset.ofList (List.filterMap_congr same)

theorem Listed.due_opened (listed : s.Listed) (i : StreamId) :
    (s.opened c kind invocation).due i = s.due i := by
  refine congrArg (Multiset.count i) (filterMap_congr fun hook mem => ?_)
  obtain ⟨i, -, known⟩ := listed.pending hook mem
  rw [known, stream?_opened known]

theorem Listed.owed_opened (listed : s.Listed) (lt : i < s.kinds.length) :
    (s.opened c kind invocation).owed i = s.owed i := by
  have old := Nat.ne_of_lt lt
  rw [owed, owed, listed.due_opened, openHalves, openHalves, closed_opened_of_ne old,
    closed_opened_of_ne old]

/-- Both halves of an upload are still to close, and the only one of a download. -/
theorem Listed.owed_opened_new (listed : s.Listed) :
    (s.opened c kind invocation).owed s.kinds.length = if kind = .upload then 2 else 1 := by
  have due : s.due s.kinds.length = 0 := by
    rw [Scene.due, Multiset.count_eq_zero, Multiset.mem_filterMap]
    rintro ⟨hook, mem, target⟩
    obtain ⟨i, lt, known⟩ := listed.pending hook mem
    cases known.symm.trans target
    exact Nat.lt_irrefl _ lt
  rw [owed, listed.due_opened, due, openHalves]
  cases kind <;>
    simp [Scene.opened, openStream, begin, Stream.fresh, Stream.half, Half.shut, Half.fresh]

theorem Listed.active_opened (listed : s.Listed)
    (lt : i < (s.opened c kind invocation).kinds.length) :
    (s.opened c kind invocation).active.count i =
      if (s.opened c kind invocation).owed i = 0 then 0 else 1 := by
  change (s.active ++ [s.kinds.length]).count i = _
  rw [List.count_append]
  rcases lt_opened.mp lt with old | rfl
  · have ne : ¬ (s.kinds.length == i) = true := by simpa using Nat.ne_of_gt old
    rw [listed.owed_opened old, ← listed.active i old, List.count_singleton, if_neg ne]
    rfl
  · have absent : s.active.count s.kinds.length = 0 :=
      List.count_eq_zero.mpr fun mem => absurd (listed.known _ mem) (Nat.lt_irrefl _)
    rw [absent, listed.owed_opened_new]
    cases kind <;> simp

theorem Listed.direct_opened (listed : s.Listed)
    (there : .direct (.forget i) ∈ (s.opened c kind invocation).pending ∨
      ∃ h, h.stream < (s.opened c kind invocation).kinds.length ∧
        .direct (.forget i) ∈ (s.opened c kind invocation).hooks h) :
    (s.opened c kind invocation).owed i ≤ 1 ∧
      ∀ n k : Nat, (s.opened c kind invocation).countdowns[n]? ≠ some (k, .forget i) := by
  have old (there : .direct (.forget i) ∈ s.pending ∨
      ∃ h, h.stream < s.kinds.length ∧ .direct (.forget i) ∈ s.hooks h) :
      (s.opened c kind invocation).owed i ≤ 1 ∧
        ∀ n k : Nat, (s.opened c kind invocation).countdowns[n]? ≠ some (k, .forget i) := by
    have lt := listed.direct_lt there
    refine ⟨listed.owed_opened lt ▸ (listed.direct there).1, fun n k found => ?_⟩
    rcases countdowns_opened found with old | ⟨-, -, -, rfl⟩
    · exact (listed.direct there).2 n k old
    · exact Nat.lt_irrefl _ lt
  rcases there with waits | ⟨h, lt, waits⟩
  · exact old (.inl waits)
  · rcases lt_opened.mp lt with lt | new
    · exact old (.inr ⟨h, lt, hooks_opened_of_ne (Nat.ne_of_lt lt) ▸ waits⟩)
    · obtain ⟨rfl, rfl⟩ := direct_hooks_opened new waits
      refine ⟨listed.owed_opened_new.le, fun n k found => ?_⟩
      exact absurd (listed.countdowns (i := s.kinds.length) found).1 (Nat.lt_irrefl _)

theorem Listed.opened (listed : s.Listed) : (s.opened c kind invocation).Listed where
  shut h beyond := by
    have above : s.kinds.length < h.stream := Nat.lt_of_lt_of_le (lt_opened.mpr (.inr rfl)) beyond
    rw [closed_opened_of_ne (Nat.ne_of_gt above)]
    exact listed.shut h (Nat.le_of_lt above)
  hooks h lt := by
    rcases lt_opened.mp lt with old | new
    · have ne := Nat.ne_of_lt old
      rw [hooks_opened_of_ne ne, closed_opened_of_ne ne, ← listed.hooks h old]
      refine List.map_congr_left fun hook mem => ?_
      have known := List.mem_map_of_mem (f := (·.stream? s.countdowns)) mem
      rw [listed.hooks h old] at known
      split at known
      · exact absurd known List.not_mem_nil
      · exact (stream?_opened (List.mem_singleton.mp known)).trans
          (List.mem_singleton.mp known).symm
    · exact hooks_opened new
  pending hook mem := by
    obtain ⟨i, lt, known⟩ := listed.pending hook mem
    exact ⟨i, lt_opened.mpr (.inl lt), stream?_opened known⟩
  known i mem := by
    rcases List.mem_append.mp mem with old | new
    · exact lt_opened.mpr (.inl (listed.known i old))
    · exact lt_opened.mpr (.inr (List.mem_singleton.mp new))
  active _ lt := listed.active_opened lt
  countdowns found := by
    rcases countdowns_opened found with old | ⟨rfl, -, rfl, rfl⟩
    · obtain ⟨lt, counted⟩ := listed.countdowns old
      exact ⟨lt_opened.mpr (.inl lt), counted.trans (listed.owed_opened lt).symm⟩
    · refine ⟨lt_opened.mpr (.inr rfl), ?_⟩
      rw [listed.owed_opened_new]
      rfl
  once found found' := by
    rcases countdowns_opened found with old | ⟨-, rfl, -, rfl⟩ <;>
      rcases countdowns_opened found' with old' | ⟨-, rfl, -, new⟩
    · exact listed.once old old'
    · exact absurd (listed.countdowns old).1 (new ▸ Nat.lt_irrefl _)
    · exact absurd (listed.countdowns old').1 (Nat.lt_irrefl _)
    · rfl
  direct there := listed.direct_opened there

end Opened

theorem Listed.step (listed : s.Listed) (step : Step s s') : s'.Listed := by
  cases step with
  | solo | start | handle | meet | gate | notice | call => exact listed.same rfl rfl rfl rfl rfl rfl
  | close threads isOpen => exact listed.close isOpen rfl rfl rfl rfl rfl rfl
  | @strike i rest pending =>
      have waits : .direct (.forget i) ∈ s.pending := pending ▸ Multiset.mem_cons_self _ _
      have due := due_cons pending rfl i
      have owed : s.owed i = 1 := by
        have most := (listed.direct (.inl waits)).1
        rw [if_pos rfl] at due
        rw [Scene.owed] at most ⊢
        omega
      refine listed.call (j := i) pending rfl rfl rfl rfl rfl (if_pos owed).symm (fun _ => rfl) ?_
      intro c k j found
      refine ⟨k, found, ?_⟩
      rw [if_neg fun same : j = i => (listed.direct (.inl waits)).2 c k (same ▸ found), add_zero]
  | @count n k i rest pending found =>
      have target := Hook.stream?_half found
      obtain ⟨-, counted⟩ := listed.countdowns found
      have due := due_cons pending target i
      refine listed.call (j := i) pending target rfl rfl rfl rfl (counted ▸ rfl)
        (Hook.stream?_set found) ?_
      intro c k' j found'
      have lt : n < s.countdowns.length := (List.getElem?_eq_some_iff.mp found).1
      by_cases same : n = c
      · subst same
        rw [List.getElem?_set_self lt] at found'
        cases found'
        refine ⟨k, found, ?_⟩
        rw [if_pos rfl] at due ⊢
        rw [Scene.owed] at counted
        omega
      · rw [List.getElem?_set_ne same] at found'
        refine ⟨k', found', ?_⟩
        rw [if_neg fun here : j = i => same (listed.once found (here ▸ found')), add_zero]
  | opening => exact listed.opened

theorem Reachable.listed (reachable : s.Reachable) : s.Listed := by
  induction reachable with
  | refl => exact .empty
  | tail _ step ih => exact ih.step step

/-- When nothing is to be called any more, the active streams are those with an open half. -/
theorem Listed.mem_active (listed : s.Listed) (nothing : s.pending = 0) {i : StreamId}
    (lt : i < s.kinds.length) :
    i ∈ s.active ↔ s.closed ⟨i, .requests⟩ = false ∨ s.closed ⟨i, .responses⟩ = false := by
  have counted := listed.active i lt
  rw [owed, due_eq_zero nothing, openHalves] at counted
  rw [← List.count_pos_iff, counted]
  cases s.closed ⟨i, .requests⟩ <;> cases s.closed ⟨i, .responses⟩ <;> simp

end Scene

end ObjectTransfer
