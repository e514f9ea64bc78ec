import ObjectTransfer.Proofs.Hearings
import ObjectTransfer.Proofs.Shifts

/-! # Listeners for the closure of an upload

A listener for the closure of an upload waits for two halves, so its countdown has a token for each:
the token is attached to the half while that is open, and to be called afterwards. Every call takes
a token, and the one that takes the last calls the listener (`Exchange.Counts`). So no listener is
called while a half is open, and when both are closed and nothing can go on each was called once,
unless one of them throws (`Exchange.closed_upload_heard`).
-/

namespace ObjectTransfer

variable {P : Plugin}

def Emission.Returns {W : Type} (e : Emission W) : Prop :=
  ∀ actions reply, e.current = some (actions, reply) → actions.findSome? Action.thrown? = none

/-- Whether a call is one on the first stream, and any listener that it registers returns. -/
def Call.Peaceful : Call → Prop
  | stream 0 (.whenClosed l) => l.Returns
  | stream 0 _ => True
  | _ => False

instance (c : Call) : Decidable c.Peaceful :=
  match c with
  | .stream 0 (.whenClosed l) => inferInstanceAs (Decidable l.Returns)
  | .stream 0 (.method _ _) | .stream 0 (.close _) | .stream 0 .identified | .stream 0 .read |
    .stream 0 (.write _ _ _) => isTrue trivial
  | .stream (_ + 1) _ | .plugin _ | .emitter _ _ => isFalse id

/-- Whether an event is a call that registers a listener of a tag for a closure. -/
def Event.enrols (tag : String) : Event → Bool
  | called _ (.stream _ (.whenClosed l)) => l.shows tag
  | _ => false

/-- Whether what is attached to a closure is a token of a countdown. -/
def Hook.isHalf (n : Nat) : Hook → Bool
  | direct _ => false
  | half m => m == n

/-- Whether what is attached to a closure belongs to none of the first countdowns. -/
def Hook.isStray (n : Nat) : Hook → Bool
  | direct _ => true
  | half m => n ≤ m

theorem Hook.isHalf_self (n : Nat) : (Hook.half n).isHalf n = true := by simp [isHalf]

theorem Hook.isHalf_of_ne {m n : Nat} (ne : m ≠ n) : (Hook.half m).isHalf n = false := by
  simpa [isHalf] using ne

theorem Work.Sober.discreet {emits : Nat → Prop} {h : HalfId} {next : Work P}
    (sober : (Work.close h next).Sober emits) : next.Discreet := by
  obtain ⟨calm, hooks, single⟩ := sober
  fun_induction Work.Discreet next with
  | case1 hook label turns => cases hooks
  | case2 h' next ih => exact ih calm.1 hooks calm.2.2
  | case3 e =>
      obtain ⟨th, threads⟩ := single
      obtain ⟨current, replies, rest, argument, purpose⟩ := e
      cases purpose with
      | closing => exact calm.elim
      | _ => cases threads
  | case4 => trivial

namespace Exchange

def enrolments (x : Exchange P) (tag : String) : Nat := x.journal.countP (·.enrols tag)

/-- What is attached to a half, while it is open. -/
def attached (x : Exchange P) (h : HalfId) : List Hook :=
  if (x.half h).closed then [] else (x.half h).hooks

def tokens (x : Exchange P) (p : Hook → Bool) : Nat :=
  (x.attached ⟨0, .requests⟩).countP p + (x.attached ⟨0, .responses⟩).countP p + x.due p

/-- Whether the countdowns of an upload agree with their tokens, of which some are in hand, and with
the listeners that were called. -/
structure Counts (hs : List Hook) (x : Exchange P) : Prop where
  kinds : x.streams.map (·.kind) = [.upload]
  left : ∀ n entry, x.countdowns[n]? = some entry →
    x.tokens (·.isHalf n) + hs.countP (·.isHalf n) = entry.1
  strays : x.tokens (·.isStray x.countdowns.length) + hs.countP (·.isStray x.countdowns.length) = 0
  attached : ∀ side, (x.half ⟨0, side⟩).closed = false →
    ∀ n < x.countdowns.length, .half n ∈ (x.half ⟨0, side⟩).hooks
  returns : ∀ entry ∈ x.countdowns, entry.2.Returns
  emissions : ∀ e, .emit e ∈ x.agenda → e.Returns
  enrolled : ∀ tag, x.enrolments tag = x.countdowns.countP (·.2.shows tag)
  heard : ∀ tag, x.hearings tag = x.countdowns.countP fun entry => entry.1 == 0 && entry.2.shows tag

variable {x y : Exchange P} {h : HalfId} {hs : List Hook}

/-! ## Halves -/

theorem half_attach (h : HalfId) (hook : Hook) (x : Exchange P) (h' : HalfId) :
    (x.attach h hook).half h' =
      if h' = h ∧ (x.half h).closed = false then
        { x.half h with hooks := (x.half h).hooks ++ [hook] }
      else x.half h' := by
  simp only [attach]
  split
  next isClosed => rw [if_neg fun both => by simp [isClosed] at both]; rfl
  next isOpen =>
    rw [Bool.not_eq_true] at isOpen
    have has := has_of_open isOpen
    by_cases here : h' = h
    · subst here
      rw [if_pos ⟨rfl, isOpen⟩, half_modifyHalf has]
    · rw [if_neg fun both => here both.1, half_modifyHalf_of_ne here]

theorem closed_attach (h : HalfId) (hook : Hook) (x : Exchange P) (h' : HalfId) :
    ((x.attach h hook).half h').closed = (x.half h').closed := by
  rw [half_attach]
  split
  next both => rw [both.1]
  · rfl

theorem mem_hooks_attach {h h' : HalfId} {hook hook' : Hook} (isOpen : (x.half h').closed = false)
    (mem : hook' ∈ (x.half h').hooks ∨ h' = h ∧ hook' = hook) :
    hook' ∈ ((x.attach h hook).half h').hooks := by
  rw [half_attach]
  rcases mem with old | ⟨rfl, rfl⟩
  · split
    next both => exact List.mem_append_left _ (both.1 ▸ old)
    · exact old
  · rw [if_pos ⟨rfl, isOpen⟩]
    exact List.mem_append_right _ (List.mem_singleton_self _)

theorem tokens_attach (side : Side) (hook : Hook) (x : Exchange P) (p : Hook → Bool) :
    (x.attach ⟨0, side⟩ hook).tokens p = x.tokens p + if p hook then 1 else 0 := by
  have due : (x.attach ⟨0, side⟩ hook).due p =
      x.due p + if (x.half ⟨0, side⟩).closed then (if p hook then 1 else 0) else 0 := by
    simp only [attach]
    split
    · rw [due_wake, Wake.hooks, List.countP_singleton, Nat.add_comm]
    · rfl
  simp only [tokens, attached, due, half_attach]
  cases side <;> cases closed : (x.half _).closed <;> simp [closed] <;> omega

def waitBoth (l : Listener) (x : Exchange P) : Exchange P :=
  (({ x with countdowns := x.countdowns ++ [(2, l)] } : Exchange P).attach ⟨0, .requests⟩
    (.half x.countdowns.length)).attach ⟨0, .responses⟩ (.half x.countdowns.length)

theorem whenClosed_upload (upload : x.kindOf 0 = .upload) (l : Listener) :
    x.whenClosed 0 l = x.waitBoth l := by
  simp only [whenClosed, upload]
  rfl

theorem waitBoth_same (l : Listener) (x : Exchange P) :
    (x.waitBoth l).streams.map (·.kind) = x.streams.map (·.kind) ∧
      (x.waitBoth l).countdowns = x.countdowns ++ [(2, l)] ∧ (x.waitBoth l).agenda = x.agenda ∧
      (x.waitBoth l).journal = x.journal := by
  simp [waitBoth, attach_same]

theorem closed_waitBoth (l : Listener) (x : Exchange P) (h : HalfId) :
    ((x.waitBoth l).half h).closed = (x.half h).closed := by
  rw [waitBoth, closed_attach, closed_attach]
  rfl

theorem tokens_waitBoth (l : Listener) (x : Exchange P) (p : Hook → Bool) :
    (x.waitBoth l).tokens p = x.tokens p + if p (.half x.countdowns.length) then 2 else 0 := by
  rw [waitBoth, tokens_attach, tokens_attach]
  change x.tokens p + _ + _ = _
  split <;> rfl

theorem mem_hooks_waitBoth {l : Listener} {side : Side} {n : Nat}
    (isOpen : (x.half ⟨0, side⟩).closed = false)
    (mem : .half n ∈ (x.half ⟨0, side⟩).hooks ∨ n = x.countdowns.length) :
    .half n ∈ ((x.waitBoth l).half ⟨0, side⟩).hooks := by
  refine mem_hooks_attach (by rwa [closed_attach]) ?_
  rcases mem with old | rfl
  · exact .inl (mem_hooks_attach isOpen (.inl old))
  · cases side with
    | responses => exact .inr ⟨rfl, rfl⟩
    | requests => exact .inl (mem_hooks_attach isOpen (.inr ⟨rfl, rfl⟩))

namespace Counts

theorem of_same (counts : Counts hs x) {hs' : List Hook}
    (kinds : y.streams.map (·.kind) = x.streams.map (·.kind))
    (halves : ∀ h, (y.half h).closed = (x.half h).closed ∧ (y.half h).hooks = (x.half h).hooks)
    (countdowns : y.countdowns = x.countdowns)
    (due : ∀ p, y.due p + hs'.countP p = x.due p + hs.countP p)
    (emissions : ∀ e, .emit e ∈ y.agenda → .emit e ∈ x.agenda ∨ e.Returns)
    (enrolled : ∀ tag, y.enrolments tag = x.enrolments tag)
    (heard : ∀ tag, y.hearings tag = x.hearings tag) :
    Counts hs' y := by
  have tokens (p) : y.tokens p + hs'.countP p = x.tokens p + hs.countP p := by
    have same (h) : y.attached h = x.attached h := by
      simp only [Exchange.attached, (halves h).1, (halves h).2]
    have total := due p
    simp only [Exchange.tokens, same]
    omega
  refine ⟨kinds.trans counts.kinds, ?_, ?_, ?_, ?_, ?_, ?_, ?_⟩
  · intro n entry found
    rw [tokens]
    exact counts.left n entry (countdowns ▸ found)
  · rw [tokens, countdowns]
    exact counts.strays
  · intro side isOpen n lt
    rw [(halves _).1] at isOpen
    rw [(halves _).2]
    exact counts.attached side isOpen n (countdowns ▸ lt)
  · rw [countdowns]
    exact counts.returns
  · intro e mem
    exact (emissions e mem).elim (counts.emissions e) id
  · intro tag
    rw [enrolled, countdowns]
    exact counts.enrolled tag
  · intro tag
    rw [heard, countdowns]
    exact counts.heard tag

theorem discreet (counts : Counts hs x) (discreet : Discreet x y) : Counts hs y := by
  refine counts.of_same discreet.kinds (fun h => ⟨discreet.closed h, discreet.hooks h⟩)
    discreet.countdowns
    (fun p => by rw [discreet.due]) (fun e mem => .inl ?_) (fun tag => discreet.countP_journal ?_)
    fun tag => discreet.hearings
  · obtain ⟨ws, agenda, quiet⟩ := discreet.agenda
    rw [agenda] at mem
    exact (List.mem_append.mp mem).resolve_left fun new => quiet _ new
  · intro e quiet
    cases e <;> first | exact quiet.elim | rfl

theorem push {w : Work P} (counts : Counts (w.hooks ++ hs) x)
    (returns : ∀ e, w = .emit e → e.Returns) : Counts hs (x.push w) := by
  refine counts.of_same rfl (fun _ => ⟨rfl, rfl⟩) rfl (fun p => ?_) (fun e mem => ?_) (fun _ => rfl)
    fun _ => rfl
  · rw [due_push, List.countP_append]
    omega
  · exact (List.mem_cons.mp mem).symm.imp_right fun same => returns e same.symm

theorem wake {w : Wake P} (counts : Counts (w.hooks ++ hs) x) : Counts hs (x.wake w) := by
  refine counts.of_same rfl (fun _ => ⟨rfl, rfl⟩) rfl (fun p => ?_) (fun e => .inl) (fun _ => rfl)
    fun _ => rfl
  rw [due_wake, List.countP_append]
  omega

theorem taken (counts : Counts hs x) {w : Work P} {rest : List (Work P)}
    (agenda : x.agenda = w :: rest) : Counts (w.hooks ++ hs) { x with agenda := rest } := by
  refine counts.of_same rfl (fun _ => ⟨rfl, rfl⟩) rfl (fun p => ?_) (fun e mem => .inl ?_)
    (fun _ => rfl) fun _ => rfl
  · rw [due_taken agenda, List.countP_append]
    omega
  · rw [agenda]
    exact List.mem_cons_of_mem _ mem

theorem record (counts : Counts hs x) {e : Event} (enrols : ∀ tag, e.enrols tag = false)
    (hears : ∀ tag, e.hears tag = false) : Counts hs (x.record e) := by
  refine counts.of_same rfl (fun _ => ⟨rfl, rfl⟩) rfl (fun _ => rfl) (fun _ => .inl) (fun tag => ?_)
    fun tag => ?_
  · simp [enrolments, Exchange.record, enrols]
  · simp [hearings, Exchange.record, hears]

/-! ## Closings -/

theorem length (counts : Counts hs x) : x.streams.length = 1 := by
  simpa using congrArg List.length counts.kinds

theorem has (counts : Counts hs x) (side : Side) : x.Has ⟨0, side⟩ := by
  rw [Has, counts.length]
  exact Nat.one_pos

/-- Whatever was attached to a half is to be called once the half is closed. -/
theorem mark (counts : Counts hs x) (isOpen : (x.half h).closed = false) :
    Counts ((x.half h).hooks ++ hs)
      ((x.modifyHalf h fun half => { half with closed := true }).record (.closed h)) := by
  obtain ⟨i, side⟩ := h
  obtain rfl : i = 0 := by
    have below := has_of_open isOpen
    rw [Has, counts.length] at below
    exact Nat.lt_one_iff.mp below
  have half (h') : ((x.modifyHalf ⟨0, side⟩ fun half => { half with closed := true }).record
      (.closed ⟨0, side⟩)).half h' =
      if h' = ⟨0, side⟩ then { x.half ⟨0, side⟩ with closed := true } else x.half h' := by
    split
    next here => exact here ▸ half_modifyHalf (counts.has side) _
    next there => exact half_modifyHalf_of_ne there _
  have tokens (p) : ((x.modifyHalf ⟨0, side⟩ fun half => { half with closed := true }).record
      (.closed ⟨0, side⟩)).tokens p + (x.half ⟨0, side⟩).hooks.countP p = x.tokens p := by
    have due : ((x.modifyHalf ⟨0, side⟩ fun half => { half with closed := true }).record
        (.closed ⟨0, side⟩)).due p = x.due p := rfl
    simp only [Exchange.tokens, Exchange.attached, due, half]
    cases side <;> simp [isOpen] <;> omega
  have total (p) : ((x.modifyHalf ⟨0, side⟩ fun half => { half with closed := true }).record
      (.closed ⟨0, side⟩)).tokens p + ((x.half ⟨0, side⟩).hooks ++ hs).countP p =
      x.tokens p + hs.countP p := by
    rw [List.countP_append, ← Nat.add_assoc, tokens]
  refine ⟨(kinds_modifyHalf _ _).trans counts.kinds, fun n entry found => ?_, ?_,
    fun other stillOpen n lt => ?_,
    counts.returns, counts.emissions, counts.enrolled, fun tag => ?_⟩
  · rw [total]
    exact counts.left n entry found
  · rw [total]
    exact counts.strays
  · rw [half] at stillOpen ⊢
    split at stillOpen
    · cases stillOpen
    next there =>
      rw [if_neg there]
      exact counts.attached other stillOpen n lt
  · exact counts.heard tag

theorem announce (counts : Counts ((x.half h).hooks ++ hs) x) {next : Work P}
    (discreet : next.Discreet) : Counts hs (x.announce h next) := by
  have pushed := counts.discreet (.push x discreet)
  simp only [Exchange.announce]
  split
  next none =>
    have empty : (x.half h).hooks = [] := List.isEmpty_iff.mp none
    rwa [empty] at pushed
  next some => exact push (w := .emit _) pushed (by rintro e ⟨⟩ actions reply ⟨⟩)

theorem closeHalf (counts : Counts hs x) (guarded : (x.half h).Guarded) {next : Work P}
    (discreet : next.Discreet) : Counts hs (x.closeHalf h next) := by
  by_cases isClosed : (x.half h).closed = true
  · rw [closeHalf_of_closed isClosed]
    exact counts.discreet (.push x discreet)
  · rw [Bool.not_eq_true] at isClosed
    rw [closeHalf_of_open guarded isClosed]
    have kept :=
      Discreet.closeChannel h (x.half h).channel.receivers ((x.half h).channel.senders.map (·.2))
      ((x.modifyHalf h fun half => { half with closed := true }).record (.closed h))
    refine announce ?_ discreet
    have hooks : ((x.modifyHalf h fun half => { half with closed := true }).half h).hooks =
        (x.half h).hooks := by
      rw [half_modifyHalf (has_of_open isClosed)]
    rw [kept.hooks]
    change Counts (((x.modifyHalf h fun half => { half with closed := true }).half h).hooks ++ hs) _
    rw [hooks]
    exact (counts.mark isClosed).discreet kept

/-! ## Registrations -/

theorem kindOf (counts : Counts hs x) : x.kindOf 0 = .upload := by
  have first : (x.streams.map (·.kind))[0]? = some .upload := by rw [counts.kinds]; rfl
  rw [List.getElem?_map] at first
  simp only [Exchange.kindOf, first]
  rfl

theorem unused (counts : Counts hs x) {p : Hook → Bool}
    (stray : ∀ hook, p hook = true → hook.isStray x.countdowns.length = true) :
    x.tokens p = 0 ∧ hs.countP p = 0 := by
  have none := counts.strays
  have fewer (hooks : List Hook) : hooks.countP p ≤ hooks.countP (·.isStray x.countdowns.length) :=
    List.countP_mono_left fun hook _ => stray hook
  have less : x.tokens p ≤ x.tokens (·.isStray x.countdowns.length) :=
    Nat.add_le_add (Nat.add_le_add (fewer _) (fewer _)) (Nat.add_le_add (fewer _) (fewer _))
  have less' := fewer hs
  omega

theorem enrol (counts : Counts hs x) {l : Listener} (returns : l.Returns) (n : Nat) :
    Counts hs ((x.record (.called n (.stream 0 (.whenClosed l)))).whenClosed 0 l) := by
  have upload : (x.record (.called n (.stream 0 (.whenClosed l)))).kindOf 0 = .upload :=
    counts.kindOf
  rw [whenClosed_upload upload]
  have same := waitBoth_same l (x.record (.called n (.stream 0 (.whenClosed l))))
  have tokens (p) : (waitBoth l (x.record (.called n (.stream 0 (.whenClosed l))))).tokens p =
      x.tokens p + if p (.half x.countdowns.length) then 2 else 0 := tokens_waitBoth _ _ p
  generalize waited : waitBoth l (x.record (.called n (.stream 0 (.whenClosed l)))) = y
    at same tokens
  obtain ⟨kinds, countdowns, agenda, journal⟩ : y.streams.map (·.kind) = x.streams.map (·.kind) ∧
    y.countdowns = x.countdowns ++ [(2, l)] ∧ y.agenda = x.agenda ∧
    y.journal = .called n (.stream 0 (.whenClosed l)) :: x.journal := same
  refine ⟨kinds.trans counts.kinds, ?_, ?_, ?_, ?_, ?_, ?_, ?_⟩
  · intro m entry entered
    rw [countdowns, List.getElem?_append] at entered
    rw [tokens]
    split at entered
    next lt =>
      rw [Hook.isHalf_of_ne (Nat.ne_of_gt lt)]
      exact counts.left m entry entered
    next ge =>
      obtain ⟨zero, rfl⟩ := List.getElem?_eq_some_iff.mp entered
      rw [List.length_singleton, Nat.lt_one_iff, Nat.sub_eq_zero_iff_le] at zero
      obtain rfl : m = x.countdowns.length := Nat.le_antisymm zero (Nat.le_of_not_lt ge)
      obtain ⟨none, none'⟩ :=
        counts.unused (p := Hook.isHalf x.countdowns.length) fun hook isHalf => by
        cases hook <;> simp_all [Hook.isHalf, Hook.isStray]
      rw [none, none', Hook.isHalf_self]
      simp
  · rw [tokens, countdowns, List.length_append]
    obtain ⟨none, none'⟩ :=
      counts.unused (p := Hook.isStray (x.countdowns.length + 1)) fun hook stray => by
      cases hook with
      | direct => rfl
      | half m =>
          simp only [Hook.isStray, decide_eq_true_eq] at stray ⊢
          omega
    have kept : (Hook.half x.countdowns.length).isStray (x.countdowns.length + 1) = false := by
      simp [Hook.isStray]
    rw [List.length_singleton, none, none', kept]
    rfl
  · intro side isOpen m lt
    rw [countdowns, List.length_append] at lt
    subst waited
    rw [closed_waitBoth] at isOpen
    refine mem_hooks_waitBoth isOpen ((Nat.lt_succ_iff_lt_or_eq.mp lt).imp_left fun old => ?_)
    exact counts.attached side isOpen m old
  · rw [countdowns]
    exact List.forall_mem_append.mpr ⟨counts.returns, List.forall_mem_singleton.mpr returns⟩
  · rw [agenda]
    exact counts.emissions
  · intro tag
    rw [countdowns, List.countP_append, ← counts.enrolled, enrolments, journal]
    simp [List.countP_cons, Event.enrols, enrolments]
  · intro tag
    rw [countdowns, List.countP_append, ← counts.heard, hearings, journal]
    simp [Event.hears, hearings]

/-! ## Steps -/

/-- A token that is called takes one off its countdown, and the last one calls the listener. -/
theorem count {n k : Nat} {l : Listener} (counts : Counts (.half n :: hs) x)
    (found : x.countdowns[n]? = some (k + 1, l)) (streams : y.streams = x.streams)
    (countdowns : y.countdowns = x.countdowns.set n (k, l)) (due : ∀ p, y.due p = x.due p)
    (agenda : y.agenda = x.agenda) (enrolled : ∀ tag, y.enrolments tag = x.enrolments tag)
    (heard : ∀ tag, y.hearings tag = x.hearings tag + if k == 0 && l.shows tag then 1 else 0) :
    Counts hs y := by
  have halves (h) : y.half h = x.half h := half_congr streams h
  have tokens (p) : y.tokens p = x.tokens p := by
    simp only [Exchange.tokens, Exchange.attached, halves, due]
  obtain ⟨lt, entry⟩ := List.getElem?_eq_some_iff.mp found
  refine ⟨streams ▸ counts.kinds, ?_, ?_, ?_, ?_, agenda ▸ counts.emissions, ?_, ?_⟩
  · intro m other other_found
    rw [countdowns] at other_found
    rw [tokens]
    by_cases here : n = m
    · subst here
      rw [List.getElem?_set_self lt] at other_found
      obtain rfl := Option.some.inj other_found
      have left := counts.left n _ found
      rw [List.countP_cons, Hook.isHalf_self, if_pos rfl] at left
      omega
    · rw [List.getElem?_set_ne here] at other_found
      have left := counts.left m other other_found
      rwa [List.countP_cons, Hook.isHalf_of_ne here] at left
  · have strays := counts.strays
    rw [List.countP_cons] at strays
    rw [tokens, countdowns, List.length_set]
    omega
  · intro side isOpen m below
    rw [halves] at isOpen ⊢
    rw [countdowns, List.length_set] at below
    exact counts.attached side isOpen m below
  · intro other mem
    rw [countdowns] at mem
    rcases List.mem_or_eq_of_mem_set mem with old | rfl
    · exact counts.returns other old
    · exact counts.returns (k + 1, l) (List.mem_of_getElem? found)
  · intro tag
    have sum :=
      List.countP_set (p := fun entry : Nat × Listener => entry.2.shows tag) (a := (k, l)) lt
    have counted : (if l.shows tag then 1 else 0) ≤ x.countdowns.countP (·.2.shows tag) := by
      split
      next shows => exact List.countP_pos_iff.mpr ⟨_, List.mem_of_getElem? found, shows⟩
      · exact Nat.zero_le _
    rw [enrolled, countdowns, sum, entry, counts.enrolled]
    dsimp only
    omega
  · intro tag
    have sum :=
      List.countP_set (p := fun entry : Nat × Listener => entry.1 == 0 && entry.2.shows tag)
      (a := (k, l)) lt
    rw [heard, countdowns, sum, entry, counts.heard]
    simp

theorem startHook {hook : Hook} (counts : Counts (hook :: hs) x) (argument : Value) :
    Counts hs (x.startHook hook argument).1 ∧
    (x.startHook hook argument).2.findSome? Action.thrown? = none := by
  have belongs : hook.isStray x.countdowns.length = false := by
    have none := counts.strays
    rw [List.countP_cons] at none
    by_contra stray
    rw [Bool.not_eq_false] at stray
    simp [stray] at none
  cases hook with
  | direct => cases belongs
  | half n =>
      have lt : n < x.countdowns.length := by simpa [Hook.isStray] using belongs
      obtain ⟨⟨k, l⟩, found⟩ : ∃ entry, x.countdowns[n]? = some entry :=
        ⟨_, List.getElem?_eq_getElem lt⟩
      have returns := counts.returns _ (List.mem_of_getElem? found)
      have left := counts.left n _ found
      rw [List.countP_cons, Hook.isHalf_self, if_pos rfl] at left
      obtain ⟨k, rfl⟩ : ∃ k', k = k' + 1 := ⟨k - 1, by dsimp only at left; omega⟩
      simp only [Exchange.startHook, found, Nat.add_sub_cancel, Nat.add_eq_right]
      split
      next last =>
        subst last
        cases l with
        | script tag actions =>
            refine ⟨counts.count found rfl rfl (fun _ => rfl) rfl (fun _ => ?_) fun _ => ?_,
              returns⟩
            · simp [startListener, Exchange.record, enrolments, Event.enrols]
            · simp [startListener, Exchange.record, hearings, Event.hears, Listener.shows,
                List.countP_cons]
        | forget i =>
            refine ⟨counts.count found rfl rfl (fun _ => rfl) rfl (fun _ => rfl) fun _ => ?_, rfl⟩
            simp [startListener, hearings, Listener.shows]
      next more =>
        refine ⟨counts.count found rfl rfl (fun _ => rfl) rfl (fun _ => rfl) fun _ => ?_, rfl⟩
        simp [more, hearings]

theorem startStream (counts : Counts hs x) {c : StreamCall}
    (peaceful : (Call.stream 0 c).Peaceful) (n : Nat) :
    Counts hs ((x.record (.called n (.stream 0 c))).startStream n 0 c) := by
  have recorded (quiet : ∀ tag, Event.enrols tag (.called n (.stream 0 c)) = false) :
      Counts hs (x.record (.called n (.stream 0 c))) := counts.record quiet fun _ => rfl
  cases c with
  | method role m => exact (recorded fun _ => rfl).discreet (.enterEntry _ _ _ _)
  | close side => exact (recorded fun _ => rfl).discreet (.push _ trivial)
  | whenClosed l => exact (counts.enrol peaceful n).discreet (.answer _ _ _)
  | identified => exact (recorded fun _ => rfl).discreet (.answer _ _ _)
  | read => exact (recorded fun _ => rfl).discreet (.push _ trivial)
  | write bucket key source =>
      have counted {y : Exchange P} : Discreet y y.nextSource := { Discreet.refl y with }
      exact (recorded fun _ => rfl).discreet (counted.thenPush trivial)

theorem command (counts : Counts hs x) {command : Command}
    (peaceful : ∀ c, command = .call c → c.Peaceful) : Counts hs (x.command command) := by
  cases command with
  | settle name o =>
      have due (p) := due_settleGate (p := p) name o x
      rw [Exchange.command]
      rcases settleGate_cases name o x with same | ⟨-, waiting, woken, after, -, -⟩
      · rw [same]
        exact counts
      · rw [after] at due ⊢
        exact counts.of_same rfl (fun _ => ⟨rfl, rfl⟩) rfl (fun p => congrArg (· + _) (due p))
          (fun _ => .inl) (fun _ => rfl) fun _ => rfl
  | call c =>
      have counted : Counts hs { x with calls := x.calls + 1 } :=
        counts.of_same rfl (fun _ => ⟨rfl, rfl⟩) rfl (fun _ => rfl) (fun _ => .inl) (fun _ => rfl)
        fun _ => rfl
      have calm := peaceful c rfl
      cases c with
      | stream i c =>
          cases i with
          | zero => exact counted.startStream calm _
          | succ i => exact calm.elim
      | plugin | emitter => exact calm.elim

theorem emission {e : Emission (Work P)} (closure : e.purpose.Sober fun _ => False)
    (returns : e.Returns) (counts : Counts (e.rest ++ hs) x)
    (peaceful : ∀ c actions reply, e.current = some (.performs (.call c) :: actions, reply) →
      c.Peaceful) : Counts hs (x.emission e) := by
  have goesOn {y : Exchange P} {current replies rest} (still : Counts (rest ++ hs) y)
      (calm : ∀ actions reply, current = some (actions, reply) →
        actions.findSome? Action.thrown? = none) :
      Counts hs (y.push (.emit ⟨current, replies, rest, e.argument, e.purpose⟩)) := by
    refine push (w := .emit _) still ?_
    rintro e ⟨⟩
    exact calm
  have later {action actions} {reply reply' : Reply}
      (current : e.current = some (action :: actions, reply)) :
      ∀ others r, some (actions, reply') = some (others, r) →
      others.findSome? Action.thrown? = none := by
    rintro others r ⟨⟩
    exact List.findSome?_eq_none_iff.mpr fun other mem =>
      List.findSome?_eq_none_iff.mp (returns _ _ current) other (List.mem_cons_of_mem _ mem)
  unfold Exchange.emission
  split
  next v actions reply current => cases returns _ _ current
  next current => exact goesOn counts (later current)
  next current => exact goesOn counts (later current)
  next c actions reply current =>
    refine (goesOn counts (later current)).command fun call same => peaceful call actions reply ?_
    rw [current, same]
  · exact goesOn counts nofun
  · cases rest : e.rest with
    | nil =>
        rw [rest] at counts
        simp only [completed]
        cases purpose : e.purpose with
        | closure => exact counts.discreet (.awaitReplies _ _ x)
        | lateClosure =>
            simp only [lateWitness]
            split
            · exact counts.discreet (.wake x rfl)
            · exact counts.discreet (.awaitReplies _ _ x)
        | awaited | plainLasting | plainLast | closing =>
            rw [purpose] at closure
            exact closure.elim
    | cons hook hooks =>
        rw [rest] at counts
        obtain ⟨started, calm⟩ := startHook counts e.argument
        refine goesOn started ?_
        rintro actions reply ⟨⟩
        exact calm

theorem work {w : Work P} (guarded : ∀ h, (x.half h).Guarded) (sober : w.Sober fun _ => False)
    (returns : ∀ e, w = .emit e → e.Returns) (counts : Counts (w.hooks ++ hs) x)
    (peaceful : ∀ e c actions reply, w = .emit e →
      e.current = some (.performs (.call c) :: actions, reply) → c.Peaceful) :
    Counts hs (x.work w) := by
  have discreet (discreet : w.Discreet) (closes : ∀ h next, w ≠ .close h next) :
      Counts hs (x.work w) := by
    rw [discreet.hooks] at counts
    exact counts.discreet (.work discreet closes x)
  cases w with
  | run w =>
      cases w with
      | late hook label turns =>
          cases turns with
          | zero => exact push (w := .emit _) counts (by rintro e ⟨⟩ actions reply ⟨⟩)
          | succ turns => exact wake (w := .late hook label turns) counts
      | sent | received | returned => exact discreet trivial (by simp)
  | close h next =>
      have calm := sober.discreet
      rw [Work.hooks, calm.hooks] at counts
      exact counts.closeHalf (guarded h) calm
  | emit e =>
      exact emission sober (returns e rfl) counts fun c actions reply =>
        peaceful e c actions reply rfl
  | give | receive | enter | serve | deliver => exact discreet trivial (by simp)

theorem move {allowed : Command → Prop} (counts : Counts [] x) {past : List Event}
    (sound : Sound past x) (sober : x.Sober) (move : Move allowed x y)
    (peaceful : ∀ n c, .called n c ∈ y.journal → c.Peaceful) : Counts [] y := by
  have grown := move.suffix
  cases move with
  | @work w rest agenda =>
      have first : w ∈ x.agenda := agenda ▸ List.mem_cons_self
      have closures : w.Sober fun _ => False :=
        (sober.work w first).mono fun n ⟨event, c, called⟩ =>
          peaceful n _ (grown.subset called)
      refine work (fun h => (sound.aligned h).guarded) closures ?_ (counts.taken agenda) ?_
      · rintro e rfl
        exact counts.emissions e first
      · rintro e c actions reply rfl current
        exact peaceful x.calls c (called_of_performs current _)
  | @resume place quiet lt =>
      have due (p) := due_resume (p := p) quiet lt
      unfold resume at due ⊢
      rw [List.getElem?_eq_getElem lt] at due ⊢
      refine counts.of_same rfl (fun _ => ⟨rfl, rfl⟩) rfl (fun p => congrArg (· + _) (due p))
        (fun e mem => ?_) (fun _ => rfl) fun _ => rfl
      cases List.mem_singleton.mp mem
  | @command command quiet =>
      refine counts.command fun c same => peaceful x.calls c ?_
      subst same
      exact mem_called c x

/-- While a half is open nobody was called. -/
theorem unheard (counts : Counts hs x) {side : Side} (isOpen : (x.half ⟨0, side⟩).closed = false)
    (tag : String) : x.hearings tag = 0 := by
  rw [counts.heard]
  refine List.countP_eq_zero.mpr fun entry mem heard => ?_
  obtain ⟨n, lt, rfl⟩ := List.mem_iff_getElem.mp mem
  have left := counts.left n _ (List.getElem?_eq_getElem lt)
  have one : 1 ≤ (x.attached ⟨0, side⟩).countP (·.isHalf n) := by
    rw [Exchange.attached, isOpen, if_neg Bool.false_ne_true]
    exact List.countP_pos_iff.mpr ⟨_, counts.attached side isOpen n lt, Hook.isHalf_self n⟩
  have zero : (x.countdowns[n]).1 = 0 := by simpa using (Bool.and_eq_true_iff.mp heard).1
  rw [Exchange.tokens] at left
  cases side <;> omega

/-- When both halves are closed and nothing can go on, everybody was called. -/
theorem all_heard (counts : Counts [] x) (quiet : x.isQuiet = true)
    (closed : ∀ side, (x.half ⟨0, side⟩).closed = true) (tag : String) :
    x.hearings tag = x.enrolments tag := by
  obtain ⟨agenda, ready⟩ : x.agenda = [] ∧ x.ready = [] := by simpa [isQuiet] using quiet
  have none (p) : x.tokens p = 0 := by
    simp [Exchange.tokens, Exchange.attached, closed, due, agenda, ready]
  rw [counts.heard, counts.enrolled]
  refine List.countP_congr fun entry mem => ?_
  obtain ⟨n, lt, rfl⟩ := List.mem_iff_getElem.mp mem
  have left := counts.left n _ (List.getElem?_eq_getElem lt)
  rw [none, List.countP_nil] at left
  simp [← left]

end Counts

/-! ## Runs -/

theorem counts_ofStreams (P : Plugin) : Counts [] (ofStreams P [.upload]) := by
  refine ⟨rfl, ?_, rfl, ?_, List.forall_mem_nil _, ?_, fun _ => rfl, fun _ => rfl⟩
  · rintro n entry found
    cases found
  · rintro side - n lt
    cases lt
  · rintro e mem
    cases mem

theorem Run.counts (run : Run (fun _ => True) (ofStreams P [.upload]) x)
    (peaceful : ∀ n c, .called n c ∈ x.journal → c.Peaceful) : Counts [] x := by
  induction run with
  | refl => exact counts_ofStreams P
  | @step y z before move ih =>
      have sound := Run.sound before (sound_ofStreams P [.upload])
      exact (ih fun n c called => peaceful n c (move.suffix.subset called)).move sound before.sober
        move peaceful

/-- However an upload is used, by the listeners for its closure as well, if none of these throws:
none is called while a half is open, each is called at most once, and exactly once when both halves
are closed and nothing can go on. -/
theorem closed_upload_heard (run : Run (fun _ => True) (ofStreams P [.upload]) x)
    (peaceful : ∀ n c, .called n c ∈ x.journal → c.Peaceful) (tag : String) :
    (∀ side, (x.half ⟨0, side⟩).closed = false → x.hearings tag = 0) ∧
      x.hearings tag ≤ x.enrolments tag ∧
      (x.isQuiet = true → (∀ side, (x.half ⟨0, side⟩).closed = true) →
        x.hearings tag = x.enrolments tag) := by
  have counts := run.counts peaceful
  refine ⟨fun side isOpen => counts.unheard isOpen tag, ?_,
    fun quiet closed => counts.all_heard quiet closed tag⟩
  rw [counts.heard, counts.enrolled]
  exact List.countP_mono_left fun entry _ heard => (Bool.and_eq_true_iff.mp heard).2

/-- A listener that fails later, registers another one and closes a half again. -/
def restless : Listener :=
  .script "first" [
    .rejects .null,
    .performs (.call (.stream 0 (.whenClosed (.script "inner" [])))),
    .performs (.call (.stream 0 (.close .requests)))]

/-- Listeners are registered before, between and, at once, after the closings of the halves. -/
def visited : Exchange .idle :=
  let x :=
    ((ofStreams .idle [.upload]).command (.call (.stream 0 (.whenClosed restless)))).advance 30
  let x := (x.command (.call (.stream 0 (.close .requests)))).advance 30
  let x := (x.command (.call (.stream 0 (.whenClosed (.script "second" []))))).advance 30
  let x := (x.command (.call (.stream 0 (.close .responses)))).clear 20
  (x.command (.call (.stream 0 (.whenClosed (.script "last" []))))).advance 90

/-- All of them were called once. -/
theorem visited_heard : visited.isQuiet = true ∧ (visited.half ⟨0, .requests⟩).closed = true ∧
    (visited.half ⟨0, .responses⟩).closed = true ∧ visited.enrolments "inner" = 1 ∧
    visited.hearings "inner" = visited.enrolments "inner" := by
  have before : Run (fun _ => True) (ofStreams .idle [.upload]) _ :=
    (Run.refl.command (c := .call (.stream 0 (.whenClosed restless))) rfl trivial 30).command
      (c := .call (.stream 0 (.close .requests))) rfl trivial 30
  have between :=
    before.command (c := .call (.stream 0 (.whenClosed (.script "second" [])))) rfl trivial 30
  have closed :=
    (between.step (.command (c := .call (.stream 0 (.close .responses))) rfl trivial)).trans
    (run_clear 20 _)
  have run : Run (fun _ => True) (ofStreams .idle [.upload]) visited :=
    closed.command (c := .call (.stream 0 (.whenClosed (.script "last" [])))) rfl trivial 90
  have peaceful : visited.journal.all (·.keepsTo fun c => decide c.Peaceful) = true := rfl
  obtain ⟨-, -, all⟩ := closed_upload_heard run
    (fun n c called => of_decide_eq_true (called_of_all peaceful called)) "inner"
  exact ⟨rfl, rfl, rfl, rfl, all rfl fun side => by cases side <;> rfl⟩

end Exchange

end ObjectTransfer
