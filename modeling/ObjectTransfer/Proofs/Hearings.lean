import ObjectTransfer.Proofs.Discretion

/-! # Calling listeners

How often listeners were called is told from the journal by their tags, and what is still to be
called from the agenda and the ready tasks. What a listener does is decided by its actions: it
throws the first value that one of them throws, or it returns.
-/

namespace ObjectTransfer

variable {P : Plugin}

def Action.thrown? : Action → Option Value
  | throws v => some v
  | _ => none

namespace Listener

def actions : Listener → List Action
  | script _ as => as
  | forget _ => []

/-- What a listener throws, unless it returns. -/
def thrown? (l : Listener) : Option Value := l.actions.findSome? Action.thrown?

def Returns (l : Listener) : Prop := l.thrown? = none

instance (l : Listener) : Decidable l.Returns := inferInstanceAs (Decidable (l.thrown? = none))

end Listener

/-- Whether a call of a listener shows under a tag. -/
def Listener.shows (tag : String) : Listener → Bool
  | script t _ => t == tag
  | forget _ => false

theorem Listener.tag_of_shows {tag : String} {l : Listener} (shows : l.shows tag = true) :
    l.tag = tag := by
  cases l with
  | script t actions => simpa [Listener.shows, Listener.tag] using shows
  | forget => cases shows

/-- Whether what is attached to a closure or called by an emission is a listener of a tag. -/
def Hook.shows (tag : String) : Hook → Bool
  | direct l => l.shows tag
  | half _ => false

def Event.hears (tag : String) : Event → Bool
  | heard t _ => t == tag
  | _ => false

/-- Whether an event, if it is the beginning of a call, is that of such a call. -/
def Event.keepsTo (p : Call → Bool) : Event → Bool
  | called _ c => p c
  | _ => true

namespace Exchange

variable {x y : Exchange P}

theorem called_of_all {p : Call → Bool} (all : x.journal.all (·.keepsTo p) = true)
    {n : Nat} {c : Call} (called : .called n c ∈ x.journal) : p c = true :=
  List.all_eq_true.mp all _ called

/-- The first settlement of a gate is the last thing that happened to gates, and lets some of the
tasks go on that waited. -/
theorem settleGate_cases (name : String) (o : Outcome) (x : Exchange P) :
    x.settleGate name o = x ∨ x.gates.outcome? name = none ∧ ∃ waiting woken,
      x.settleGate name o =
        { x with gates := ⟨(name, o) :: x.gates.settled, waiting⟩, ready := x.ready ++ woken } ∧
      (∀ entry ∈ waiting, ∃ before ∈ x.gates.waiting, entry.2 = before.2) ∧
      ∀ w ∈ woken, ∃ before ∈ x.gates.waiting, ∃ o, w = .returned o before.2 := by
  have after (before : List String × Task P) :
      (∃ missing, afterGate name o before = .inl (missing, before.2)) ∨
      ∃ o', afterGate name o before = .inr (.returned o' before.2) := by
    unfold afterGate
    split
    · split
      · exact .inr ⟨_, rfl⟩
      · dsimp only
        split
        · exact .inr ⟨_, rfl⟩
        · exact .inl ⟨_, rfl⟩
    · exact .inl ⟨before.1, rfl⟩
  by_cases settled : (x.gates.outcome? name).isSome
  · exact .inl (if_pos settled)
  · refine .inr ⟨by simpa using settled, _, _, if_neg settled, fun entry mem => ?_, fun w mem => ?_⟩
    · obtain ⟨result, inside, left⟩ := List.mem_filterMap.mp mem
      obtain ⟨before, waits, rfl⟩ := List.mem_map.mp inside
      rcases after before with ⟨missing, stays⟩ | ⟨o', goes⟩
      · rw [stays] at left
        exact ⟨before, waits, (congrArg Prod.snd (Option.some.inj left)).symm⟩
      · rw [goes] at left
        cases left
    · obtain ⟨result, inside, left⟩ := List.mem_filterMap.mp mem
      obtain ⟨before, waits, rfl⟩ := List.mem_map.mp inside
      rcases after before with ⟨missing, stays⟩ | ⟨o', goes⟩
      · rw [stays] at left
        cases left
      · rw [goes] at left
        exact ⟨before, waits, o', (Option.some.inj left).symm⟩

/-! ## Hearings -/

/-- How often listeners of a tag were called. -/
def hearings (x : Exchange P) (tag : String) : Nat := x.journal.countP (·.hears tag)

def due (x : Exchange P) (p : Hook → Bool) : Nat :=
  (x.agenda.flatMap Work.hooks).countP p + (x.ready.flatMap Wake.hooks).countP p

variable {p : Hook → Bool}

@[simp] theorem due_push (x : Exchange P) (w : Work P) :
    (x.push w).due p = w.hooks.countP p + x.due p := by
  simp only [due, push, List.flatMap_cons, List.countP_append, Nat.add_assoc]

@[simp] theorem due_wake (x : Exchange P) (w : Wake P) :
    (x.wake w).due p = w.hooks.countP p + x.due p := by
  simp only [due, wake, List.flatMap_append, List.flatMap_singleton, List.countP_append]
  omega

theorem due_taken {w : Work P} {rest : List (Work P)} (agenda : x.agenda = w :: rest) :
    x.due p = w.hooks.countP p + due { x with agenda := rest } p := by
  simp only [due, agenda, List.flatMap_cons, List.countP_append, Nat.add_assoc]

theorem due_resume {place : Nat} (quiet : x.agenda = []) (lt : place < x.ready.length) :
    (x.resume place).due p = x.due p := by
  have parts := ((List.getElem_cons_eraseIdx_perm lt).flatMap_right Wake.hooks).countP_eq p
  rw [List.flatMap_cons, List.countP_append] at parts
  unfold resume
  rw [List.getElem?_eq_getElem lt]
  simp only [due, quiet, List.flatMap_nil, List.countP_nil, List.flatMap_singleton, Work.hooks]
  omega

theorem due_settleGate (name : String) (o : Outcome) (x : Exchange P) :
    (x.settleGate name o).due p = x.due p := by
  rcases settleGate_cases name o x with same | ⟨-, waiting, woken, after, -, goes⟩
  · rw [same]
  · have none : woken.flatMap Wake.hooks = [] := List.flatMap_eq_nil_iff.mpr fun w mem => by
      obtain ⟨before, -, o', rfl⟩ := goes w mem
      rfl
    rw [after]
    simp [due, none]

namespace Discreet

theorem due (discreet : Discreet x y) : y.due p = x.due p := by
  obtain ⟨ws, agenda, works⟩ := discreet.agenda
  obtain ⟨ws', ready, hooks⟩ := discreet.ready
  have none : ws.flatMap Work.hooks = [] :=
    List.flatMap_eq_nil_iff.mpr fun w mem => (works w mem).hooks
  have none' : ws'.flatMap Wake.hooks = [] := List.flatMap_eq_nil_iff.mpr hooks
  simp [Exchange.due, agenda, ready, none, none']

theorem suffix (discreet : Discreet x y) : x.journal <:+ y.journal := by
  obtain ⟨es, journal, -⟩ := discreet.journal
  exact ⟨es, journal.symm⟩

theorem countP_journal (discreet : Discreet x y) {p : Event → Bool}
    (deaf : ∀ e : Event, e.IsDiscreet → p e = false) : y.journal.countP p = x.journal.countP p := by
  obtain ⟨es, journal, quiet⟩ := discreet.journal
  have none : es.countP p = 0 := List.countP_eq_zero.mpr fun e mem => by simp [deaf e (quiet e mem)]
  rw [journal, List.countP_append, none, Nat.zero_add]

theorem hearings (discreet : Discreet x y) : y.hearings tag = x.hearings tag :=
  discreet.countP_journal fun e quiet => by
    cases e <;> first | exact quiet.elim | rfl

end Discreet

/-! ## Growth -/

theorem attach_same (h : HalfId) (hook : Hook) (x : Exchange P) :
    (x.attach h hook).streams.map (·.kind) = x.streams.map (·.kind) ∧
      (x.attach h hook).countdowns = x.countdowns ∧ (x.attach h hook).agenda = x.agenda ∧
      (x.attach h hook).journal = x.journal := by
  simp only [attach]
  split
  · exact ⟨rfl, rfl, rfl, rfl⟩
  · exact ⟨kinds_modifyHalf _ _, rfl, rfl, rfl⟩

/-- Whether nothing that happened is forgotten, and nothing that is to be done. -/
structure Grows (x y : Exchange P) : Prop where
  journal : x.journal <:+ y.journal
  agenda : x.agenda <:+ y.agenda
  ready : x.ready <+: y.ready

theorem Discreet.grows (discreet : Discreet x y) : Grows x y where
  journal := discreet.suffix
  agenda := by
    obtain ⟨ws, agenda, -⟩ := discreet.agenda
    exact ⟨ws, agenda.symm⟩
  ready := by
    obtain ⟨ws, ready, -⟩ := discreet.ready
    exact ⟨ws, ready.symm⟩

namespace Grows

theorem of_same (journal : y.journal = x.journal) (agenda : y.agenda = x.agenda)
    (ready : y.ready = x.ready) : Grows x y :=
  ⟨journal ▸ List.suffix_rfl, agenda ▸ List.suffix_rfl, ready ▸ List.prefix_rfl⟩

theorem refl (x : Exchange P) : Grows x x := of_same rfl rfl rfl

theorem trans {z : Exchange P} (first : Grows x y) (second : Grows y z) : Grows x z :=
  ⟨first.journal.trans second.journal, first.agenda.trans second.agenda,
    first.ready.trans second.ready⟩

theorem record (e : Event) (x : Exchange P) : Grows x (x.record e) :=
  { refl x with journal := List.suffix_cons _ _ }

theorem push (w : Work P) (x : Exchange P) : Grows x (x.push w) :=
  { refl x with agenda := List.suffix_cons _ _ }

theorem wake (w : Wake P) (x : Exchange P) : Grows x (x.wake w) :=
  { refl x with ready := List.prefix_append _ _ }

theorem attach (h : HalfId) (hook : Hook) (x : Exchange P) : Grows x (x.attach h hook) := by
  simp only [Exchange.attach]
  split
  · exact wake _ x
  · exact of_same rfl rfl rfl

theorem lenient : Lenient (Grows (P := P)) where
  trans := trans
  discreet := Discreet.grows
  push := push
  attach := attach
  counts _ _ := of_same rfl rfl rfl
  opens _ _ _ x := { refl x with journal := List.suffix_cons _ _ }
  registers _ _ := of_same rfl rfl rfl

theorem announce (h : HalfId) (next : Work P) (x : Exchange P) : Grows x (x.announce h next) := by
  simp only [Exchange.announce]
  split
  · exact push _ x
  · exact (push _ x).trans (push _ _)

theorem closeHalf (h : HalfId) (next : Work P) (x : Exchange P) : Grows x (x.closeHalf h next) := by
  have marked {streams} : Grows x ({ x with streams }.record (.closed h)) :=
    { refl x with journal := List.suffix_cons _ _ }
  simp only [Exchange.closeHalf]
  split
  · exact push _ x
  · split
    · exact (marked.trans (record _ _)).trans (push _ _)
    · split
      · exact marked.trans (push _ _)
      next receivers senders _ =>
        have closes := Discreet.closeChannel h receivers senders
          ((x.modifyHalf h fun half => { half with closed := true }).record (.closed h))
        exact (marked.trans closes.grows).trans (announce _ _ _)

theorem called (c : Call) (x : Exchange P) : Grows (x.record (.called x.calls c))
    (x.command (.call c)) := by
  have numbered : Grows (x.record (.called x.calls c))
      ({ x with calls := x.calls + 1 }.record (.called x.calls c)) := of_same rfl rfl rfl
  exact numbered.trans (lenient.start _ _ _)

theorem command (c : Command) (x : Exchange P) : Grows x (x.command c) := by
  cases c with
  | settle name o =>
      rw [Exchange.command]
      rcases settleGate_cases name o x with same | ⟨-, waiting, woken, after, -, -⟩
      · rw [same]
        exact refl x
      · rw [after]
        exact { refl x with ready := List.prefix_append _ _ }
  | call c => exact (record _ x).trans (called c x)

theorem startListener (l : Listener) (argument : Value) (x : Exchange P) :
    Grows x (x.startListener l argument).1 := by
  cases l with
  | script => exact record _ x
  | forget => exact of_same rfl rfl rfl

theorem startHook (hook : Hook) (argument : Value) (x : Exchange P) :
    Grows x (x.startHook hook argument).1 := by
  have counted {countdowns} : Grows x { x with countdowns } := of_same rfl rfl rfl
  cases hook with
  | direct l => exact startListener l argument x
  | half n =>
      simp only [Exchange.startHook]
      split
      · exact refl x
      · split
        · exact counted.trans (startListener _ _ _)
        · exact counted

theorem emission (e : Emission (Work P)) (x : Exchange P) : Grows x (x.emission e) := by
  unfold Exchange.emission
  split
  next v _ _ _ =>
    simp only [broken]
    cases e.purpose with
    | closure | lateClosure | awaited => exact wake _ x
    | closing => exact push _ x
    | plainLasting | plainLast => exact (Discreet.settle _ _ x).grows
  · exact push _ x
  · exact push _ x
  · exact (push _ x).trans (command _ _)
  · exact push _ x
  · cases e.rest with
    | nil =>
        simp only [completed]
        cases e.purpose with
        | closure | awaited => exact (Discreet.awaitReplies _ _ x).grows
        | lateClosure =>
            simp only [lateWitness]
            split
            · exact wake _ x
            · exact (Discreet.awaitReplies _ _ x).grows
        | plainLasting =>
            have cleared {emitter} : Grows x { x with emitter } := of_same rfl rfl rfl
            exact cleared.trans (push _ _)
        | plainLast => exact (Discreet.answer _ _ x).grows
        | closing => exact announce _ _ x
    | cons hook rest => exact (startHook hook e.argument x).trans (push _ _)

theorem work (w : Work P) (x : Exchange P) : Grows x (x.work w) := by
  have discreet (discreet : w.Discreet) (closes : ∀ h next, w ≠ .close h next) :
      Grows x (x.work w) :=
    (Discreet.work discreet closes x).grows
  cases w with
  | run w =>
      cases w with
      | late hook label turns =>
          cases turns with
          | zero => exact push _ x
          | succ => exact wake _ x
      | sent | received | returned => exact discreet trivial (by simp)
  | close h next => exact closeHalf h next x
  | emit e => exact emission e x
  | give | receive | enter | serve | deliver => exact discreet trivial (by simp)

end Grows

/-- Nothing that happened is forgotten. -/
theorem Move.suffix {allowed : Command → Prop} (move : Move allowed x y) :
    x.journal <:+ y.journal := by
  cases move with
  | @work w rest agenda => exact (Grows.work w { x with agenda := rest }).journal
  | resume =>
      unfold Exchange.resume
      split <;> exact List.suffix_rfl
  | command => exact (Grows.command _ _).journal

theorem mem_called (c : Call) (x : Exchange P) :
    .called x.calls c ∈ (x.command (.call c)).journal :=
  (Grows.called c x).journal.subset List.mem_cons_self

theorem called_of_performs {e : Emission (Work P)} {c : Call} {as : List Action} {r : Reply}
    (current : e.current = some (.performs (.call c) :: as, r)) (x : Exchange P) :
    .called x.calls c ∈ (x.emission e).journal := by
  have performed :
      x.emission e = (x.push (.emit { e with current := some (as, r) })).command (.call c) := by
    simp [emission, current]
  rw [performed]
  exact mem_called c _

end Exchange

end ObjectTransfer
