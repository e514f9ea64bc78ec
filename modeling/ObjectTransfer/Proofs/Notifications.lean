import ObjectTransfer.Exchange.Report
import ObjectTransfer.Proofs.Emissions

/-! # Listeners for the closure of a guard

A guard that closes performs its own actions first, calls the listeners that were registered before
it closed, one after another up to the first that throws, and lets each that was registered later go
on by itself. How far that got is told by a phase (`Exchange.Phase`), which every step of the
exchange keeps or brings forward.
-/

namespace ObjectTransfer

def Listener.shown? : Listener → Option String
  | script tag _ => some tag
  | forget _ => none

namespace Event

def heard? : Event → Option String
  | heard tag _ => some tag
  | _ => none

def enrolled? : Event → Option Listener
  | called _ (.stream _ (.whenClosed l)) => some l
  | _ => none

def isClosing : Event → Bool
  | closed _ => true
  | _ => false

/-- Of events, the latest first: the listeners that were registered before anything closed, in
order. -/
def early : List Event → List Listener
  | [] => []
  | e :: past => if past.any isClosing then early past else early past ++ e.enrolled?.toList

/-- Of events, the latest first: the listeners that were registered after something closed, in
order. -/
def late : List Event → List Listener
  | [] => []
  | e :: past => if past.any isClosing then late past ++ e.enrolled?.toList else []

/-- Whether an event is neither a closing nor a call that registers a listener for one. -/
def IsUnrelated (e : Event) : Prop := e.isClosing = false ∧ e.enrolled? = none

variable {es past : List Event}

theorem any_isClosing_append (unrelated : ∀ e ∈ es, e.IsUnrelated) :
    (es ++ past).any isClosing = past.any isClosing := by
  have none : es.any isClosing = false := List.any_eq_false.mpr fun e mem => by
    simp [(unrelated e mem).1]
  rw [List.any_append, none, Bool.false_or]

theorem early_append (unrelated : ∀ e ∈ es, e.IsUnrelated) : early (es ++ past) = early past := by
  induction es with
  | nil => rfl
  | cons e es ih =>
      have rest := ih fun e mem => unrelated e (List.mem_cons_of_mem _ mem)
      simp [early, rest, (unrelated e List.mem_cons_self).2]

theorem late_of_open (isOpen : past.any isClosing = false) : late past = [] := by
  cases past with
  | nil => rfl
  | cons e past =>
      have before : past.any isClosing = false := (Bool.or_eq_false_iff.mp isOpen).2
      simp [late, before]

theorem late_append (unrelated : ∀ e ∈ es, e.IsUnrelated) : late (es ++ past) = late past := by
  induction es with
  | nil => rfl
  | cons e es ih =>
      have others (e) (mem : e ∈ es) := unrelated e (List.mem_cons_of_mem _ mem)
      have rest := ih others
      have same : (es ++ past).any isClosing = past.any isClosing := any_isClosing_append others
      simp only [List.cons_append, late, same, rest, (unrelated e List.mem_cons_self).2,
        Option.toList_none, List.append_nil]
      split
      · rfl
      next isOpen => rw [late_of_open (by simpa using isOpen)]

end Event

def Call.IsOnGuard : Call → Prop
  | stream 0 (.close _) => True
  | stream 0 (.whenClosed _) => True
  | _ => False

instance (c : Call) : Decidable c.IsOnGuard :=
  match c with
  | .stream 0 (.close _) | .stream 0 (.whenClosed _) => isTrue trivial
  | .stream 0 (.method _ _) | .stream 0 .identified | .stream 0 .read |
    .stream 0 (.write _ _ _) => isFalse id
  | .stream (_ + 1) _ | .plugin _ | .emitter _ _ => isFalse id

/-- Whether a piece of work calls a listener that was registered after the closure. -/
def Work.IsLate {P : Plugin} : Work P → Prop
  | run (.late (.direct _) _ _) => True
  | emit e => (∃ label, e.purpose = .lateClosure label) ∧ ∃ l done, e.Reaches [l] done
  | _ => False

namespace Exchange

variable {P : Plugin} {x y : Exchange P} {actions : List Action}

abbrev guardHalf : HalfId := ⟨0, .responses⟩

def shown (x : Exchange P) : List String := x.journal.reverse.filterMap Event.heard?

/-- The listeners that were registered before the guard closed, in order. -/
def early (x : Exchange P) : List Listener := Event.early x.journal

/-- The listeners that were registered after the guard closed, in order. -/
def late (x : Exchange P) : List Listener := Event.late x.journal

/-- Whether this is an exchange over a guard with these actions, where the listeners are as the
journal tells. -/
structure Guards (actions : List Action) (x : Exchange P) : Prop where
  single : x.streams.length = 1
  kind : x.kindOf 0 = .download
  others : ∀ h, h ≠ guardHalf → (x.half h).closed = true
  closing : (x.half guardHalf).closing = .actions actions
  hooks : (x.half guardHalf).hooks = x.early.map .direct
  closed : (x.half guardHalf).closed = x.journal.any Event.isClosing
  ready : ∀ w ∈ x.ready, w.hooks = [] ∨ ∃ l label turns, w = .late (.direct l) label turns

/-- How far the closing of a guard got, and who was called. -/
inductive Phase (actions : List Action) (x : Exchange P) : Prop where
  /-- The guard is open. -/
  | unclosed : (x.half guardHalf).closed = false → (∀ w ∈ x.agenda, w.Discreet) →
    (∀ w ∈ x.ready, w.hooks = []) → x.shown = [] → Phase actions x
  /-- The guard is closed, and performs its actions. -/
  | acting (works : List (Work P)) {rest : List (Work P)} {e : Emission (Work P)} {next : Work P} :
    (x.half guardHalf).closed = true → x.agenda = works ++ .emit e :: rest →
    (∀ w ∈ works ++ rest, w.Discreet) → e.purpose = .closing guardHalf next → next.Discreet →
    e.Reaches [.script "action" actions] [.script "action" actions] → x.shown = ["action"] →
    (∀ tag, x.due (·.shows tag) = x.late.countP (·.shows tag)) → Phase actions x
  /-- It calls the listeners that were registered before. -/
  | telling (works : List (Work P)) (done : List Listener) {rest : List (Work P)}
      {e : Emission (Work P)} {label : String} :
    (x.half guardHalf).closed = true → x.agenda = works ++ .emit e :: rest →
    (∀ w ∈ works ++ rest, w.Discreet) → e.purpose = .closure label → e.Reaches x.early done →
    x.shown = "action" :: done.filterMap Listener.shown? →
    (∀ tag, x.due (·.shows tag) = x.late.countP (·.shows tag) + e.rest.countP (·.shows tag)) →
    Phase actions x
  /-- It has called them. -/
  | told (others : List String) : (x.half guardHalf).closed = true →
    (∀ w ∈ x.agenda, w.Discreet ∨ w.IsLate) →
    x.shown = "action" :: ((Listener.reached x.early).filterMap Listener.shown? ++ others) →
    (∀ tag, others.count tag + x.due (·.shows tag) = x.late.countP (·.shows tag)) → Phase actions x

/-- Whether a step concerns neither the guard nor those who listen to it. -/
structure Ignores (x y : Exchange P) : Prop where
  kinds : y.streams.map (·.kind) = x.streams.map (·.kind)
  halves : ∀ h, (y.half h).closed = (x.half h).closed ∧ (y.half h).hooks = (x.half h).hooks ∧
    (y.half h).closing = (x.half h).closing
  journal : ∃ es, y.journal = es ++ x.journal ∧ ∀ e ∈ es, e.IsUnrelated ∧ e.heard? = none
  agenda : ∃ ws, y.agenda = ws ++ x.agenda ∧ ∀ w ∈ ws, w.Discreet
  ready : ∀ w ∈ y.ready, w ∈ x.ready ∨ w.hooks = []
  due : ∀ p, y.due p = x.due p

theorem Discreet.ignores (discreet : Discreet x y) : Ignores x y where
  kinds := discreet.kinds
  halves h := by rw [discreet.halves h]; exact ⟨rfl, rfl, rfl⟩
  journal := by
    obtain ⟨es, journal, quiet⟩ := discreet.journal
    refine ⟨es, journal, fun e mem => ?_⟩
    have deaf := quiet e mem
    cases e <;> first | exact deaf.elim | exact ⟨⟨rfl, rfl⟩, rfl⟩
  agenda := discreet.agenda
  ready w mem := by
    obtain ⟨ws, ready, hooks⟩ := discreet.ready
    rw [ready] at mem
    exact (List.mem_append.mp mem).imp_right (hooks w)
  due _ := discreet.due

theorem ignores_settleGate (name : String) (o : Outcome) (x : Exchange P) :
    Ignores x (x.settleGate name o) := by
  have due (p) := due_settleGate (p := p) name o x
  rcases settleGate_cases name o x with same | ⟨-, waiting, woken, after, -, goes⟩
  · rw [same]
    exact (Discreet.refl x).ignores
  · rw [after] at due ⊢
    refine { (Discreet.refl x).ignores with ready := fun w mem => ?_, due := due }
    refine (List.mem_append.mp mem).imp_right fun woken => ?_
    obtain ⟨before, -, o', rfl⟩ := goes w woken
    rfl

theorem ignores_called (n : Nat) (i : StreamId) (side : Side) (x : Exchange P) :
    Ignores x ({ x with calls := x.calls + 1 }.record (.called n (.stream i (.close side)))) :=
  { (Discreet.refl x).ignores with
    journal :=
      ⟨[.called n (.stream i (.close side))], rfl,
        List.forall_mem_singleton.mpr ⟨⟨rfl, rfl⟩, rfl⟩⟩ }

namespace Ignores

variable (ignores : Ignores x y)
include ignores

theorem early : y.early = x.early := by
  obtain ⟨es, journal, unrelated⟩ := ignores.journal
  rw [Exchange.early, journal, Event.early_append fun e mem => (unrelated e mem).1]
  rfl

theorem late : y.late = x.late := by
  obtain ⟨es, journal, unrelated⟩ := ignores.journal
  rw [Exchange.late, journal, Event.late_append fun e mem => (unrelated e mem).1]
  rfl

theorem heard : y.shown = x.shown := by
  obtain ⟨es, journal, unrelated⟩ := ignores.journal
  have none : es.reverse.filterMap Event.heard? = [] :=
    List.filterMap_eq_nil_iff.mpr fun e mem => (unrelated e (List.mem_reverse.mp mem)).2
  rw [Exchange.shown, journal, List.reverse_append, List.filterMap_append, none, List.append_nil]
  rfl

theorem guards (guards : Guards actions x) : Guards actions y where
  single := by
    have same := congrArg List.length ignores.kinds
    simp only [List.length_map] at same
    exact same.trans guards.single
  kind := (kindOf_congr ignores.kinds 0).trans guards.kind
  others h other := (ignores.halves h).1.trans (guards.others h other)
  closing := (ignores.halves _).2.2.trans guards.closing
  hooks := by rw [(ignores.halves _).2.1, guards.hooks, ignores.early]
  closed := by
    obtain ⟨es, journal, unrelated⟩ := ignores.journal
    rw [(ignores.halves _).1, guards.closed, journal,
      Event.any_isClosing_append fun e mem => (unrelated e mem).1]
  ready w mem := (ignores.ready w mem).elim (guards.ready w) .inl

theorem phase (phase : Phase actions x) : Phase actions y := by
  obtain ⟨ws, agenda, discreet⟩ := ignores.agenda
  have closed := (ignores.halves guardHalf).1
  have more {works rest : List (Work P)} (others : ∀ w ∈ works ++ rest, w.Discreet) :
      ∀ w ∈ (ws ++ works) ++ rest, w.Discreet := by
    rw [List.append_assoc]
    exact List.forall_mem_append.mpr ⟨discreet, others⟩
  cases phase with
  | unclosed isOpen works ready unheard =>
      refine .unclosed (closed.trans isOpen) ?_ (fun w mem => ?_) (ignores.heard.trans unheard)
      · rw [agenda]
        exact List.forall_mem_append.mpr ⟨discreet, works⟩
      · exact (ignores.ready w mem).elim (ready w) id
  | acting works isClosed split others purpose next reaches heard due =>
      refine .acting (ws ++ works) (closed.trans isClosed) ?_ (more others) purpose next reaches
        (ignores.heard.trans heard)
        fun tag => ?_
      · rw [agenda, split, List.append_assoc]
      · rw [ignores.due, ignores.late, due]
  | telling works done isClosed split others purpose reaches heard due =>
      refine .telling (ws ++ works) done (closed.trans isClosed) ?_ (more others) purpose
        (ignores.early ▸ reaches) (ignores.heard.trans heard) fun tag => ?_
      · rw [agenda, split, List.append_assoc]
      · rw [ignores.due, ignores.late, due]
  | told called isClosed works heard due =>
      refine .told called (closed.trans isClosed) ?_ (by rw [ignores.heard, ignores.early, heard])
        fun tag => ?_
      · rw [agenda]
        exact List.forall_mem_append.mpr ⟨fun w mem => .inl (discreet w mem), works⟩
      · rw [ignores.due, ignores.late, due]

end Ignores

/-! ## Registrations and closings -/

variable {w : Work P} {rest : List (Work P)}

theorem Phase.taken (phase : Phase actions x) (agenda : x.agenda = w :: rest)
    (discreet : w.Discreet) : Phase actions { x with agenda := rest } := by
  have due (p) : due { x with agenda := rest } p = x.due p := by
    rw [due_taken agenda, discreet.hooks, List.countP_nil, Nat.zero_add]
  cases phase with
  | unclosed isOpen works ready unheard =>
      rw [agenda] at works
      exact .unclosed isOpen (fun w mem => works w (List.mem_cons_of_mem _ mem)) ready unheard
  | acting works isClosed split others purpose next reaches heard accounts =>
      cases works with
      | nil => cases (List.cons.inj (agenda.symm.trans split)).1; exact discreet.elim
      | cons first works =>
          obtain ⟨-, tail⟩ := List.cons.inj (agenda.symm.trans split)
          exact .acting works isClosed tail (fun w mem => others w (List.mem_cons_of_mem _ mem))
            purpose next reaches heard
            fun tag => (due _).trans (accounts tag)
  | telling works done isClosed split others purpose reaches heard accounts =>
      cases works with
      | nil => cases (List.cons.inj (agenda.symm.trans split)).1; exact discreet.elim
      | cons first works =>
          obtain ⟨-, tail⟩ := List.cons.inj (agenda.symm.trans split)
          exact .telling works done isClosed tail
            (fun w mem => others w (List.mem_cons_of_mem _ mem)) purpose reaches
            heard
            fun tag => (due _).trans (accounts tag)
  | told called isClosed works heard accounts =>
      rw [agenda] at works
      exact .told called isClosed (fun w mem => works w (List.mem_cons_of_mem _ mem)) heard
        fun tag => by
        rw [due]
        exact accounts tag

theorem Phase.resume (phase : Phase actions x) (guards : Guards actions x) (quiet : x.agenda = [])
    {place : Nat}
    (lt : place < x.ready.length) :
    Phase actions (x.resume place) ∧ Guards actions (x.resume place) := by
  have due (p) := due_resume (p := p) quiet lt
  unfold Exchange.resume at due ⊢
  rw [List.getElem?_eq_getElem lt] at due ⊢
  have fewer {w : Wake P} (mem : w ∈ x.ready.eraseIdx place) : w ∈ x.ready :=
    List.mem_of_mem_eraseIdx mem
  have mem : x.ready[place] ∈ x.ready := List.getElem_mem lt
  have discreet {w : Wake P} (hooks : w.hooks = []) : (Work.run w).Discreet := by
    cases w with
    | late => cases hooks
    | _ => trivial
  refine ⟨?_, { guards with ready := fun w mem => guards.ready w (fewer mem) }⟩
  cases phase with
  | unclosed isOpen works ready unheard =>
      refine .unclosed isOpen (List.forall_mem_singleton.mpr ?_)
        (fun w mem => ready w (fewer mem)) unheard
      exact discreet (ready _ mem)
  | acting _ _ split | telling _ _ _ split =>
      rw [quiet] at split
      exact absurd split.symm (List.append_ne_nil_of_right_ne_nil _ (List.cons_ne_nil _ _))
  | told called isClosed works heard accounts =>
      refine .told called isClosed (List.forall_mem_singleton.mpr ?_) heard fun tag => ?_
      · refine (guards.ready _ mem).imp discreet ?_
        rintro ⟨l, label, turns, late⟩
        rw [late]
        trivial
      · dsimp only at due ⊢
        rw [due]
        exact accounts tag

theorem Guards.modify (guards : Guards actions x) (isOpen : (x.half guardHalf).closed = false)
    {f : Half P → Half P} (halves : ∀ h, y.half h = (x.modifyHalf guardHalf f).half h)
    (kinds : y.streams.map (·.kind) = (x.modifyHalf guardHalf f).streams.map (·.kind))
    (ready : y.ready = x.ready)
    (closing : (f (x.half guardHalf)).closing = (x.half guardHalf).closing)
    (hooks : (f (x.half guardHalf)).hooks = y.early.map .direct)
    (closed : (f (x.half guardHalf)).closed = y.journal.any Event.isClosing) :
    Guards actions y := by
  have here : y.half guardHalf = f (x.half guardHalf) :=
    (halves guardHalf).trans (half_modifyHalf (has_of_open isOpen) f)
  have same := kinds.trans (kinds_modifyHalf guardHalf f)
  refine ⟨?_, (kindOf_congr same 0).trans guards.kind, fun h other => ?_, ?_, ?_, ?_, ?_⟩
  · have single := congrArg List.length same
    simp only [List.length_map] at single
    exact single.trans guards.single
  · rw [halves, half_modifyHalf_of_ne other]
    exact guards.others h other
  · rw [here, closing]
    exact guards.closing
  · rw [here, hooks]
  · rw [here, closed]
  · rw [ready]
    exact guards.ready

/-- The exchange after a call that registers a listener got its number. -/
def noted (l : Listener) (x : Exchange P) : Exchange P :=
  { x with calls := x.calls + 1 }.record (.called x.calls (.stream 0 (.whenClosed l)))

theorem shown_noted (l : Listener) (x : Exchange P) : (x.noted l).shown = x.shown := by
  simp [shown, noted, record, Event.heard?]

theorem early_noted (l : Listener) (x : Exchange P) :
    (x.noted l).early = if x.journal.any Event.isClosing then x.early else x.early ++ [l] := rfl

theorem late_noted (l : Listener) (x : Exchange P) :
    (x.noted l).late = if x.journal.any Event.isClosing then x.late ++ [l] else [] := rfl

theorem countP_shows_concat (tag : String) (ls : List Listener) (l : Listener) :
    (ls ++ [l]).countP (·.shows tag) = ls.countP (·.shows tag) + if l.shows tag then 1 else 0 := by
  rw [List.countP_append, List.countP_singleton]

/-- A listener that is registered after the closure goes on by itself. -/
theorem Guards.noted_of_closed (guards : Guards actions x) (phase : Phase actions x)
    (isClosed : (x.half guardHalf).closed = true) (l : Listener) (label : String) :
    Guards actions ((x.noted l).wake (.late (.direct l) label 1)) ∧
      Phase actions ((x.noted l).wake (.late (.direct l) label 1)) := by
  have closing := guards.closed.symm.trans isClosed
  have early : ((x.noted l).wake (.late (.direct l) label 1)).early = x.early := by
    change (x.noted l).early = _
    rw [early_noted, if_pos closing]
  have late : ((x.noted l).wake (.late (.direct l) label 1)).late = x.late ++ [l] := by
    change (x.noted l).late = _
    rw [late_noted, if_pos closing]
  have heard : ((x.noted l).wake (.late (.direct l) label 1)).shown = x.shown := shown_noted l x
  have due (tag) : ((x.noted l).wake (.late (.direct l) label 1)).due (·.shows tag) =
      x.due (·.shows tag) + if l.shows tag then 1 else 0 := by
    rw [due_wake, Wake.hooks, List.countP_singleton, Nat.add_comm]
    rfl
  refine ⟨{ guards with hooks := ?_, closed := ?_, ready := fun w mem => ?_ }, ?_⟩
  · rw [early]
    exact guards.hooks
  · exact guards.closed
  · rcases List.mem_append.mp mem with old | new
    · exact guards.ready w old
    · exact .inr ⟨_, _, _, List.mem_singleton.mp new⟩
  · cases phase with
    | unclosed isOpen => rw [isClosed] at isOpen; cases isOpen
    | acting works _ split others purpose next reaches told accounts =>
        refine .acting works isClosed split others purpose next reaches (heard.trans told)
          fun tag => ?_
        rw [due, late, countP_shows_concat, accounts]
    | telling works done _ split others purpose reaches told accounts =>
        refine .telling works done isClosed split others purpose (early ▸ reaches)
          (heard.trans told) fun tag => ?_
        rw [due, late, countP_shows_concat, accounts]
        omega
    | told called _ works told accounts =>
        refine .told called isClosed works (by rw [heard, early, told]) fun tag => ?_
        have before := accounts tag
        rw [due, late, countP_shows_concat]
        omega

/-- A listener that is registered before the closure is attached to the guard. -/
theorem Guards.noted_of_open (guards : Guards actions x) (phase : Phase actions x)
    (isOpen : (x.half guardHalf).closed = false) (l : Listener) :
    Guards actions
      ((x.noted l).modifyHalf guardHalf fun half =>
        { half with hooks := half.hooks ++ [.direct l] }) ∧
      Phase actions
        ((x.noted l).modifyHalf guardHalf fun half =>
          { half with hooks := half.hooks ++ [.direct l] }) := by
  have closing : x.journal.any Event.isClosing = false := guards.closed.symm.trans isOpen
  have here := half_modifyHalf (x := x.noted l) (has_of_open (x := x) isOpen)
    fun half => { half with hooks := half.hooks ++ [.direct l] }
  have early :
      ((x.noted l).modifyHalf guardHalf fun half =>
        { half with hooks := half.hooks ++ [.direct l] }).early =
      x.early ++ [l] := by
    change (x.noted l).early = _
    rw [early_noted, closing, if_neg Bool.false_ne_true]
  refine ⟨guards.modify isOpen (fun _ => rfl) rfl rfl rfl ?_ guards.closed, ?_⟩
  · rw [early, List.map_append, ← guards.hooks]
    rfl
  · cases phase with
    | unclosed _ works ready unheard =>
        refine .unclosed ?_ works ready ((shown_noted l x).trans unheard)
        rw [here]
        exact isOpen
    | acting _ isClosed | telling _ _ isClosed | told _ isClosed =>
        rw [isOpen] at isClosed
        cases isClosed

theorem Guards.command (guards : Guards actions x) (phase : Phase actions x) {c : Command}
    (allowed : ∀ call, c = .call call → call.IsOnGuard) :
    Guards actions (x.command c) ∧ Phase actions (x.command c) := by
  have go {y z : Exchange P} (both : Guards actions y ∧ Phase actions y) (ignores : Ignores y z) :
      Guards actions z ∧ Phase actions z := ⟨ignores.guards both.1, ignores.phase both.2⟩
  cases c with
  | settle name o => exact go ⟨guards, phase⟩ (ignores_settleGate name o x)
  | call call =>
      have onGuard := allowed call rfl
      cases call with
      | stream i call =>
          cases i with
          | succ i => exact onGuard.elim
          | zero =>
              cases call with
              | close side =>
                  have pushed :=
                    Discreet.push
                      (w := .close ⟨0, side⟩ (.give (.ok .undefined) ⟨[], .plain x.calls⟩))
                    ({ x with calls := x.calls + 1 }.record
                      (.called x.calls (.stream 0 (.close side)))) trivial
                  exact go (go ⟨guards, phase⟩ (ignores_called x.calls 0 side x)) pushed.ignores
              | whenClosed l =>
                  have registered : Guards actions ((x.noted l).whenClosed 0 l) ∧
                      Phase actions ((x.noted l).whenClosed 0 l) := by
                    have kind : (x.noted l).kindOf 0 = .download := guards.kind
                    simp only [Exchange.whenClosed, kind, attach]
                    split
                    next isClosed => exact guards.noted_of_closed phase isClosed l _
                    next isOpen => exact guards.noted_of_open phase (Bool.not_eq_true _ ▸ isOpen) l
                  exact go registered (Discreet.answer _ _ _).ignores
              | method | identified | read | write => exact onGuard.elim
      | plugin | emitter => exact onGuard.elim

theorem Guards.close (guards : Guards actions x) (phase : Phase actions x) {h : HalfId}
    {next : Work P}
    (discreet : next.Discreet) :
    Guards actions (x.closeHalf h next) ∧ Phase actions (x.closeHalf h next) := by
  by_cases isClosed : (x.half h).closed = true
  · rw [closeHalf_of_closed isClosed]
    have pushed := (Discreet.push x discreet).ignores
    exact ⟨pushed.guards guards, pushed.phase phase⟩
  · obtain rfl : h = guardHalf := by_contra fun other => isClosed (guards.others h other)
    rw [Bool.not_eq_true] at isClosed
    have closing : x.journal.any Event.isClosing = false := guards.closed.symm.trans isClosed
    have here := half_modifyHalf (has_of_open isClosed) fun half => { half with closed := true }
    have result : x.closeHalf guardHalf next =
        (((x.modifyHalf guardHalf fun half => { half with closed := true }).record
          (.closed guardHalf)).record (.heard "action" .undefined)).push
            (.emit ⟨some (actions, .nothing), [], [], .undefined, .closing guardHalf next⟩) := by
      simp only [Exchange.closeHalf, isClosed, guards.closing]
      rfl
    generalize closed : x.closeHalf guardHalf next = y at result ⊢
    have journal : y.journal = .heard "action" .undefined :: .closed guardHalf :: x.journal := by
      rw [result]; rfl
    have halves (h) :
        y.half h = (x.modifyHalf guardHalf fun half => { half with closed := true }).half h := by
      rw [result]
      rfl
    have early : y.early = x.early := by
      simp [Exchange.early, journal, Event.early, Event.isClosing, Event.enrolled?, closing]
    have late : y.late = [] := by
      simp [Exchange.late, journal, Event.late, Event.isClosing, Event.enrolled?, closing]
    have heard : y.shown = x.shown ++ ["action"] := by
      rw [Exchange.shown, journal, List.reverse_cons, List.reverse_cons, List.filterMap_append,
        List.filterMap_append, List.append_assoc]
      rfl
    refine ⟨guards.modify isClosed halves (by rw [result]; rfl) (by rw [result]; rfl) rfl ?_ ?_, ?_⟩
    · rw [early]
      exact guards.hooks
    · rw [journal]
      rfl
    · cases phase with
      | unclosed _ works ready unheard =>
          have agenda :
              y.agenda =
                [] ++
                .emit ⟨some (actions, .nothing), [], [], .undefined, .closing guardHalf next⟩ ::
              x.agenda := by rw [result]; rfl
          refine .acting [] (by rw [halves, here]) agenda works rfl discreet ?_
            (by rw [heard, unheard]; rfl) fun tag => ?_
          · have starts :
                Emission.Reaches [.script "action" actions] ([] ++ [.script "action" actions])
                (⟨some (actions, .nothing), [], [], .undefined, .closing guardHalf next⟩ : Emission
                  (Work P)) :=
              .within rfl (List.forall_mem_nil _) rfl rfl
            exact starts
          · have none : x.agenda.flatMap Work.hooks = [] :=
              List.flatMap_eq_nil_iff.mpr fun w mem => (works w mem).hooks
            have none' : x.ready.flatMap Wake.hooks = [] := List.flatMap_eq_nil_iff.mpr ready
            rw [late, result]
            simp [due, none, none', Work.hooks, Exchange.push, Exchange.record, modifyHalf]
      | acting _ closed | telling _ _ closed | told _ closed =>
          rw [isClosed] at closed
          cases closed

/-! ## Emissions -/

variable {e : Emission (Work P)} {done : List Listener}

structure Called (l : Listener) (x y : Exchange P) : Prop where
  streams : y.streams = x.streams
  ready : y.ready = x.ready
  agenda : y.agenda = x.agenda
  early : y.early = x.early
  late : y.late = x.late
  closing : y.journal.any Event.isClosing = x.journal.any Event.isClosing
  heard : y.shown = x.shown ++ l.shown?.toList

theorem called_startListener (l : Listener) (v : Value) (x : Exchange P) :
    Called l x (x.startListener l v).1 := by
  cases l with
  | script tag actions =>
      have unrelated : ∀ e ∈ [Event.heard tag v], e.IsUnrelated :=
        List.forall_mem_singleton.mpr ⟨rfl, rfl⟩
      refine ⟨rfl, rfl, rfl, Event.early_append unrelated, Event.late_append unrelated,
        Event.any_isClosing_append unrelated, ?_⟩
      simp only [shown, startListener, record, List.reverse_cons, List.filterMap_append]
      rfl
  | forget => exact ⟨rfl, rfl, rfl, rfl, rfl, rfl, (List.append_nil _).symm⟩

namespace Called

variable {l : Listener} (called : Called l x y)
include called

theorem guards (guards : Guards actions x) : Guards actions y := by
  have half (h) : y.half h = x.half h := half_congr called.streams h
  have kind : y.kindOf 0 = x.kindOf 0 := by simp only [kindOf, called.streams]
  refine ⟨called.streams ▸ guards.single, kind.trans guards.kind, fun h other => ?_, ?_, ?_, ?_, ?_⟩
  · rw [half]
    exact guards.others h other
  · rw [half]
    exact guards.closing
  · rw [half, called.early]
    exact guards.hooks
  · rw [half, called.closing]
    exact guards.closed
  · rw [called.ready]
    exact guards.ready

theorem due (p : Hook → Bool) : y.due p = x.due p := by
  simp only [Exchange.due, called.agenda, called.ready]

theorem closed : (y.half guardHalf).closed = (x.half guardHalf).closed := by
  rw [half_congr called.streams]

end Called

/-- The actions are over, and the listeners that were registered before are called. -/
theorem Guards.announce (guards : Guards actions x) (isClosed : (x.half guardHalf).closed = true)
    (others : ∀ w ∈ x.agenda, w.Discreet) {next : Work P} (discreet : next.Discreet)
    (heard : x.shown = ["action"])
    (accounts : ∀ tag, x.due (·.shows tag) = x.late.countP (·.shows tag)) :
    Guards actions (x.announce guardHalf next) ∧ Phase actions (x.announce guardHalf next) := by
  have due (p) : (x.push next).due p = x.due p := by
    rw [due_push, discreet.hooks, List.countP_nil, Nat.zero_add]
  have works : ∀ w ∈ (x.push next).agenda, w.Discreet := List.forall_mem_cons.mpr ⟨discreet, others⟩
  have hooks := guards.hooks
  simp only [Exchange.announce]
  split
  next none =>
    have nobody : x.early = [] := by
      have empty : (x.half guardHalf).hooks = [] := List.isEmpty_iff.mp none
      rwa [empty, eq_comm, List.map_eq_nil_iff] at hooks
    refine ⟨{ guards with }, .told [] isClosed (fun w mem => .inl (works w mem)) ?_ fun tag => ?_⟩
    · change x.shown = "action" :: ((Listener.reached x.early).filterMap Listener.shown? ++ [])
      rw [heard, nobody]
      rfl
    · rw [due, accounts, List.count_nil, Nat.zero_add]
      rfl
  next some =>
    refine ⟨{ guards with }, .telling [] [] isClosed rfl works rfl ?_ heard fun tag => ?_⟩
    · change (closureEmission (x.half guardHalf)).Reaches x.early []
      rw [closureEmission, hooks]
      exact .start _ _ _
    · rw [due_push, due, accounts, Nat.add_comm]
      rfl

theorem Guards.act (guards : Guards actions x) (calm : actions.findSome? Action.thrown? = none)
    (isClosed : (x.half guardHalf).closed = true) (others : ∀ w ∈ x.agenda, w.Discreet)
    {next : Work P} (purpose : e.purpose = .closing guardHalf next) (discreet : next.Discreet)
    (reaches : e.Reaches [.script "action" actions] [.script "action" actions])
    (heard : x.shown = ["action"])
    (accounts : ∀ tag, x.due (·.shows tag) = x.late.countP (·.shows tag))
    (allowed : ∀ call as r, e.current = some (.performs (.call call) :: as, r) → call.IsOnGuard) :
    Guards actions (x.emission e) ∧ Phase actions (x.emission e) := by
  have goesOn {e' : Emission (Work P)} (continues : e.Continues e')
      (reaches : e'.Reaches [.script "action" actions] [.script "action" actions]) :
      Guards actions (x.push (.emit e')) ∧ Phase actions (x.push (.emit e')) := by
    refine ⟨{ guards with }, ?_⟩
    have none : e'.rest = [] := reaches.rest
    refine .acting [] isClosed rfl others (continues.purpose.trans purpose) discreet reaches heard
      fun tag => ?_
    rw [due_push, Work.hooks, none]
    exact (Nat.zero_add _).trans (accounts tag)
  have proceeds := proceeds (x := x) reaches
  generalize result : x.emission e = y at proceeds
  cases proceeds with
  | throws thrown =>
      have throws : (Listener.script "action" actions).thrown? = none := calm
      simp [throws] at thrown
  | completes =>
      simp only [completed, purpose]
      exact guards.announce isClosed others discreet heard accounts
  | stays continues reaches => exact goesOn continues reaches
  | @performs e' c continues reaches _ current =>
      obtain ⟨guards, phase⟩ := goesOn continues reaches
      obtain ⟨as, r, current⟩ := current
      exact guards.command phase fun call same => allowed call as r (same ▸ current)
  | calls continues reaches =>
      have many := reaches.length_le
      simp at many

/-- The listeners that were registered before are called, up to one that throws. -/
theorem Guards.tell (guards : Guards actions x) (isClosed : (x.half guardHalf).closed = true)
    (others : ∀ w ∈ x.agenda, w.Discreet) {label : String} (purpose : e.purpose = .closure label)
    (reaches : e.Reaches x.early done)
    (heard : x.shown = "action" :: done.filterMap Listener.shown?)
    (accounts : ∀ tag, x.due (·.shows tag) = x.late.countP (·.shows tag))
    (allowed : ∀ call as r, e.current = some (.performs (.call call) :: as, r) → call.IsOnGuard) :
    Guards actions (x.emission e) ∧ Phase actions (x.emission e) := by
  have goesOn {y : Exchange P} {e' : Emission (Work P)} {done : List Listener}
      (guards : Guards actions y)
      (isClosed : (y.half guardHalf).closed = true) (agenda : y.agenda = x.agenda)
      (continues : e.Continues e')
      (reaches : e'.Reaches y.early done)
      (heard : y.shown = "action" :: done.filterMap Listener.shown?)
      (accounts : ∀ tag, y.due (·.shows tag) = y.late.countP (·.shows tag)) :
      Guards actions (y.push (.emit e')) ∧ Phase actions (y.push (.emit e')) := by
    refine ⟨{ guards with },
      .telling [] done isClosed rfl ?_ (continues.purpose.trans purpose) reaches heard
      fun tag => ?_⟩
    · exact agenda ▸ others
    · rw [due_push, accounts, Nat.add_comm]
      rfl
  have ended {y : Exchange P} (ignores : Ignores x y) (all : Listener.reached x.early = done) :
      Guards actions y ∧ Phase actions y := by
    refine ⟨ignores.guards guards, ignores.phase ?_⟩
    refine .told [] isClosed (fun w mem => .inl (others w mem)) ?_ fun tag => ?_
    · rw [heard, all, List.append_nil]
    · rw [accounts, List.count_nil, Nat.zero_add]
  have proceeds := proceeds (x := x) reaches
  generalize result : x.emission e = y at proceeds
  cases proceeds with
  | throws _ all =>
      simp only [broken, purpose]
      exact ended (Discreet.wake x rfl).ignores all
  | completes all returned =>
      simp only [completed, purpose]
      exact ended (Discreet.awaitReplies _ _ x).ignores
        ((Listener.reached_eq_self returned).trans all)
  | stays continues reaches => exact goesOn guards isClosed rfl continues reaches heard accounts
  | @performs e' c continues reaches _ current =>
      obtain ⟨guards, phase⟩ := goesOn guards isClosed rfl continues reaches heard accounts
      obtain ⟨as, r, current⟩ := current
      exact guards.command phase fun call same => allowed call as r (same ▸ current)
  | @calls e' l continues reaches =>
      have called := called_startListener l e.argument x
      refine goesOn (called.guards guards) (called.closed.trans isClosed) called.agenda continues
        (called.early ▸ reaches)
        ?_ fun tag => ?_
      · rw [called.heard, heard, List.filterMap_append]
        cases l <;> rfl
      · rw [called.due, called.late, accounts]

theorem count_shown (tag : String) (l : Listener) :
    l.shown?.toList.count tag = if l.shows tag then 1 else 0 := by
  cases l with
  | script t actions => exact List.count_singleton
  | forget => rfl

theorem Guards.follow (guards : Guards actions x) (isClosed : (x.half guardHalf).closed = true)
    (works : ∀ w ∈ x.agenda, w.Discreet ∨ w.IsLate) {label : String}
    (purpose : e.purpose = .lateClosure label) {l : Listener} (reaches : e.Reaches [l] done)
    {others : List String}
    (heard : x.shown = "action" :: ((Listener.reached x.early).filterMap Listener.shown? ++ others))
      (accounts : ∀ tag, others.count tag + (e.rest.countP (·.shows tag) + x.due (·.shows tag)) =
      x.late.countP (·.shows tag))
    (allowed : ∀ call as r, e.current = some (.performs (.call call) :: as, r) → call.IsOnGuard) :
    Guards actions (x.emission e) ∧ Phase actions (x.emission e) := by
  have goesOn {e' : Emission (Work P)} (continues : e.Continues e') (reaches : e'.Reaches [l] done)
      (rest : e'.rest = e.rest) : Guards actions (x.push (.emit e')) ∧
      Phase actions (x.push (.emit e')) := by
    refine ⟨{ guards with }, .told others isClosed ?_ heard fun tag => ?_⟩
    · exact List.forall_mem_cons.mpr
        ⟨.inr ⟨⟨label, continues.purpose.trans purpose⟩, _, _, reaches⟩, works⟩
    · rw [due_push, Work.hooks, rest]
      exact accounts tag
  have ended {y : Exchange P} (ignores : Ignores x y) (all : done = [l]) :
      Guards actions y ∧ Phase actions y := by
    have none : e.rest = [] := by rw [reaches.rest, all]; rfl
    refine ⟨ignores.guards guards, ignores.phase (.told others isClosed works heard fun tag => ?_)⟩
    have before := accounts tag
    rwa [none, List.countP_nil, Nat.zero_add] at before
  have proceeds := proceeds (x := x) reaches
  generalize result : x.emission e = y at proceeds
  cases proceeds with
  | throws _ all =>
      simp only [broken, purpose]
      refine ended (Discreet.wake x rfl).ignores (all.symm.trans ?_)
      simp [Listener.reached]
  | completes all =>
      simp only [completed, purpose, lateWitness]
      split
      · exact ended (Discreet.wake x rfl).ignores all.symm
      · exact ended (Discreet.awaitReplies _ _ x).ignores all.symm
  | stays continues reaches rest => exact goesOn continues reaches rest
  | @performs e' c continues reaches rest current =>
      obtain ⟨guards, phase⟩ := goesOn continues reaches rest
      obtain ⟨as, r, current⟩ := current
      exact guards.command phase fun call same => allowed call as r (same ▸ current)
  | @calls e' k continues reaches rest =>
      have called := called_startListener k e.argument x
      have after := called.guards guards
      refine ⟨{ after with }, .told (others ++ k.shown?.toList) (called.closed.trans isClosed) ?_ ?_
        fun tag => ?_⟩
      · refine List.forall_mem_cons.mpr
          ⟨.inr ⟨⟨label, continues.purpose.trans purpose⟩, _, _, reaches⟩, ?_⟩
        rw [called.agenda]
        exact works
      · change (x.startListener k e.argument).1.shown = "action" ::
          ((Listener.reached (x.startListener k e.argument).1.early).filterMap Listener.shown? ++ _)
        rw [called.heard, called.early, heard]
        simp
      · have before := accounts tag
        rw [rest, List.countP_cons] at before
        rw [due_push, Work.hooks, called.due, List.count_append, count_shown]
        change _ = (x.startListener k e.argument).1.late.countP _
        have shows : (Hook.direct k).shows tag = k.shows tag := rfl
        rw [called.late, ← before, shows]
        omega

/-! ## Steps -/

theorem Guards.goOn (guards : Guards actions x) (isClosed : (x.half guardHalf).closed = true)
    (works : ∀ w ∈ x.agenda, w.Discreet ∨ w.IsLate) (late : w.IsLate) {others : List String}
    (heard : x.shown = "action" :: ((Listener.reached x.early).filterMap Listener.shown? ++ others))
    (accounts : ∀ tag, others.count tag + (w.hooks.countP (·.shows tag) + x.due (·.shows tag)) =
      x.late.countP (·.shows tag))
    (allowed : ∀ e call as r, w = .emit e → e.current = some (.performs (.call call) :: as, r) →
      call.IsOnGuard) : Guards actions (x.work w) ∧ Phase actions (x.work w) := by
  cases w with
  | run w =>
      cases w with
      | late hook label turns =>
          cases hook with
          | half => exact late.elim
          | direct l =>
              cases turns with
              | zero =>
                  refine ⟨{ guards with }, .told others isClosed ?_ heard fun tag => ?_⟩
                  · exact List.forall_mem_cons.mpr
                      ⟨.inr ⟨⟨label, rfl⟩, l, [], .start [l] _ _⟩, works⟩
                  · exact (congrArg (others.count tag + ·) (due_push _ _)).trans (accounts tag)
              | succ turns =>
                  refine ⟨{ guards with ready := fun w mem => ?_ },
                    .told others isClosed works heard fun tag => ?_⟩
                  · rcases List.mem_append.mp mem with old | new
                    · exact guards.ready w old
                    · exact .inr ⟨_, _, _, List.mem_singleton.mp new⟩
                  · exact (congrArg (others.count tag + ·) (due_wake _ _)).trans (accounts tag)
      | sent | received | returned => exact late.elim
  | emit e =>
      obtain ⟨⟨label, purpose⟩, l, done, reaches⟩ := late
      exact guards.follow isClosed works purpose reaches heard accounts fun call as r =>
        allowed e call as r rfl
  | give | close | receive | enter | serve | deliver => exact late.elim

theorem Guards.work (guards : Guards actions x) (phase : Phase actions x)
    (calm : actions.findSome? Action.thrown? = none) (agenda : x.agenda = w :: rest)
    (allowed : ∀ e call as r, w = .emit e → e.current = some (.performs (.call call) :: as, r) →
      call.IsOnGuard) :
    Guards actions (({ x with agenda := rest } : Exchange P).work w) ∧
      Phase actions (({ x with agenda := rest } : Exchange P).work w) := by
  have taken : Guards actions { x with agenda := rest } := { guards with }
  by_cases discreet : w.Discreet
  · have after := phase.taken agenda discreet
    by_cases closes : ∃ h next, w = .close h next
    · obtain ⟨h, next, rfl⟩ := closes
      exact taken.close after discreet
    · have ignores := (Discreet.work discreet (fun h next same => closes ⟨h, next, same⟩)
        ({ x with agenda := rest } : Exchange P)).ignores
      exact ⟨ignores.guards taken, ignores.phase after⟩
  · have due (tag) := due_taken (p := Hook.shows tag) agenda
    cases phase with
    | unclosed _ works => exact absurd (works w (agenda ▸ List.mem_cons_self)) discreet
    | @acting works tail e next isClosed split others purpose calmly reaches heard accounts =>
        cases works with
        | cons first works =>
            obtain ⟨rfl, -⟩ := List.cons.inj (agenda.symm.trans split)
            exact absurd (others w List.mem_cons_self) discreet
        | nil =>
            obtain ⟨rfl, rfl⟩ := List.cons.inj (agenda.symm.trans split)
            refine taken.act calm isClosed others purpose calmly reaches heard (fun tag => ?_)
              fun call as r => allowed e call as r rfl
            have none : e.rest = [] := reaches.rest
            have before := accounts tag
            rw [due, Work.hooks, none] at before
            exact (Nat.zero_add _).symm.trans before
    | @telling works done tail e label isClosed split others purpose reaches heard accounts =>
        cases works with
        | cons first works =>
            obtain ⟨rfl, -⟩ := List.cons.inj (agenda.symm.trans split)
            exact absurd (others w List.mem_cons_self) discreet
        | nil =>
            obtain ⟨rfl, rfl⟩ := List.cons.inj (agenda.symm.trans split)
            refine taken.tell isClosed others purpose reaches heard (fun tag => ?_)
              fun call as r => allowed e call as r rfl
            have before := accounts tag
            rw [due, Nat.add_comm] at before
            exact Nat.add_right_cancel before
    | told others isClosed works heard accounts =>
        rw [agenda] at works
        obtain ⟨first, left⟩ := List.forall_mem_cons.mp works
        refine taken.goOn isClosed left (first.resolve_left discreet) heard (fun tag => ?_) allowed
        rw [← due]
        exact accounts tag

theorem Guards.move {allowed : Command → Prop} (guards : Guards actions x) (phase : Phase actions x)
    (calm : actions.findSome? Action.thrown? = none) (move : Move allowed x y)
    (only : ∀ n c, .called n c ∈ y.journal → c.IsOnGuard) : Guards actions y ∧ Phase actions y := by
  cases move with
  | @work w rest agenda =>
      refine guards.work phase calm agenda ?_
      rintro e call as r rfl current
      exact only x.calls call (called_of_performs current _)
  | resume quiet lt => exact (phase.resume guards quiet lt).symm
  | command =>
      refine guards.command phase fun call same => only x.calls call ?_
      subst same
      exact mem_called call x

theorem guards_ofGuard (label : String) (actions : List Action) :
    Guards actions (ofGuard label actions) ∧ Phase actions (ofGuard label actions) := by
  refine ⟨⟨rfl, rfl, ?_, rfl, rfl, rfl, List.forall_mem_nil _⟩,
    .unclosed rfl (List.forall_mem_nil _) (List.forall_mem_nil _) rfl⟩
  rintro ⟨i, side⟩ other
  cases i with
  | succ i => rfl
  | zero =>
      cases side with
      | requests => rfl
      | responses => exact absurd rfl other

theorem Run.guards {label : String} {x : Exchange .idle}
    (run : Run (fun _ => True) (ofGuard label actions) x)
    (calm : actions.findSome? Action.thrown? = none)
    (only : ∀ n c, .called n c ∈ x.journal → c.IsOnGuard) : Guards actions x ∧ Phase actions x := by
  induction run with
  | refl => exact guards_ofGuard label actions
  | @step y z _ move ih =>
      obtain ⟨guards, phase⟩ := ih fun n c called => only n c (move.suffix.subset called)
      exact guards.move phase calm move only

end Exchange

end ObjectTransfer
