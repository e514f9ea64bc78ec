import ObjectTransfer.Proofs.Notifications

/-! # Failures of listeners for a closure

All that comes of the failure of a listener is a log line. What an exchange over a guard has to do
is to answer calls and to look after the results of listeners (`Work.Serves`): every call on the
guard returns, and nothing but calls, closings, listeners and failed listeners ever shows
(`Exchange.Contained`).
-/

namespace ObjectTransfer

variable {P : Plugin}

def Log.ofListener (label : String) (v : Value) : Log :=
  ⟨.error, "[" ++ label ++ "] Close listener failed:", some v⟩

/-- Whether an event is a call, an undefined result, a closing, a listener or the failure of one. -/
def Event.IsContained (label : String) : Event → Prop
  | called _ _ => True
  | settled _ s => s = .returned .undefined
  | closed _ => True
  | heard _ _ => True
  | logged line => ∃ v, line = .ofListener label v
  | _ => False

/-- Whether a task looks after the results of listeners for a closure. -/
structure Task.Notices (label : String) (t : Task P) : Prop where
  owner : t.owner = .notice label
  frames : ∀ f ∈ t.frames, f = .relaying ∨ ∃ gate, f = .following gate

def Wake.Notices (label : String) : Wake P → Prop
  | returned _ t => t.Notices label
  | late _ l _ => l = label
  | _ => False

/-- What the work on a guard is for: it answers a call, or looks after listeners. -/
inductive Work.Serves (label : String) : Option Nat → Work P → Prop where
  | answers (n : Nat) : Serves label (some n) (.give (.ok .undefined) ⟨[], .plain n⟩)
  | closes (h : HalfId) (n : Nat) :
      Serves label (some n) (.close h (.give (.ok .undefined) ⟨[], .plain n⟩))
  | acts {e : Emission (Work P)} {n : Nat} :
    e.purpose = .closing ⟨0, .responses⟩ (.give (.ok .undefined) ⟨[], .plain n⟩) → e.rest = [] →
    (∀ as r, e.current = some (as, r) → as.findSome? Action.thrown? = none) →
    Serves label (some n) (.emit e)
  | gives {o : Outcome} {t : Task P} : t.Notices label → Serves label none (.give o t)
  | runs {w : Wake P} : w.Notices label → Serves label none (.run w)
  | tells {e : Emission (Work P)} : e.purpose = .closure label ∨ e.purpose = .lateClosure label →
    Serves label none (.emit e)

theorem Work.Serves.eq {label : String} {w : Work P} {who : Option Nat} {n : Nat}
    (serves : w.Serves label who)
    (answers : w.Serves label (some n)) : who = some n := by
  cases answers with
  | answers =>
      cases serves with
      | answers => rfl
      | gives notices => cases notices.owner
  | closes =>
      cases serves with
      | closes => rfl
  | acts purpose =>
      cases serves with
      | acts purpose' =>
          rw [purpose] at purpose'
          cases purpose'
          rfl
      | tells purpose' =>
          rw [purpose] at purpose'
          rcases purpose' with other | other <;> cases other

theorem Task.notices_witness (label : String) : (Exchange.witness label : Task P).Notices label :=
  ⟨rfl, by simp [Exchange.witness]⟩

namespace Exchange

variable {x y : Exchange P} {label : String} {owed : Option Nat} {actions : List Action}

/-- Whether the calls on a guard return and its listeners leave nothing but log lines; a call may be
owed its answer. -/
structure Contained (label : String) (owed : Option Nat) (x : Exchange P) : Prop where
  named : (x.half guardHalf).label = label
  agenda : ∀ w ∈ x.agenda, ∃ who, w.Serves label who
  ready : ∀ w ∈ x.ready, w.Notices label
  waiting : ∀ entry ∈ x.gates.waiting, entry.2.Notices label
  journal : ∀ e ∈ x.journal, e.IsContained label
  answered : ∀ n < x.calls, owed = some n ∨ .settled n (.returned .undefined) ∈ x.journal ∨
    ∃ w ∈ x.agenda, w.Serves label (some n)

namespace Contained

/-! ## Operations -/

theorem taken (contained : Contained label none x) {w : Work P} {rest : List (Work P)}
    (agenda : x.agenda = w :: rest) {who : Option Nat} (serves : w.Serves label who)
    (only : ∀ n, w.Serves label (some n) → who = some n) :
    Contained label who { x with agenda := rest } where
  named := contained.named
  agenda w mem := contained.agenda w (agenda ▸ List.mem_cons_of_mem _ mem)
  ready := contained.ready
  waiting := contained.waiting
  journal := contained.journal
  answered n lt := by
    rcases contained.answered n lt with none | settled | ⟨w', mem, serves'⟩
    · cases none
    · exact .inr (.inl settled)
    · rw [agenda] at mem
      rcases List.mem_cons.mp mem with rfl | mem
      · exact .inl (only n serves')
      · exact .inr (.inr ⟨w', mem, serves'⟩)

theorem push (contained : Contained label owed x) {w : Work P} (serves : w.Serves label owed) :
    Contained label none (x.push w) where
  named := contained.named
  agenda := List.forall_mem_cons.mpr ⟨⟨owed, serves⟩, contained.agenda⟩
  ready := contained.ready
  waiting := contained.waiting
  journal := contained.journal
  answered n lt := by
    rcases contained.answered n lt with rfl | settled | ⟨w', mem, serves'⟩
    · exact .inr (.inr ⟨w, List.mem_cons_self, serves⟩)
    · exact .inr (.inl settled)
    · exact .inr (.inr ⟨w', List.mem_cons_of_mem _ mem, serves'⟩)

theorem wake (contained : Contained label owed x) {w : Wake P} (notices : w.Notices label) :
    Contained label owed (x.wake w) :=
  { contained with
    ready := List.forall_mem_append.mpr ⟨contained.ready, List.forall_mem_singleton.mpr notices⟩ }

theorem record (contained : Contained label owed x) {e : Event}
    (isContained : e.IsContained label) : Contained label owed (x.record e) :=
  { contained with
    journal := List.forall_mem_cons.mpr ⟨isContained, contained.journal⟩
    answered :=
      fun n lt => (contained.answered n lt).imp_right (.imp_left (List.mem_cons_of_mem _)) }

theorem answer {n : Nat} (contained : Contained label (some n) x) :
    Contained label none (x.answer n .undefined) where
  named := contained.named
  agenda := contained.agenda
  ready := contained.ready
  waiting := contained.waiting
  journal := List.forall_mem_cons.mpr ⟨rfl, contained.journal⟩
  answered n lt := by
    rcases contained.answered n lt with same | settled | waits
    · cases same
      exact .inr (.inl List.mem_cons_self)
    · exact .inr (.inl (List.mem_cons_of_mem _ settled))
    · exact .inr (.inr waits)

theorem notice (contained : Contained label owed x) (o : Outcome) :
    Contained label owed (x.settle (.notice label) o) := by
  cases o with
  | ok => exact contained
  | error v => exact contained.record ⟨v, rfl⟩

theorem awaitGates (contained : Contained label owed x) (names : List String) {t : Task P}
    (notices : t.Notices label) : Contained label owed (x.awaitGates names t) := by
  simp only [Exchange.awaitGates]
  split
  · exact contained.wake (w := .returned _ t) notices
  · split
    · exact contained.wake (w := .returned _ t) notices
    · exact { contained with
        waiting :=
          List.forall_mem_append.mpr ⟨contained.waiting, List.forall_mem_singleton.mpr notices⟩ }

theorem awaitReplies (contained : Contained label owed x) (replies : List Reply) {t : Task P}
    (notices : t.Notices label) : Contained label owed (x.awaitReplies replies t) := by
  simp only [Exchange.awaitReplies]
  split
  · exact contained.wake (w := .returned _ t) notices
  · exact contained.awaitGates _ notices

theorem settleGate (contained : Contained label owed x) (name : String) (o : Outcome) :
    Contained label owed (x.settleGate name o) := by
  rcases settleGate_cases name o x with same | ⟨-, waiting, woken, after, stays, goes⟩
  · rw [same]
    exact contained
  · rw [after]
    refine { contained with ready := ?_, waiting := fun entry mem => ?_ }
    · refine List.forall_mem_append.mpr ⟨contained.ready, fun w mem => ?_⟩
      obtain ⟨before, waits, o', rfl⟩ := goes w mem
      exact contained.waiting before waits
    · obtain ⟨before, waits, same⟩ := stays entry mem
      rw [same]
      exact contained.waiting before waits

theorem modifyHalf (contained : Contained label owed x) (h : HalfId) {f : Half P → Half P}
    (same : ∀ half, (f half).label = half.label) : Contained label owed (x.modifyHalf h f) := by
  refine { contained with named := ?_ }
  by_cases has : x.Has h
  · by_cases here : guardHalf = h
    · rw [here, half_modifyHalf has, same, ← here]
      exact contained.named
    · rw [half_modifyHalf_of_ne here]
      exact contained.named
  · rw [modifyHalf_of_not_has has]
    exact contained.named

theorem announce (contained : Contained label owed x) {next : Work P}
    (serves : next.Serves label owed) : Contained label none (x.announce guardHalf next) := by
  have pushed := contained.push serves
  simp only [Exchange.announce]
  split
  · exact pushed
  · exact pushed.push (.tells (.inl (congrArg Purpose.closure pushed.named)))

theorem whenClosed (contained : Contained label owed x) (kind : x.kindOf 0 = .download)
    (l : Listener) : Contained label owed (x.whenClosed 0 l) := by
  simp only [Exchange.whenClosed, kind, attach]
  split
  · exact contained.wake (w := .late _ _ _) contained.named
  · exact contained.modifyHalf _ fun _ => rfl

theorem startHook (contained : Contained label owed x) (hook : Hook) (argument : Value) :
    Contained label owed (x.startHook hook argument).1 := by
  have started {countdowns} (l : Listener) (argument : Value) :
      Contained label owed (({ x with countdowns } : Exchange P).startListener l argument).1 := by
    have counted : Contained label owed { x with countdowns } := { contained with }
    cases l with
    | script => exact counted.record trivial
    | forget => exact { contained with }
  cases hook with
  | direct l => exact started l argument
  | half n =>
      simp only [Exchange.startHook]
      split
      · exact contained
      · split
        · exact started _ _
        · exact { contained with }

/-! ## Commands and work -/

theorem command (contained : Contained label none x) (guards : Guards actions x) {c : Command}
    (allowed : ∀ call, c = .call call → call.IsOnGuard) : Contained label none (x.command c) := by
  cases c with
  | settle name o => exact contained.settleGate name o
  | call call =>
      have onGuard := allowed call rfl
      have called :
          Contained label (some x.calls)
          ({ x with calls := x.calls + 1 }.record (.called x.calls call)) :=
        { contained with
          journal := List.forall_mem_cons.mpr ⟨trivial, contained.journal⟩
          answered := fun n lt => by
            rcases Nat.lt_succ_iff_lt_or_eq.mp lt with before | rfl
            · refine ((contained.answered n before).resolve_left (nomatch ·)).elim
                (fun settled => ?_) fun waits => ?_
              · exact .inr (.inl (List.mem_cons_of_mem _ settled))
              · exact .inr (.inr waits)
            · exact .inl rfl }
      cases call with
      | stream i call =>
          cases i with
          | succ i => exact onGuard.elim
          | zero =>
              cases call with
              | close side => exact called.push (.closes _ _)
              | whenClosed l => exact (called.whenClosed guards.kind l).answer
              | method | identified | read | write => exact onGuard.elim
      | plugin | emitter => exact onGuard.elim

theorem closeHalf (contained : Contained label owed x) (guards : Guards actions x)
    (calm : actions.findSome? Action.thrown? = none) {h : HalfId} {n : Nat} (owes : owed = some n) :
    Contained label none (x.closeHalf h (.give (.ok .undefined) ⟨[], .plain n⟩)) := by
  subst owes
  by_cases isClosed : (x.half h).closed = true
  · rw [closeHalf_of_closed isClosed]
    exact contained.push (.answers n)
  · obtain rfl : h = guardHalf := by_contra fun other => isClosed (guards.others h other)
    have marked :=
      ((contained.modifyHalf guardHalf (f := fun half => { half with closed := true })
        fun _ => rfl).record
      (e := .closed guardHalf) trivial).record (e := .heard "action" .undefined) trivial
    rw [Bool.not_eq_true] at isClosed
    simp only [Exchange.closeHalf, isClosed, guards.closing]
    refine marked.push (.acts rfl rfl ?_)
    rintro as r ⟨⟩
    exact calm

theorem emission (contained : Contained label owed x) (guards : Guards actions x)
    {e : Emission (Work P)} (serves : (Work.emit e).Serves label owed)
    (allowed : ∀ call as r, e.current = some (.performs (.call call) :: as, r) → call.IsOnGuard) :
    Contained label none (x.emission e) := by
  have goesOn {current : List Action × Reply} {rest : List Action} {reply : Reply}
      (before : e.current = some current) (calmer : current.1.findSome? Action.thrown? = none →
        rest.findSome? Action.thrown? = none) :
      Contained label none (x.push (.emit { e with current := some (rest, reply) })) := by
    refine contained.push ?_
    cases serves with
    | acts purpose none calm =>
        refine .acts purpose none ?_
        rintro as r ⟨⟩
        exact calmer (calm _ _ before)
    | tells purpose => exact .tells purpose
  unfold Exchange.emission
  split
  next v as r current =>
    cases serves with
    | acts purpose none calm => cases calm _ _ current
    | tells purpose =>
        rcases purpose with purpose | purpose <;>
          simp only [broken, purpose] <;>
          exact contained.wake (w := .returned _ _) ⟨rfl, List.forall_mem_nil _⟩
  next current => exact goesOn current id
  next current => exact goesOn current id
  next c as r current =>
    have stays : Contained label none (x.push (.emit { e with current := some (as, r) })) :=
      goesOn current id
    have unmoved : Guards actions (x.push (.emit { e with current := some (as, r) })) :=
      { guards with }
    exact stays.command unmoved fun call same => allowed call as r (same ▸ current)
  next current =>
    refine contained.push ?_
    cases serves with
    | acts purpose none => exact .acts purpose none (by rintro as r ⟨⟩)
    | tells purpose => exact .tells purpose
  next current =>
    cases serves with
    | acts purpose none =>
        simp only [none, completed, purpose]
        exact contained.announce (.answers _)
    | tells purpose =>
        cases e.rest with
        | nil =>
            have witnessed := contained.awaitReplies e.replies (Task.notices_witness label)
            rcases purpose with purpose | purpose
            · simp only [completed, purpose]
              exact witnessed
            · simp only [completed, purpose, lateWitness]
              split
              · exact contained.wake (w := .returned _ _) ⟨rfl, by simp⟩
              · exact witnessed
        | cons hook rest => exact (contained.startHook hook e.argument).push (.tells purpose)

theorem run (contained : Contained label none x) {w : Wake P} (notices : w.Notices label) :
    Contained label none (x.run w) := by
  cases w with
  | sent | received => exact notices.elim
  | late hook l turns =>
      obtain rfl : l = label := notices
      cases turns with
      | zero => exact contained.push (.tells (.inr rfl))
      | succ turns => exact contained.wake (w := .late hook l turns) rfl
  | returned o t =>
      obtain ⟨frames, owner⟩ := t
      obtain ⟨rfl, links⟩ := notices
      cases frames with
      | nil => exact contained.notice o
      | cons f frames =>
          obtain ⟨link, links⟩ := List.forall_mem_cons.mp links
          have rest : (⟨frames, .notice label⟩ : Task P).Notices label := ⟨rfl, links⟩
          rcases link with rfl | ⟨gate, rfl⟩
          · exact contained.push (.gives rest)
          · exact contained.awaitGates [gate] rest

theorem work (contained : Contained label owed x) (guards : Guards actions x)
    (calm : actions.findSome? Action.thrown? = none) {w : Work P} (serves : w.Serves label owed)
    (allowed : ∀ e call as r, w = .emit e → e.current = some (.performs (.call call) :: as, r) →
      call.IsOnGuard) : Contained label none (x.work w) := by
  cases serves with
  | answers n => exact contained.answer
  | closes h n => exact contained.closeHalf guards calm rfl
  | acts purpose none quiet =>
      exact contained.emission guards (.acts purpose none quiet) fun call as r =>
        allowed _ call as r rfl
  | tells purpose =>
      exact contained.emission guards (.tells purpose) fun call as r => allowed _ call as r rfl
  | runs notices => exact contained.run notices
  | @gives o t notices =>
      simp only [Exchange.work, give]
      split
      · rw [notices.owner]
        exact contained.notice o
      · exact contained.wake (w := .returned o t) notices

theorem move {allowed : Command → Prop} (contained : Contained label none x)
    (guards : Guards actions x) (calm : actions.findSome? Action.thrown? = none)
    (move : Move allowed x y)
    (only : ∀ n c, .called n c ∈ y.journal → c.IsOnGuard) : Contained label none y := by
  cases move with
  | @work w rest agenda =>
      obtain ⟨who, serves⟩ := contained.agenda w (agenda ▸ List.mem_cons_self)
      have unmoved : Guards actions { x with agenda := rest } := { guards with }
      refine (contained.taken agenda serves fun n => serves.eq).work unmoved calm serves ?_
      rintro e call as r rfl current
      exact only x.calls call (called_of_performs current _)
  | @resume place quiet lt =>
      unfold Exchange.resume
      rw [List.getElem?_eq_getElem lt]
      refine { contained with
        agenda :=
          List.forall_mem_singleton.mpr ⟨none, .runs (contained.ready _ (List.getElem_mem lt))⟩
        ready := fun w mem => contained.ready w (List.mem_of_mem_eraseIdx mem)
        answered := fun n lt => ?_ }
      rcases contained.answered n lt with none | settled | ⟨w, mem, -⟩
      · cases none
      · exact .inr (.inl settled)
      · rw [quiet] at mem
        cases mem
  | command =>
      refine contained.command guards fun call same => only x.calls call ?_
      subst same
      exact mem_called call x

end Contained

/-! ## Runs -/

theorem contained_ofGuard (label : String) (actions : List Action) :
    Contained label none (ofGuard label actions) :=
  ⟨rfl, List.forall_mem_nil _, List.forall_mem_nil _, List.forall_mem_nil _,
    List.forall_mem_nil _, nofun⟩

theorem Run.contained {x : Exchange .idle} (run : Run (fun _ => True) (ofGuard label actions) x)
    (calm : actions.findSome? Action.thrown? = none)
    (only : ∀ n c, .called n c ∈ x.journal → c.IsOnGuard) : Contained label none x := by
  induction run with
  | refl => exact contained_ofGuard label actions
  | @step y z before move ih =>
      have earlier (n : Nat) (c : Call) (called : .called n c ∈ y.journal) : c.IsOnGuard :=
        only n c (move.suffix.subset called)
      exact (ih earlier).move (before.guards calm earlier).1 calm move only

theorem count_filterMap_shown (tag : String) (ls : List Listener) :
    (ls.filterMap Listener.shown?).count tag = ls.countP (·.shows tag) := by
  induction ls with
  | nil => rfl
  | cons l ls ih =>
      rw [List.countP_cons, ← ih]
      cases l with
      | script t actions => exact List.count_cons
      | forget => rfl

/-- Whoever was called was called after the closing: first those that were registered before it, in
their order and at most up to the first that throws, and besides some of those that were registered
later. -/
theorem Phase.heard (phase : Phase actions x) (isClosed : (x.half guardHalf).closed = true) :
    ∃ firsts others, x.shown = "action" :: (firsts ++ others) ∧
      firsts <+: (Listener.reached x.early).filterMap Listener.shown? ∧
      others.Subperm (x.late.filterMap Listener.shown?) := by
  cases phase with
  | unclosed isOpen =>
      rw [isOpen] at isClosed
      cases isClosed
  | acting _ _ _ _ _ _ _ heard => exact ⟨[], [], heard, List.nil_prefix, List.nil_subperm⟩
  | telling _ done _ _ _ _ reaches heard =>
      refine ⟨done.filterMap Listener.shown?, [], ?_, reaches.prefix.filterMap _, List.nil_subperm⟩
      rw [heard, List.append_nil]
  | told others _ _ heard accounts =>
      refine ⟨_, others, heard, List.prefix_rfl, List.subperm_ext_iff.mpr fun tag _ => ?_⟩
      rw [count_filterMap_shown, ← accounts tag]
      exact Nat.le_add_right _ _

/-- When nothing can go on all of them were called, the latter exactly once. -/
theorem Phase.all_heard (phase : Phase actions x) (isClosed : (x.half guardHalf).closed = true)
    (quiet : x.isQuiet = true) :
    ∃ others, x.shown = "action" ::
      ((Listener.reached x.early).filterMap Listener.shown? ++ others) ∧
      others.Perm (x.late.filterMap Listener.shown?) := by
  obtain ⟨agenda, ready⟩ : x.agenda = [] ∧ x.ready = [] := by simpa [isQuiet] using quiet
  cases phase with
  | unclosed isOpen =>
      rw [isOpen] at isClosed
      cases isClosed
  | acting _ _ split | telling _ _ _ split =>
      rw [agenda] at split
      exact absurd split.symm (List.append_ne_nil_of_right_ne_nil _ (List.cons_ne_nil _ _))
  | told others _ _ heard accounts =>
      refine ⟨others, heard, List.perm_iff_count.mpr fun tag => ?_⟩
      have none : x.due (·.shows tag) = 0 := by simp [due, agenda, ready]
      rw [count_filterMap_shown, ← accounts tag, none, Nat.add_zero]

/-- However a guard is used whose own actions do not throw, by the listeners for its closure as
well: nobody is called while it is open. After the closing the listeners that were registered before
are called in their order up to the first that throws, and no further; each that was registered
later is called exactly once, whatever the others do. Every call on the guard returns, and of a
listener that fails nothing shows but a log line. -/
theorem guard_heard {x : Exchange .idle} (run : Run (fun _ => True) (ofGuard label actions) x)
    (calm : actions.findSome? Action.thrown? = none)
    (only : ∀ n c, .called n c ∈ x.journal → c.IsOnGuard) :
    ((x.half guardHalf).closed = false → x.shown = []) ∧
      ((x.half guardHalf).closed = true → ∃ firsts others, x.shown = "action" ::
        (firsts ++ others) ∧
        firsts <+: (Listener.reached x.early).filterMap Listener.shown? ∧
        others.Subperm (x.late.filterMap Listener.shown?)) ∧
      ((x.half guardHalf).closed = true → x.isQuiet = true → ∃ others,
        x.shown = "action" :: ((Listener.reached x.early).filterMap Listener.shown? ++ others) ∧
        others.Perm (x.late.filterMap Listener.shown?)) ∧
      (x.isQuiet = true → ∀ n < x.calls, .settled n (.returned .undefined) ∈ x.journal) ∧
      ∀ e ∈ x.journal, e.IsContained label := by
  obtain ⟨-, phase⟩ := run.guards calm only
  have contained := run.contained calm only
  refine ⟨fun isOpen => ?_, phase.heard, phase.all_heard, fun quiet n lt => ?_, contained.journal⟩
  · cases phase with
    | unclosed _ _ _ unheard => exact unheard
    | acting _ isClosed | telling _ _ isClosed | told _ isClosed =>
        rw [isOpen] at isClosed
        cases isClosed
  · have agenda : x.agenda = [] := by simpa [isQuiet] using (Bool.and_eq_true_iff.mp quiet).1
    rcases contained.answered n lt with none | settled | ⟨w, mem, -⟩
    · cases none
    · exact settled
    · rw [agenda] at mem
      cases mem

/-- The actions of a guard that registers a listener as it closes. -/
def registering : List Action := [.performs (.call (.stream 0 (.whenClosed (.script "inside" []))))]

/-- Two listeners are registered of which the first throws, and the guard is closed; then one more
is registered that fails later, and the guard is closed again. -/
def interrupted : Exchange .idle :=
  let x := ((ofGuard "guard" registering).command
    (.call (.stream 0 (.whenClosed (.script "failing" [.throws .null]))))).advance 30
  let x := (x.command (.call (.stream 0 (.whenClosed (.script "second" []))))).advance 30
  let x := (x.command (.call (.stream 0 (.close .responses)))).advance 30
  let x :=
    (x.command (.call (.stream 0 (.whenClosed (.script "last" [.rejects .null]))))).advance 30
  (x.command (.call (.stream 0 (.close .responses)))).advance 30

/-- The second listener is never called, and the later ones are. -/
theorem interrupted_heard : interrupted.isQuiet = true ∧
    (interrupted.half guardHalf).closed = true ∧
    interrupted.early.filterMap Listener.shown? = ["failing", "second"] ∧
    interrupted.shown = ["action", "failing", "inside", "last"] ∧
    ∃ others, interrupted.shown =
        "action" :: ((Listener.reached interrupted.early).filterMap Listener.shown? ++ others) ∧
      others.Perm (interrupted.late.filterMap Listener.shown?) := by
  have before : Run (fun _ => True) (ofGuard "guard" registering) _ :=
    (Run.refl.command (c := .call (.stream 0 (.whenClosed (.script "failing" [.throws .null])))) rfl
      trivial 30).command (c := .call (.stream 0 (.whenClosed (.script "second" [])))) rfl
      trivial 30
  have closed := before.command (c := .call (.stream 0 (.close .responses))) rfl trivial 30
  have run : Run (fun _ => True) (ofGuard "guard" registering) interrupted :=
    (closed.command (c := .call (.stream 0 (.whenClosed (.script "last" [.rejects .null])))) rfl
      trivial 30).command (c := .call (.stream 0 (.close .responses))) rfl trivial 30
  have only : interrupted.journal.all (·.keepsTo fun c => decide c.IsOnGuard) = true := rfl
  obtain ⟨-, -, all, -⟩ :=
    guard_heard run rfl fun n c called => of_decide_eq_true (called_of_all only called)
  exact ⟨rfl, rfl, rfl, rfl, all rfl rfl⟩

end Exchange

end ObjectTransfer
