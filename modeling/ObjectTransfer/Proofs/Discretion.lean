import ObjectTransfer.Proofs.Operations

/-! # Work that concerns no listener

A task that goes on may send, receive, settle its call or wait for a gate. None of this touches what
listens: the guards of the halves with their listeners, the countdowns, the registrations of the
emitter and the gates that are settled stay as they are (`Exchange.Discreet`), and whatever is put
on the agenda is as discreet.
-/

namespace ObjectTransfer

variable {P : Plugin}

/-- Whether an event neither begins a call nor opens a stream, closes no half and calls no listener.
-/
def Event.IsDiscreet : Event → Prop
  | called _ _ => False
  | opened _ _ => False
  | closed _ => False
  | heard _ _ => False
  | _ => True

/-- Whether a piece of work calls no listeners that are known already. -/
def Work.Discreet : Work P → Prop
  | run (.late _ _ _) => False
  | close _ next => next.Discreet
  | emit _ => False
  | _ => True

theorem Work.Discreet.hooks {w : Work P} (discreet : w.Discreet) : w.hooks = [] := by
  fun_induction Work.Discreet w with
  | case1 => exact discreet.elim
  | case2 h next ih => exact ih discreet
  | case3 => exact discreet.elim
  | case4 w => cases w with
    | run w => cases w <;> simp_all [Work.hooks, Wake.hooks]
    | _ => simp_all [Work.hooks]

namespace Exchange

/-- Whether all that listens is left alone. -/
structure Discreet (x y : Exchange P) : Prop where
  kinds : y.streams.map (·.kind) = x.streams.map (·.kind)
  halves : ∀ h, y.half h = { x.half h with channel := (y.half h).channel }
  countdowns : y.countdowns = x.countdowns
  emitter : y.emitter = x.emitter
  gates : y.gates.settled = x.gates.settled
  calls : y.calls = x.calls
  journal : ∃ es, y.journal = es ++ x.journal ∧ ∀ e ∈ es, e.IsDiscreet
  agenda : ∃ ws, y.agenda = ws ++ x.agenda ∧ ∀ w ∈ ws, w.Discreet
  ready : ∃ ws, y.ready = x.ready ++ ws ∧ ∀ w ∈ ws, w.hooks = []

variable {x y z : Exchange P} {h : HalfId}

theorem kinds_modifyHalf (h : HalfId) (f : Half P → Half P) :
    (x.modifyHalf h f).streams.map (·.kind) = x.streams.map (·.kind) := by
  apply List.ext_getElem?
  intro j
  simp only [modifyHalf, List.getElem?_map, List.getElem?_modify]
  cases x.streams[j]? with
  | none => rfl
  | some s => cases h with | mk i side => cases side <;> split <;> rfl

theorem kindOf_congr (kinds : y.streams.map (·.kind) = x.streams.map (·.kind)) (i : StreamId) :
    y.kindOf i = x.kindOf i := by
  have same : (y.streams.map (·.kind))[i]? = (x.streams.map (·.kind))[i]? := by rw [kinds]
  simp only [List.getElem?_map] at same
  simp only [kindOf, same]

namespace Discreet

theorem refl (x : Exchange P) : Discreet x x where
  kinds := rfl
  halves _ := rfl
  countdowns := rfl
  emitter := rfl
  gates := rfl
  calls := rfl
  journal := ⟨[], rfl, List.forall_mem_nil _⟩
  agenda := ⟨[], rfl, List.forall_mem_nil _⟩
  ready := ⟨[], (List.append_nil _).symm, List.forall_mem_nil _⟩

theorem trans (first : Discreet x y) (second : Discreet y z) : Discreet x z where
  kinds := second.kinds.trans first.kinds
  halves h := by rw [second.halves h, first.halves h]
  countdowns := second.countdowns.trans first.countdowns
  emitter := second.emitter.trans first.emitter
  gates := second.gates.trans first.gates
  calls := second.calls.trans first.calls
  journal := by
    obtain ⟨es, journal, discreet⟩ := first.journal
    obtain ⟨es', journal', discreet'⟩ := second.journal
    refine ⟨es' ++ es, ?_, List.forall_mem_append.mpr ⟨discreet', discreet⟩⟩
    rw [journal', journal, List.append_assoc]
  agenda := by
    obtain ⟨ws, agenda, discreet⟩ := first.agenda
    obtain ⟨ws', agenda', discreet'⟩ := second.agenda
    refine ⟨ws' ++ ws, ?_, List.forall_mem_append.mpr ⟨discreet', discreet⟩⟩
    rw [agenda', agenda, List.append_assoc]
  ready := by
    obtain ⟨ws, ready, hooks⟩ := first.ready
    obtain ⟨ws', ready', hooks'⟩ := second.ready
    refine ⟨ws ++ ws', ?_, List.forall_mem_append.mpr ⟨hooks, hooks'⟩⟩
    rw [ready', ready, List.append_assoc]

theorem closed (discreet : Discreet x y) (h : HalfId) : (y.half h).closed = (x.half h).closed := by
  rw [discreet.halves h]

theorem hooks (discreet : Discreet x y) (h : HalfId) : (y.half h).hooks = (x.half h).hooks := by
  rw [discreet.halves h]

/-! ## Operations -/

theorem push (x : Exchange P) {w : Work P} (discreet : w.Discreet) : Discreet x (x.push w) :=
  { refl x with agenda := ⟨[w], rfl, List.forall_mem_singleton.mpr discreet⟩ }

theorem thenPush (before : Discreet x y) {w : Work P} (discreet : w.Discreet) :
    Discreet x (y.push w) :=
  before.trans (push y discreet)

theorem wake (x : Exchange P) {w : Wake P} (hooks : w.hooks = []) : Discreet x (x.wake w) :=
  { refl x with ready := ⟨[w], rfl, List.forall_mem_singleton.mpr hooks⟩ }

theorem record (x : Exchange P) {e : Event} (discreet : e.IsDiscreet) : Discreet x (x.record e) :=
  { refl x with journal := ⟨[e], rfl, List.forall_mem_singleton.mpr discreet⟩ }

theorem settle (w : Owner) (o : Outcome) (x : Exchange P) : Discreet x (x.settle w o) := by
  cases w with
  | call | plain => exact record x trivial
  | notice => cases o with
    | ok => exact refl x
    | error => exact record x trivial
  | service =>
      cases o with
      | ok => exact refl x
      | error v =>
          simp only [Exchange.settle]
          split <;> exact record x trivial
  | nobody => exact refl x

theorem answer (n : Nat) (v : Value) (x : Exchange P) : Discreet x (x.answer n v) := settle _ _ x

theorem give (o : Outcome) (t : Task P) (x : Exchange P) : Discreet x (x.give o t) := by
  unfold Exchange.give
  split
  · exact settle _ _ x
  · exact wake x rfl

theorem awaitGates (names : List String) (t : Task P) (x : Exchange P) :
    Discreet x (x.awaitGates names t) := by
  simp only [Exchange.awaitGates]
  split
  · exact wake x rfl
  · split
    · exact wake x rfl
    · exact { refl x with }

theorem awaitReplies (replies : List Reply) (t : Task P) (x : Exchange P) :
    Discreet x (x.awaitReplies replies t) := by
  simp only [Exchange.awaitReplies]
  split
  · exact wake x rfl
  · exact awaitGates _ t x

theorem setChannel (h : HalfId) (c : Channel Message (Offer P) (Task P)) (x : Exchange P) :
    Discreet x (x.setChannel h c) := by
  refine { refl x with kinds := kinds_modifyHalf h _, halves := fun h' => ?_ }
  by_cases has : x.Has h
  · by_cases here : h' = h
    · subst here
      simp only [Exchange.setChannel, half_modifyHalf has]
    · simp only [Exchange.setChannel, half_modifyHalf_of_ne here]
  · simp only [Exchange.setChannel, modifyHalf_of_not_has has]

theorem offer (m : Message) (terminal : Bool) (t : Task P) (x : Exchange P) :
    Discreet x (x.offer h m terminal t) := by
  have channel (c) : Discreet x (x.setChannel h c) := setChannel h c x
  simp only [Exchange.offer]
  split
  · exact channel _
  · exact (((channel _).trans (record (e := .handed h _) _ trivial)).trans (wake _ rfl)).trans
      (wake _ rfl)
  · exact (channel _).trans (wake _ rfl)

theorem receive (t : Task P) (x : Exchange P) : Discreet x (x.receive h t) := by
  have channel (c) : Discreet x (x.setChannel h c) := setChannel h c x
  simp only [Exchange.receive]
  split
  · exact channel _
  · exact (((channel _).trans (record (e := .handed h _) _ trivial)).trans (wake _ rfl)).trans
      (wake _ rfl)
  · exact (channel _).trans (wake _ rfl)

theorem closeChannel (h : HalfId) (receivers : List (Task P)) (senders : List (Offer P))
    (x : Exchange P) : Discreet x (x.closeChannel h receivers senders) := by
  have told : Discreet x { x.setChannel h .closed with
      ready := (x.setChannel h .closed).ready ++ receivers.map (.received h none) ++
        senders.map fun s => .sent h s.terminal false s.task } := by
    refine { setChannel h .closed x with ready := ⟨receivers.map (.received h none) ++
      senders.map fun s => .sent h s.terminal false s.task, (List.append_assoc _ _ _), ?_⟩ }
    simp [Wake.hooks, or_imp, forall_and]
  simp only [Exchange.closeChannel]
  split
  · exact told
  · exact told.trans (record (e := .logged _) _ trivial)

theorem enterEntry (i : StreamId) (e : Entry) (t : Task P) (x : Exchange P) :
    Discreet x (x.enterEntry i e t) := by
  cases e with
  | returns | fulfils | rejects => exact give _ t x
  | throws | closes | closesAndReceives => exact push x trivial
  | receives side => exact receive t x
  | sends side m terminal relayed =>
      simp only [Exchange.enterEntry]
      split
      · exact give _ t x
      · exact offer m terminal _ x
  | closesOpen side =>
      simp only [Exchange.enterEntry]
      split
      · exact give _ t x
      · exact push x trivial

theorem remarks (source : Nat) (rs : List Writing.Remark) (x : Exchange P) :
    Discreet x (rs.foldl (Exchange.remark source) x) := by
  induction rs generalizing x with
  | nil => exact refl x
  | cons r rs ih =>
      have first : Discreet x (Exchange.remark source x r) := by
        cases r <;> exact record x trivial
      exact first.trans (ih _)

theorem finishService (i : StreamId) (o : Outcome) (t : Task P) (x : Exchange P) :
    Discreet x (x.finishService i o t) := push x trivial

theorem resumeFrame (o : Outcome) (t : Task P) (x : Exchange P) :
    Discreet x (x.resumeFrame o t) := by
  obtain ⟨frames, owner⟩ := t
  cases frames with
  | nil => exact settle _ _ x
  | cons f frames =>
      cases f with
      | reading i r =>
          simp only [Exchange.resumeFrame, resumeReading]
          split <;> exact push x trivial
      | writing i k w =>
          have remarked : Discreet x _ := remarks k (w.resume o).remarks x
          simp only [Exchange.resumeFrame, resumeWriting]
          split
          · exact remarked.trans (wake _ rfl)
          · exact remarked.trans (awaitGates _ _ _)
          · exact remarked.thenPush trivial
          · exact remarked.thenPush trivial
      | handling i state =>
          have turned : Discreet x { x with shared := (P.step x.shared state o).1 } :=
            { refl x with }
          simp only [Exchange.resumeFrame, resumeHandling]
          cases (P.step x.shared state o).2 with
          | wait gate next => exact turned.trans (awaitGates _ _ _)
          | rest next => exact turned.trans (wake _ rfl)
          | fork child next =>
              refine (turned.thenPush ?_).thenPush ?_ <;> trivial
          | did handler deed v =>
              refine (turned.trans (record (e := .did handler deed v) _ trivial)).thenPush ?_
              trivial
          | log line =>
              refine (turned.trans (record (e := .logged line) _ trivial)).thenPush ?_
              trivial
          | call | succeed | fail | refuse =>
              refine turned.thenPush ?_
              trivial
      | serving i =>
          simp only [Exchange.resumeFrame, resumeServing]
          split
          · exact finishService _ _ _ x
          · split
            · exact (record (e := .logged _) x trivial).trans (finishService _ _ _ _)
            · split
              · exact (record (e := .logged _) x trivial).thenPush trivial
              · exact (record (e := .logged _) x trivial).trans (finishService _ _ _ _)
      | delivering i => exact finishService _ _ _ x
      | relaying => exact push x trivial
      | following gate => exact awaitGates _ _ x

theorem run {w : Wake P} (hooks : w.hooks = []) (x : Exchange P) : Discreet x (x.run w) := by
  cases w with
  | sent h terminal taken t => cases terminal <;> exact push x trivial
  | received h m t =>
      rcases m with _ | _ | _ <;> exact (record (e := .received h _) x trivial).thenPush trivial
  | returned o t => exact resumeFrame o t x
  | late => cases hooks

theorem deliver (i : StreamId) (f : Fault) (t : Task P) (x : Exchange P) :
    Discreet x (x.deliver i f t) := by
  simp only [Exchange.deliver]
  split
  · exact give _ t x
  · exact push x trivial

theorem serve (i : StreamId) (invocation : Invocation) (x : Exchange P) :
    Discreet x (x.serve i invocation) := by
  have shared {shared} : Discreet x { x with shared } := { refl x with }
  exact shared.thenPush trivial

/-- Discreet work is discreet, unless it closes a half. -/
theorem work {w : Work P} (discreet : w.Discreet) (closes : ∀ h next, w ≠ .close h next)
    (x : Exchange P) : Discreet x (x.work w) := by
  cases w with
  | run w =>
      refine run ?_ x
      cases w with
      | late => exact discreet.elim
      | _ => rfl
  | give o t => exact give o t x
  | close h next => exact absurd rfl (closes h next)
  | receive h t => exact receive t x
  | enter i role m t => exact enterEntry i _ t x
  | serve i invocation => exact serve i invocation x
  | deliver i f t => exact deliver i f t x
  | emit => exact discreet.elim

end Discreet

/-! ## The beginning of a call -/

/-- Whether a relation holds of all that the beginning of a call consists of: what is discreet, work
that is put on the agenda, hooks that are attached, streams that are opened and listeners that are
registered. -/
structure Lenient (R : Exchange P → Exchange P → Prop) : Prop where
  trans {x y z : Exchange P} : R x y → R y z → R x z
  discreet {x y : Exchange P} : Discreet x y → R x y
  push (w : Work P) (x : Exchange P) : R x (x.push w)
  attach (h : HalfId) (hook : Hook) (x : Exchange P) : R x (x.attach h hook)
  counts (countdowns : List (Nat × Listener)) (x : Exchange P) : R x { x with countdowns }
  opens (n : Nat) (s : Stream P) (active : List StreamId) (x : Exchange P) :
    R x { (x.openStream s).record (.opened n x.nextStream) with active }
  registers (emitter : Emitter) (x : Exchange P) : R x { x with emitter }

namespace Lenient

variable {R : Exchange P → Exchange P → Prop}

theorem whenClosed (lenient : Lenient R) (i : StreamId) (l : Listener) (x : Exchange P) :
    R x (x.whenClosed i l) := by
  simp only [Exchange.whenClosed]
  split
  · exact lenient.attach _ _ x
  · exact lenient.trans (lenient.trans (lenient.counts _ x) (lenient.attach _ _ _))
      (lenient.attach _ _ _)

theorem openCall (lenient : Lenient R) (n : Nat) (kind : StreamKind) (x : Exchange P) :
    R x (x.openCall n kind) :=
  lenient.trans (lenient.opens n (.fresh P kind) _ x) (lenient.whenClosed _ _ _)

theorem start (lenient : Lenient R) (n : Nat) (c : Call) (x : Exchange P) : R x (x.start n c) := by
  have later {y : Exchange P} (before : R x y) (w w' : Work P) : R x ((y.push w).push w') :=
    lenient.trans (lenient.trans before (lenient.push _ _)) (lenient.push _ _)
  have kept {y : Exchange P} (before : R x y) (name : String) (i : StreamId) :
      R x (y.keep name i) :=
    lenient.trans before (lenient.discreet { Discreet.refl y with })
  have counted : R x x.nextSource := lenient.discreet { Discreet.refl x with }
  cases c with
  | stream i c =>
      cases c with
      | method role m => exact lenient.discreet (.enterEntry _ _ _ x)
      | close | read => exact lenient.push _ x
      | write => exact lenient.trans counted (lenient.push _ _)
      | whenClosed l =>
          exact lenient.trans (lenient.whenClosed i l x) (lenient.discreet (.answer _ _ _))
      | identified => exact lenient.discreet (.answer _ _ x)
  | plugin c =>
      cases c with
      | read => exact later (lenient.openCall n .download x) _ _
      | openDownload => exact later (kept (lenient.openCall n .download x) _ _) _ _
      | write => exact later (lenient.trans counted (lenient.openCall n .upload x.nextSource)) _ _
      | openUpload => exact later (kept (lenient.openCall n .upload x) _ _) _ _
      | method name m =>
          simp only [Exchange.start, startPlugin]
          split
          · exact lenient.discreet (.enterEntry _ _ _ x)
          · exact lenient.discreet (.settle _ _ x)
      | readKept name =>
          simp only [Exchange.start, startPlugin]
          split
          · exact lenient.push _ x
          · exact lenient.discreet (.settle _ _ x)
      | holds | keys => exact lenient.discreet (.answer _ _ x)
  | emitter event c =>
      cases c with
      | subscribe | subscribeOnce | unsubscribe =>
          exact lenient.trans (lenient.registers _ x) (lenient.discreet (.answer _ _ _))
      | emit =>
          simp only [Exchange.start, startEmitter]
          split
          · exact lenient.push _ x
          · exact lenient.discreet (.answer _ _ x)
      | emitAndWait => exact lenient.push _ x

end Lenient

end Exchange

end ObjectTransfer
