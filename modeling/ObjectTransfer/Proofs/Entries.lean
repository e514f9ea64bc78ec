import ObjectTransfer.Proofs.Discretion
import ObjectTransfer.Proofs.Simulation

/-! # What work enters into the journal

A half closes in the piece of work that closes it (`Exchange.Move.closes`), and a message passes
only where somebody asks for one or enters a method (`Exchange.Move.hands`). So nothing passes while
closings are on the agenda.
-/

namespace ObjectTransfer

variable {P : Plugin}

/-- Whether an event neither closes a half nor hands over a message. -/
def Event.IsAside : Event → Prop
  | closed _ => False
  | handed _ _ => False
  | _ => True

/-- What a piece of work may enter into the journal. -/
def Work.Notes (w : Work P) (e : Event) : Prop :=
  e.IsAside ∨
    match w, e with
    | close h _, .closed h' => h' = h
    | receive _ _, .handed _ _ => True
    | enter _ _ _ _, .handed _ _ => True
    | _, _ => False

def Work.Hands : Work P → Prop
  | receive _ _ => True
  | enter _ _ _ _ => True
  | emit _ => True
  | _ => False

namespace Exchange

def Adds (notes : Event → Prop) (x y : Exchange P) : Prop :=
  ∃ es, y.journal = es ++ x.journal ∧ ∀ e ∈ es, notes e

variable {x y z : Exchange P} {notes : Event → Prop} {h : HalfId} {m : Message}

namespace Adds

theorem of_eq (same : y.journal = x.journal) : Adds notes x y := ⟨[], same, nofun⟩

theorem trans (first : Adds notes x y) (second : Adds notes y z) : Adds notes x z := by
  obtain ⟨es, journal, noted⟩ := first
  obtain ⟨es', journal', noted'⟩ := second
  refine ⟨es' ++ es, ?_, List.forall_mem_append.mpr ⟨noted', noted⟩⟩
  rw [journal', journal, List.append_assoc]

theorem record {e : Event} (noted : notes e) (x : Exchange P) : Adds notes x (x.record e) :=
  ⟨[e], rfl, List.forall_mem_singleton.mpr noted⟩

theorem mem {e : Event} (adds : Adds notes x y) (inside : e ∈ y.journal) :
    e ∈ x.journal ∨ notes e := by
  obtain ⟨es, journal, noted⟩ := adds
  rw [journal, List.mem_append] at inside
  exact inside.symm.imp_right (noted e)

theorem awaitGates (names : List String) (t : Task P) (x : Exchange P) :
    Adds notes x (x.awaitGates names t) := by
  simp only [Exchange.awaitGates]
  split
  · exact of_eq rfl
  · split <;> exact of_eq rfl

theorem announce (h : HalfId) (next : Work P) (x : Exchange P) :
    Adds notes x (x.announce h next) := by
  simp only [Exchange.announce]
  split <;> exact of_eq rfl

theorem awaitReplies (replies : List Reply) (t : Task P) (x : Exchange P) :
    Adds notes x (x.awaitReplies replies t) := by
  simp only [Exchange.awaitReplies]
  split
  · exact of_eq rfl
  · exact awaitGates _ _ x

theorem attach (h : HalfId) (hook : Hook) (x : Exchange P) : Adds notes x (x.attach h hook) := by
  simp only [Exchange.attach]
  split <;> exact of_eq rfl

theorem settleGate (name : String) (o : Outcome) (x : Exchange P) :
    Adds notes x (x.settleGate name o) := by
  simp only [Exchange.settleGate]
  split <;> exact of_eq rfl

section

variable (aside : ∀ e : Event, e.IsAside → notes e)

include aside

theorem settle (w : Owner) (o : Outcome) (x : Exchange P) : Adds notes x (x.settle w o) := by
  cases w with
  | call n | plain n => exact record (aside (.settled n _) trivial) x
  | notice => cases o with
    | ok => exact of_eq rfl
    | error => exact record (aside (.logged _) trivial) x
  | service =>
      cases o with
      | ok => exact of_eq rfl
      | error v =>
          simp only [Exchange.settle]
          split <;> exact record (aside (.logged _) trivial) x
  | nobody => exact of_eq rfl

theorem give (o : Outcome) (t : Task P) (x : Exchange P) : Adds notes x (x.give o t) := by
  unfold Exchange.give
  split
  · exact settle aside _ _ x
  · exact of_eq rfl

theorem remarks (source : Nat) (rs : List Writing.Remark) (x : Exchange P) :
    Adds notes x (rs.foldl (Exchange.remark source) x) := by
  induction rs generalizing x with
  | nil => exact of_eq rfl
  | cons r rs ih =>
      cases r with
      | pulled => exact (record (aside (.pulled source) trivial) x).trans (ih _)
      | sourceEnded => exact (record (aside (.sourceEnded source) trivial) x).trans (ih _)
      | logged log => exact (record (aside (.logged log) trivial) x).trans (ih _)

theorem resumeFrame (o : Outcome) (t : Task P) (x : Exchange P) :
    Adds notes x (x.resumeFrame o t) := by
  obtain ⟨frames, owner⟩ := t
  cases frames with
  | nil => exact settle aside _ _ x
  | cons f frames =>
      cases f with
      | reading i r =>
          simp only [Exchange.resumeFrame, resumeReading]
          split <;> exact of_eq rfl
      | writing i k w =>
          have remarked := remarks aside k (w.resume o).remarks x
          simp only [Exchange.resumeFrame, resumeWriting]
          split
          · exact remarked
          · exact remarked.trans (awaitGates _ _ _)
          · exact remarked
          · exact remarked
      | handling i state =>
          simp only [Exchange.resumeFrame, resumeHandling]
          cases (P.step x.shared state o).2 with
          | wait gate next => exact awaitGates _ _ { x with shared := (P.step x.shared state o).1 }
          | did handler deed v => exact record (aside (.did handler deed v) trivial) _
          | log log => exact record (aside (.logged log) trivial) _
          | _ => exact of_eq rfl
      | serving i =>
          simp only [Exchange.resumeFrame, resumeServing]
          split
          · exact of_eq rfl
          · split
            · exact record (aside (.logged _) trivial) x
            · split <;> exact record (aside (.logged _) trivial) x
      | delivering | relaying => exact of_eq rfl
      | following gate => exact awaitGates _ _ x

theorem run (w : Wake P) (x : Exchange P) : Adds notes x (x.run w) := by
  cases w with
  | sent h terminal => cases terminal <;> exact of_eq rfl
  | received h m => rcases m with _ | _ | _ <;> exact record (aside (.received h _) trivial) x
  | returned o t => exact resumeFrame aside o t x
  | late hook label turns => cases turns <;> exact of_eq rfl

theorem closeChannel (h : HalfId) (receivers : List (Task P)) (senders : List (Offer P))
    (x : Exchange P) : Adds notes x (x.closeChannel h receivers senders) := by
  simp only [Exchange.closeChannel]
  split
  · exact of_eq rfl
  · exact record (aside (.logged _) trivial) x

theorem closeHalf (guarded : (x.half h).Guarded) (closed : notes (.closed h)) (next : Work P) :
    Adds notes x (x.closeHalf h next) := by
  by_cases isClosed : (x.half h).closed
  · rw [closeHalf_of_closed isClosed]
    exact of_eq rfl
  · rw [closeHalf_of_open guarded (by simpa using isClosed)]
    have marked : Adds notes x
        ((x.modifyHalf h fun half => { half with closed := true }).record (.closed h)) :=
          record closed x
    exact (marked.trans (closeChannel aside h _ _ _)).trans (announce h next _)

theorem lenient (handed : ∀ h m, notes (.handed h m)) : Lenient (Adds (P := P) notes) where
  trans := trans
  discreet discreet := by
    obtain ⟨es, journal, quiet⟩ := discreet.journal
    refine ⟨es, journal, fun e mem => ?_⟩
    cases e with
    | handed h m => exact handed h m
    | called | opened | closed | heard => exact (quiet _ mem).elim
    | settled | received | did | pulled | sourceEnded | logged => exact aside _ trivial
  push _ _ := of_eq rfl
  attach := attach
  counts _ _ := of_eq rfl
  opens n _ _ x :=
    ⟨[_], rfl, List.forall_mem_singleton.mpr (aside (.opened n x.nextStream) trivial)⟩
  registers _ _ := of_eq rfl

theorem command (handed : ∀ h m, notes (.handed h m)) (c : Command) (x : Exchange P) :
    Adds notes x (x.command c) := by
  cases c with
  | settle name o => exact settleGate name o x
  | call c =>
      have called : Adds notes x ({ x with calls := x.calls + 1 }.record (.called x.calls c)) :=
        record (aside (.called x.calls c) trivial) { x with calls := x.calls + 1 }
      exact called.trans ((lenient aside handed).start _ _ _)

theorem startListener (l : Listener) (argument : Value) (x : Exchange P) :
    Adds notes x (x.startListener l argument).1 := by
  cases l with
  | script tag => exact record (aside (.heard tag argument) trivial) x
  | forget => exact of_eq rfl

theorem startHook (hook : Hook) (argument : Value) (x : Exchange P) :
    Adds notes x (x.startHook hook argument).1 := by
  cases hook with
  | direct l => exact startListener aside l argument x
  | half n =>
      simp only [Exchange.startHook]
      split
      · exact of_eq rfl
      · split
        · exact startListener aside _ _ { x with countdowns := _ }
        · exact of_eq rfl

theorem completed (e : Emission (Work P)) (x : Exchange P) : Adds notes x (x.completed e) := by
  simp only [Exchange.completed]
  cases e.purpose with
  | closure | awaited => exact awaitReplies _ _ x
  | lateClosure =>
      simp only [lateWitness]
      split
      · exact of_eq rfl
      · exact awaitReplies _ _ x
  | plainLasting => exact of_eq rfl
  | plainLast => exact settle aside _ _ x
  | closing h next => exact announce h next x

theorem broken (e : Emission (Work P)) (v : Value) (x : Exchange P) :
    Adds notes x (x.broken e v) := by
  simp only [Exchange.broken]
  cases e.purpose with
  | closure | lateClosure | awaited | closing => exact of_eq rfl
  | plainLasting | plainLast => exact settle aside _ _ x

theorem emission (handed : ∀ h m, notes (.handed h m)) (e : Emission (Work P)) (x : Exchange P) :
    Adds notes x (x.emission e) := by
  unfold Exchange.emission
  split
  · exact broken aside e _ x
  · exact of_eq rfl
  · exact of_eq rfl
  · exact command aside handed _ (x.push _)
  · exact of_eq rfl
  · cases e.rest with
    | nil => exact completed aside e x
    | cons hook rest => exact startHook aside hook e.argument x

theorem emission_of_calm {e : Emission (Work P)} (ec : e.Calm x.countdowns.length) :
    Adds notes x (x.emission e) := by
  rcases ec.current with none | returned
  · simp only [Exchange.emission, none]
    cases e.rest with
    | nil => exact completed aside e x
    | cons hook rest => exact startHook aside hook e.argument x
  · simp only [Exchange.emission, returned]
    exact of_eq rfl

theorem ofWork (guarded : ∀ h, (x.half h).Guarded) {w : Work P}
    (closed : ∀ h next, w = .close h next → notes (.closed h))
    (handed : w.Hands → ∀ h m, notes (.handed h m)) : Adds notes x (x.work w) := by
  cases w with
  | run w => exact run aside w x
  | give o t => exact give aside o t x
  | close h next => exact closeHalf aside (guarded h) (closed h next rfl) next
  | receive h t => exact (lenient aside (handed trivial)).discreet (.receive t x)
  | enter i role m t => exact (lenient aside (handed trivial)).discreet (.enterEntry i _ t x)
  | serve i invocation => exact of_eq rfl
  | deliver i f t =>
      simp only [Exchange.work, Exchange.deliver]
      split
      · exact give aside _ _ x
      · exact of_eq rfl
  | emit e => exact emission aside (handed trivial) e x

end

/-- Work of a calm exchange enters nothing but what it may. -/
theorem work (calm : x.Calm) {w : Work P} (wc : w.Calm x.countdowns.length) :
    Adds w.Notes x (x.work w) := by
  have aside (e : Event) (shown : e.IsAside) : w.Notes e := .inl shown
  have guarded (h : HalfId) : (x.half h).Guarded := (calm.halves h).toGuarded
  have closed (h : HalfId) (next : Work P) (closes : w = .close h next) : w.Notes (.closed h) :=
    closes ▸ .inr rfl
  cases w with
  | emit e => exact emission_of_calm aside wc
  | receive | enter => exact ofWork aside guarded closed fun _ _ _ => .inr trivial
  | run | give | close | serve | deliver =>
      exact ofWork aside guarded closed fun hands => hands.elim

theorem work_closes (guarded : ∀ h, (x.half h).Guarded) (w : Work P) :
    Adds (fun e => ∀ h, e = .closed h → ∃ next, w = .close h next) x (x.work w) := by
  refine ofWork (fun e shown h closed => ?_) guarded ?_ (by rintro _ _ _ _ ⟨⟩)
  · subst closed
    exact shown.elim
  · rintro h next rfl _ ⟨⟩
    exact ⟨next, rfl⟩

theorem journal_resume (x : Exchange P) (place : Nat) : (x.resume place).journal = x.journal := by
  unfold Exchange.resume
  split <;> rfl

theorem command_closes (c : Command) (x : Exchange P) :
    Adds (fun e => ∀ h, e ≠ .closed h) x (x.command c) := by
  refine command (fun e shown h closed => ?_) (fun _ _ _ => by rintro ⟨⟩) c x
  subst closed
  exact shown

end Adds

namespace Move

/-- A half closes in the piece of work that closes it. -/
theorem closes {allowed : Command → Prop} (move : Move allowed x y)
    (guarded : ∀ h, (x.half h).Guarded) (closed : .closed h ∈ y.journal) :
    .closed h ∈ x.journal ∨ ∃ next rest, x.agenda = .close h next :: rest := by
  cases move with
  | @work w rest agenda =>
      rcases (Adds.work_closes (x := { x with agenda := rest }) guarded w).mem closed with
        old | closes
      · exact .inl old
      · obtain ⟨next, rfl⟩ := closes h rfl
        exact .inr ⟨next, rest, agenda⟩
  | resume => exact .inl (Adds.journal_resume x _ ▸ closed)
  | command =>
      exact ((Adds.command_closes _ x).mem closed).imp_right fun other => absurd rfl (other h)

variable (move : Move Command.Hosted x y) (calm : x.Calm)

include move calm

/-- A message passes where somebody asks for one or enters a method, or a host calls one. -/
theorem hands (handed : .handed h m ∈ y.journal) : .handed h m ∈ x.journal ∨
    ∀ w rest, x.agenda = w :: rest →
      (∃ h' t, w = .receive h' t) ∨ ∃ i role m' t, w = .enter i role m' t := by
  cases move with
  | @work w rest agenda =>
      obtain ⟨idle, first⟩ := calm.next agenda
      rcases (Adds.work idle first).mem handed with old | aside | hands
      · exact .inl old
      · exact aside.elim
      · refine .inr fun w' rest' same => ?_
        obtain ⟨rfl, -⟩ := List.cons.inj (agenda.symm.trans same)
        cases w with
        | receive h' t => exact .inl ⟨h', t, rfl⟩
        | enter i role m' t => exact .inr ⟨i, role, m', t, rfl⟩
        | _ => exact hands.elim
  | resume nothing | command nothing =>
      exact .inr fun w rest agenda => nomatch nothing.symm.trans agenda

end Move

/-! ## Closings are done at one go -/

/-- Whether the next thing to be done is to close a half, apart from telling that another closed. -/
def Closing (x : Exchange P) (h : HalfId) : Prop :=
  ∃ w rest, (x.agenda = w :: rest ∨ ∃ e, x.agenda = .emit e :: w :: rest) ∧
    ∃ th ∈ w.threads, ∃ next, th.stage = .closing h next

theorem agenda_closeHalf (guarded : (x.half h).Guarded) (next : Work P) :
    (x.closeHalf h next).agenda = next :: x.agenda ∨
      ∃ e, (x.closeHalf h next).agenda = .emit e :: next :: x.agenda := by
  cases isClosed : (x.half h).closed with
  | true =>
      rw [closeHalf_of_closed isClosed]
      exact .inl rfl
  | false =>
      have kept (receivers senders) (y : Exchange P) :
          (closeChannel h receivers senders y).agenda = y.agenda := by
        simp only [closeChannel]
        split <;> rfl
      rw [closeHalf_of_open guarded isClosed, announce]
      split
      · exact .inl (congrArg _ (kept _ _ _))
      · exact .inr ⟨_, congrArg _ (congrArg _ (kept _ _ _))⟩

theorem Move.after_close (move : Move Command.Hosted x y) (calm : x.Calm) {next : Work P}
    {rest : List (Work P)} (agenda : x.agenda = .close h next :: rest) :
    y.agenda = next :: rest ∨ ∃ e, y.agenda = .emit e :: next :: rest := by
  cases move with
  | work first =>
      obtain ⟨rfl, rfl⟩ := List.cons.inj (first.symm.trans agenda)
      exact agenda_closeHalf ((calm.next first).1.halves h).toGuarded next
  | resume nothing | command nothing => exact nomatch nothing.symm.trans agenda

theorem closed_closeHalf (guarded : (x.half h).Guarded) (next : Work P) :
    ((x.closeHalf h next).half h).closed = true := by
  cases isClosed : (x.half h).closed with
  | true =>
      rw [closeHalf_of_closed isClosed]
      exact isClosed
  | false =>
      have announced (y : Exchange P) : (y.announce h next).half h = y.half h := by
        simp only [announce]
        split <;> rfl
      rw [closeHalf_of_open guarded isClosed, announced, half_congr (streams_closeChannel _ h _ _),
        setChannel_closed]
      change ((x.modifyHalf h fun half => { half with closed := true, channel := .closed }).half
        h).closed = true
      rw [half_modifyHalf (has_of_open isClosed)]

theorem agenda_emission (calm : x.Calm) {e : Emission (Work P)} (ec : e.Calm x.countdowns.length) :
    (x.emission e).agenda = x.agenda ∨ ∃ e', (x.emission e).agenda = .emit e' :: x.agenda := by
  have awaited (names t) (y : Exchange P) : (y.awaitGates names t).agenda = y.agenda := by
    simp only [awaitGates]
    split
    · rfl
    · split <;> rfl
  have started {hook : Hook} (strikes : hook.Strikes x.countdowns.length) :
      (x.startHook hook e.argument).1.agenda = x.agenda := by
    cases hook with
    | direct l =>
        cases l with
        | script => exact strikes.elim
        | forget => rfl
    | half n =>
        obtain ⟨i, forgets⟩ := calm.countdowns _ (List.getElem_mem strikes)
        simp only [Exchange.startHook, List.getElem?_eq_getElem strikes, forgets]
        split <;> rfl
  obtain ⟨label, purpose⟩ := ec.purpose
  rcases ec.current with none | returned
  · simp only [emission, none]
    cases rest : e.rest with
    | nil =>
        simp only [completed, purpose, awaitReplies]
        split
        · exact .inl rfl
        · exact .inl (awaited _ _ x)
    | cons hook hooks =>
        have strikes := ec.rest hook (rest ▸ List.mem_cons_self)
        exact .inr ⟨_, congrArg _ (started strikes)⟩
  · simp only [emission, returned]
    exact .inr ⟨_, rfl⟩

/-- Nothing comes between what is to close a half and its closing. -/
theorem Closing.move (closing : x.Closing h) (calm : x.Calm) (move : Move Command.Hosted x y) :
    (y.half h).closed = true ∨ y.Closing h := by
  obtain ⟨w, rest, agenda, th, inside, next, stage⟩ := closing
  cases move with
  | @work w' rest' first =>
      obtain ⟨idle, wc⟩ := calm.next first
      rcases agenda with agenda | ⟨e, agenda⟩
      · obtain ⟨rfl, rfl⟩ := List.cons.inj (first.symm.trans agenda)
        cases w' with
        | run wake =>
            cases wake with
            | sent h' terminal taken t =>
                obtain rfl := List.mem_singleton.mp inside
                cases terminal with
                | false => exact nomatch stage
                | true =>
                    cases stage
                    exact .inr ⟨_, rest', .inl rfl, _, List.mem_cons_self, _, rfl⟩
            | received | returned =>
                obtain rfl := List.mem_singleton.mp inside
                exact nomatch stage
            | late => exact absurd inside List.not_mem_nil
        | close h' next' =>
            obtain ⟨th', -, rfl⟩ := List.mem_map.mp inside
            cases stage
            exact .inl (closed_closeHalf (idle.halves h).toGuarded next')
        | emit e =>
            obtain ⟨current, replies, hooks, argument, purpose⟩ := e
            obtain ⟨label, rfl⟩ := wc.purpose
            exact absurd inside List.not_mem_nil
        | give | receive | enter | serve | deliver =>
            obtain rfl := List.mem_singleton.mp inside
            exact nomatch stage
      · obtain ⟨rfl, rfl⟩ := List.cons.inj (first.symm.trans agenda)
        exact .inr ⟨w, rest, agenda_emission idle wc, th, inside, next, stage⟩
  | resume nothing | command nothing =>
      rw [nothing] at agenda
      exact agenda.elim nofun nofun

theorem Closing.silent (closing : x.Closing h) (calm : x.Calm) (move : Move Command.Hosted x y)
    {h' : HalfId} (handed : .handed h' m ∈ y.journal) : .handed h' m ∈ x.journal := by
  obtain ⟨w, rest, agenda, th, inside, next, stage⟩ := closing
  refine (move.hands calm handed).resolve_right fun busy => ?_
  rcases agenda with agenda | ⟨e, agenda⟩
  · rcases busy _ _ agenda with ⟨_, _, rfl⟩ | ⟨_, _, _, _, rfl⟩ <;>
      obtain rfl := List.mem_singleton.mp inside <;> exact nomatch stage
  · rcases busy _ _ agenda with ⟨_, _, same⟩ | ⟨_, _, _, _, same⟩ <;> exact nomatch same

end Exchange

end ObjectTransfer
