import ObjectTransfer.Exchange.Report
import ObjectTransfer.Proofs.Deliveries
import ObjectTransfer.Proofs.Matching
import ObjectTransfer.Proofs.Simulation

/-! # First come, first served

Calls on the parties of one stream may overlap in any way. On each half the senders and the
receivers wait in line: the messages that pass are the first ones offered, in the order of the
calls, and they go to the first calls that ask for one (`Exchange.Line`).
-/

namespace ObjectTransfer

variable {P : Plugin}

/-! ## Calls on a half -/

namespace Event

/-- The call of a method of a party, by what is left to do once its argument is checked. -/
def entry? (kind : StreamKind) : Event → Option (Nat × StreamId × Entry)
  | called n (.stream i (.method role m)) => some (n, i, m.entry kind role)
  | _ => none

/-- The call that offers a message to a half, with a valid argument. -/
def offerOn? (kind : StreamKind) (h : HalfId) (e : Event) : Option (Nat × Message) :=
  match e.entry? kind with
  | some (n, i, .sends side m _ _) => if ⟨i, side⟩ = h then some (n, m) else none
  | _ => none

def askOn? (kind : StreamKind) (h : HalfId) (e : Event) : Option Nat :=
  match e.entry? kind with
  | some (n, i, .receives side) => if ⟨i, side⟩ = h then some n else none
  | some (n, i, .closesAndReceives) => if ⟨i, .responses⟩ = h then some n else none
  | _ => none

def closes (h : HalfId) : Event → Bool
  | closed h' => h' = h
  | _ => false

/-- The messages offered to a half while it was open, with the numbers of the calls, in the order of
the calls. -/
def accepted (kind : StreamKind) (h : HalfId) : List Event → List (Nat × Message)
  | [] => []
  | e :: earlier =>
    accepted kind h earlier ++
      if earlier.any (·.closes h) then [] else (e.offerOn? kind h).toList

/-- The calls that asked for a message of a half, in their order. -/
def asked (kind : StreamKind) (h : HalfId) (events : List Event) : List Nat :=
  history (·.askOn? kind h) events

variable {kind : StreamKind} {h : HalfId}

theorem called_of_entry? {e : Event} {n : Nat} {rest : StreamId × Entry}
    (entry : e.entry? kind = some (n, rest)) : ∃ c, e = .called n c := by
  unfold entry? at entry
  split at entry
  · cases entry
    exact ⟨_, rfl⟩
  · exact nomatch entry

theorem called_of_offerOn? {e : Event} {n : Nat} {m : Message}
    (offer : e.offerOn? kind h = some (n, m)) : ∃ c, e = .called n c := by
  unfold offerOn? at offer
  split at offer
  next entry =>
    split at offer
    · cases offer
      exact called_of_entry? entry
    · exact nomatch offer
  next => exact nomatch offer

theorem called_of_askOn? {e : Event} {n : Nat} (ask : e.askOn? kind h = some n) :
    ∃ c, e = .called n c := by
  unfold askOn? at ask
  split at ask
  next entry =>
    split at ask
    · cases ask
      exact called_of_entry? entry
    · exact nomatch ask
  next entry =>
    split at ask
    · cases ask
      exact called_of_entry? entry
    · exact nomatch ask
  next => exact nomatch ask

theorem mem_accepted {p : Nat × Message} {events : List Event}
    (mem : p ∈ accepted kind h events) : ∃ e ∈ events, e.offerOn? kind h = some p := by
  induction events with
  | nil => exact absurd mem List.not_mem_nil
  | cons e events ih =>
      rw [accepted, List.mem_append] at mem
      rcases mem with old | new
      · obtain ⟨e', inside, offers⟩ := ih old
        exact ⟨e', List.mem_cons_of_mem _ inside, offers⟩
      · split at new
        · exact absurd new List.not_mem_nil
        · exact ⟨e, List.mem_cons_self, Option.mem_toList.mp new⟩

theorem accepted_append {es : List Event} (silent : ∀ e ∈ es, e.entry? kind = none)
    (earlier : List Event) : accepted kind h (es ++ earlier) = accepted kind h earlier := by
  induction es with
  | nil => rfl
  | cons e es ih =>
      obtain ⟨first, rest⟩ := List.forall_mem_cons.mp silent
      have nothing : e.offerOn? kind h = none := by rw [offerOn?, first]
      rw [List.cons_append, accepted, ih rest, nothing]
      split <;> exact List.append_nil _

theorem asked_append {es : List Event} (silent : ∀ e ∈ es, e.entry? kind = none)
    (earlier : List Event) : asked kind h (es ++ earlier) = asked kind h earlier := by
  have nothing : ∀ e ∈ es, e.askOn? kind h = none := by
    intro e mem
    rw [askOn?, silent e mem]
  rw [asked, history_append, history_of_none nothing, List.append_nil, asked]

end Event

/-! ## Tasks of calls -/

/-- A task of a call on a party: nothing in it but hands on the outcome. -/
def Task.Direct (t : Task P) : Prop := ∀ f ∈ t.frames, f = .relaying

theorem Task.Direct.thread {t : Task P} (direct : t.Direct) (st : Stage) :
    t.thread st = ⟨st, [], t.owner⟩ := by
  have none : t.frames.filter (!·.isRelaying) = [] := by
    rw [List.filter_eq_nil_iff]
    intro f mem
    rw [direct f mem]
    exact Bool.false_ne_true
  rw [Task.thread, none]

def Wake.Direct : Wake P → Prop
  | sent _ _ _ t => t.Direct
  | received _ _ t => t.Direct
  | returned _ t => t.Direct
  | late _ _ _ => False

def Work.Direct : Work P → Prop
  | run w => w.Direct
  | give _ t => t.Direct
  | close _ next => next.Direct
  | receive _ t => t.Direct
  | _ => False

def Work.asker? (h : HalfId) : Work P → Option Owner
  | close _ next => next.asker? h
  | receive h' t => if h' = h then some t.owner else none
  | _ => none

theorem Work.Direct.calm {w : Work P} (direct : w.Direct) (n : Nat) :
    w.Calm n ∧ w.hooks = [] ∧ ∃ th, w.threads = [th] ∧ th.frames = [] := by
  fun_induction Work.Direct w with
  | case1 w =>
      cases w with
      | sent | received | returned => exact ⟨trivial, rfl, _, rfl, congrArg _ (direct.thread _)⟩
      | late => exact direct.elim
  | case2 | case4 => exact ⟨trivial, rfl, _, rfl, congrArg _ (Task.Direct.thread direct _)⟩
  | case3 h next ih =>
      obtain ⟨calm, hooks, th, threads, frames⟩ := ih direct
      have closing : (Work.close h next).threads = [th.move (.closing h)] := by
        rw [Work.threads, threads, List.map_singleton]
      exact ⟨⟨calm, hooks, th, threads⟩, hooks, _, closing, frames⟩
  | case5 => exact direct.elim

structure Half.Direct (half : Half P) : Prop extends half.Guarded where
  hooks : half.hooks = []
  senders : ∀ s ∈ half.channel.senders, s.2.task.Direct
  receivers : ∀ t ∈ half.channel.receivers, t.Direct

namespace Exchange

/-- An exchange where only calls on the parties of streams are under way. -/
structure Direct (x : Exchange P) : Prop where
  halves : ∀ h, (x.half h).Direct
  countdowns : x.countdowns = []
  agenda : x.agenda = [] ∨ ∃ w, x.agenda = [w] ∧ w.Direct
  ready : ∀ w ∈ x.ready, w.Direct

variable {x y : Exchange P} {h h' : HalfId} {t : Task P}

namespace Direct

theorem calm (direct : x.Direct) : x.Calm where
  halves h := ⟨(direct.halves h).toGuarded, by simp [(direct.halves h).hooks]⟩
  countdowns := by simp [direct.countdowns]
  agenda w mem := by
    rcases direct.agenda with nothing | ⟨w', only, work⟩
    · exact absurd (nothing ▸ mem) List.not_mem_nil
    · obtain rfl := List.mem_singleton.mp (only ▸ mem)
      exact (work.calm _).1
  ready w mem := by
    have := direct.ready w mem
    cases w with
    | late => exact this.elim
    | sent | received | returned => trivial

theorem idle (direct : x.Direct) : Direct { x with agenda := [] } :=
  ⟨direct.halves, direct.countdowns, .inl rfl, direct.ready⟩

theorem push (direct : x.Direct) (nothing : x.agenda = []) {w : Work P} (wd : w.Direct) :
    (x.push w).Direct :=
  ⟨direct.halves, direct.countdowns, .inr ⟨w, congrArg (w :: ·) nothing, wd⟩, direct.ready⟩

theorem readyAppend (direct : x.Direct) {ws : List (Wake P)} (wd : ∀ w ∈ ws, w.Direct) :
    Direct { x with ready := x.ready ++ ws } :=
  ⟨direct.halves, direct.countdowns, direct.agenda,
    List.forall_mem_append.mpr ⟨direct.ready, wd⟩⟩

theorem wake (direct : x.Direct) {w : Wake P} (wd : w.Direct) : (x.wake w).Direct :=
  direct.readyAppend (List.forall_mem_singleton.mpr wd)

theorem record (direct : x.Direct) (e : Event) : (x.record e).Direct :=
  ⟨direct.halves, direct.countdowns, direct.agenda, direct.ready⟩

theorem settle (direct : x.Direct) (w : Owner) (o : Outcome) : (x.settle w o).Direct := by
  cases w with
  | call | plain => exact direct.record _
  | notice =>
      cases o with
      | ok => exact direct
      | error => exact direct.record _
  | service =>
      cases o with
      | ok => exact direct
      | error v =>
          unfold Exchange.settle
          dsimp only
          split <;> exact direct.record _
  | nobody => exact direct

theorem give (direct : x.Direct) (o : Outcome) (td : t.Direct) : (x.give o t).Direct := by
  unfold Exchange.give
  split
  · exact direct.settle _ _
  · exact direct.wake td

theorem modifyHalf (direct : x.Direct) {f : Half P → Half P} (fd : (f (x.half h)).Direct) :
    (x.modifyHalf h f).Direct := by
  by_cases has : x.Has h
  · refine ⟨fun h' => ?_, direct.countdowns, direct.agenda, direct.ready⟩
    by_cases same : h' = h
    · rw [same, half_modifyHalf has]
      exact fd
    · rw [half_modifyHalf_of_ne same]
      exact direct.halves h'
  · rw [modifyHalf_of_not_has has]
    exact direct

theorem setChannel (direct : x.Direct) {c : Channel Message (Offer P) (Task P)}
    (same : c.isClosed = (x.half h).channel.isClosed) (senders : ∀ s ∈ c.senders, s.2.task.Direct)
    (receivers : ∀ t ∈ c.receivers, t.Direct) : (x.setChannel h c).Direct :=
  have half := direct.halves h
  direct.modifyHalf ⟨⟨half.closing, same.trans half.channel⟩, half.hooks, senders, receivers⟩

theorem offer (direct : x.Direct) (m : Message) (terminal : Bool) (td : t.Direct) :
    (x.offer h m terminal t).Direct := by
  have half := direct.halves h
  have same := Channel.isClosed_send (x.half h).channel m ⟨terminal, t⟩
  cases channel : (x.half h).channel with
  | offering parked =>
      have senders := half.senders
      simp only [channel, Channel.send, Channel.senders] at same senders
      simp only [Exchange.offer, channel, Channel.send]
      refine direct.setChannel (channel ▸ same) ?_ (by simp [Channel.receivers])
      exact List.forall_mem_append.mpr ⟨senders, List.forall_mem_singleton.mpr td⟩
  | wanting first more =>
      have receivers := half.receivers
      simp only [channel, Channel.send, Channel.receivers, List.forall_mem_cons] at same receivers
      simp only [Exchange.offer, channel, Channel.send]
      refine wake (wake (record (direct.setChannel (channel ▸ same) ?_ ?_) _) ?_) ?_
      · simp
      · simpa using receivers.2
      · exact receivers.1
      · exact td
  | closed =>
      simp only [Exchange.offer, channel, Channel.send]
      refine wake (direct.setChannel (channel ▸ rfl) ?_ ?_) td
      · simp [Channel.senders]
      · simp [Channel.receivers]

theorem receive (direct : x.Direct) (td : t.Direct) : (x.receive h t).Direct := by
  have half := direct.halves h
  have same := Channel.isClosed_receive (x.half h).channel t
  cases channel : (x.half h).channel with
  | offering parked =>
      have senders := half.senders
      cases parked with
      | nil =>
          simp only [channel, Channel.receive] at same
          simp only [Exchange.receive, channel, Channel.receive]
          refine direct.setChannel (channel ▸ same) (by simp [Channel.senders]) ?_
          exact List.forall_mem_singleton.mpr td
      | cons first parked =>
          simp only [channel, Channel.receive, Channel.senders, List.forall_mem_cons]
            at same senders
          simp only [Exchange.receive, channel, Channel.receive]
          refine wake (wake (record (direct.setChannel (channel ▸ same) ?_ ?_) _) ?_) ?_
          · exact senders.2
          · simp [Channel.receivers]
          · exact senders.1
          · exact td
  | wanting first more =>
      have receivers := half.receivers
      simp only [channel, Channel.receive, Channel.receivers, List.forall_mem_cons]
        at same receivers
      simp only [Exchange.receive, channel, Channel.receive]
      refine direct.setChannel (channel ▸ same) (by simp [Channel.senders]) ?_
      exact List.forall_mem_cons.mpr ⟨receivers.1,
        List.forall_mem_append.mpr ⟨receivers.2, List.forall_mem_singleton.mpr td⟩⟩
  | closed =>
      simp only [Exchange.receive, channel, Channel.receive]
      refine wake (direct.setChannel (channel ▸ rfl) ?_ ?_) td
      · simp [Channel.senders]
      · simp [Channel.receivers]

/-- The first closing of a half, without what comes after it. -/
def shut (x : Exchange P) (h : HalfId) : Exchange P :=
  closeChannel h (x.half h).channel.receivers ((x.half h).channel.senders.map (·.2))
    ((x.modifyHalf h fun half => { half with closed := true }).record (.closed h))

theorem half_shut (x : Exchange P) (h h' : HalfId) : (shut x h).half h' =
    (x.modifyHalf h fun half => { half with closed := true, channel := .closed }).half h' := by
  rw [shut, half_congr (streams_closeChannel _ h _ _), setChannel_closed]
  rfl

theorem journal_shut (x : Exchange P) (h : HalfId) :
    ∃ es, (shut x h).journal = es ++ x.journal ∧ ∀ e ∈ es, e = .closed h ∨ e.isLogged = true := by
  simp only [shut, closeChannel]
  split
  · exact ⟨[.closed h], rfl, by simp⟩
  · exact ⟨[.logged _, .closed h], rfl, by simp [Event.isLogged]⟩

theorem ready_shut (x : Exchange P) (h : HalfId) : (shut x h).ready =
    x.ready ++ (x.half h).channel.receivers.map (.received h none) ++
      ((x.half h).channel.senders.map (·.2)).map fun s => .sent h s.terminal false s.task := by
  simp only [shut, closeChannel]
  split <;> rfl

theorem closeHalf_eq (direct : x.Direct) (isOpen : (x.half h).closed = false) (next : Work P) :
    x.closeHalf h next = (shut x h).push next := by
  have half := direct.halves h
  have hooks : ((shut x h).half h).hooks = [] := by
    rw [half_shut, half_modifyHalf (has_of_open isOpen)]
    exact half.hooks
  rw [closeHalf_of_open half.toGuarded isOpen]
  exact if_pos (List.isEmpty_iff.mpr hooks)

theorem closeHalf (direct : x.Direct) (nothing : x.agenda = []) {next : Work P}
    (nd : next.Direct) : (x.closeHalf h next).Direct := by
  by_cases isClosed : (x.half h).closed
  · have closed : x.closeHalf h next = x.push next := by simp [Exchange.closeHalf, isClosed]
    exact closed ▸ direct.push nothing nd
  · have half := direct.halves h
    rw [direct.closeHalf_eq (by simpa using isClosed)]
    have closed := (direct.modifyHalf (h := h)
      (f := fun half => { half with closed := true, channel := .closed })
      ⟨⟨half.closing, rfl⟩, half.hooks, by simp [Channel.senders],
        by simp [Channel.receivers]⟩).record (.closed h)
    rw [← setChannel_closed] at closed
    have direct' : ∀ w ∈ (x.half h).channel.receivers.map (Wake.received h none) ++
        ((x.half h).channel.senders.map (·.2)).map (fun s => .sent h s.terminal false s.task),
        w.Direct := by
      intro w mem
      simp only [List.mem_append, List.mem_map] at mem
      rcases mem with ⟨t, mem, rfl⟩ | ⟨_, ⟨s, mem, rfl⟩, rfl⟩
      · exact half.receivers t mem
      · exact half.senders s mem
    have released := closed.readyAppend direct'
    rw [← List.append_assoc] at released
    unfold shut closeChannel
    dsimp only
    split
    · exact released.push nothing nd
    · exact (released.record _).push nothing nd

theorem run (direct : x.Direct) (nothing : x.agenda = []) {w : Wake P} (wd : w.Direct) :
    (x.run w).Direct := by
  cases w with
  | sent h terminal taken t => cases terminal <;> exact direct.push nothing wd
  | received h m t => rcases m with _ | v | f <;> exact (direct.record _).push nothing wd
  | returned o t =>
      obtain ⟨frames, owner⟩ := t
      cases frames with
      | nil => exact direct.settle owner o
      | cons f frames =>
          obtain ⟨rfl, rest⟩ := List.forall_mem_cons.mp wd
          exact direct.push nothing rest
  | late => exact wd.elim

theorem work (direct : x.Direct) (nothing : x.agenda = []) {w : Work P} (wd : w.Direct) :
    (x.work w).Direct := by
  cases w with
  | run w => exact direct.run nothing wd
  | give o t => exact direct.give o wd
  | close h next => exact direct.closeHalf nothing wd
  | receive h t => exact direct.receive wd
  | enter | serve | deliver | emit => exact wd.elim

theorem resume (direct : x.Direct) (place : Nat) : (x.resume place).Direct := by
  unfold Exchange.resume
  cases found : x.ready[place]? with
  | none => exact direct
  | some w =>
      refine ⟨direct.halves, direct.countdowns, .inr ⟨_, rfl, ?_⟩, fun w mem => ?_⟩
      · exact direct.ready w (List.mem_of_getElem? found)
      · exact direct.ready w (List.mem_of_mem_eraseIdx mem)

theorem enterEntry (direct : x.Direct) (nothing : x.agenda = []) (i : StreamId) (e : Entry)
    (td : t.Direct) : (x.enterEntry i e t).Direct := by
  cases e with
  | returns | fulfils | rejects => exact direct.give _ td
  | throws => exact direct.push nothing td
  | receives side => exact direct.receive td
  | sends side m terminal relayed =>
      simp only [Exchange.enterEntry]
      split
      · exact direct.give _ td
      · apply direct.offer
        cases relayed with
        | false => exact td
        | true => exact List.forall_mem_cons.mpr ⟨rfl, td⟩
  | closes side => exact direct.push nothing td
  | closesOpen side =>
      simp only [Exchange.enterEntry]
      split
      · exact direct.give _ td
      · exact direct.push nothing td
  | closesAndReceives => exact direct.push nothing td

end Direct

end Exchange

/-! ## What leaves a half alone -/

/-- Whether an event is no call and none of a half's. -/
def Event.Spares (h : HalfId) : Event → Prop
  | called _ _ => False
  | handed h' _ => h' ≠ h
  | closed h' => h' ≠ h
  | _ => True

namespace Exchange

variable {x y z : Exchange P} {h h' : HalfId} {t : Task P}

/-- An exchange that comes from another one without anything happening to a half. -/
structure Spares (h : HalfId) (x y : Exchange P) : Prop where
  half : y.half h = x.half h
  calls : y.calls = x.calls
  journal : ∃ es, y.journal = es ++ x.journal ∧ ∀ e ∈ es, e.Spares h

namespace Spares

theorem refl (h : HalfId) (x : Exchange P) : Spares h x x := ⟨rfl, rfl, [], rfl, nofun⟩

theorem trans (first : Spares h x y) (second : Spares h y z) : Spares h x z := by
  obtain ⟨es, journal, spares⟩ := first.journal
  obtain ⟨es', journal', spares'⟩ := second.journal
  refine ⟨second.half.trans first.half, second.calls.trans first.calls, es' ++ es, ?_, ?_⟩
  · rw [journal', journal, List.append_assoc]
  · exact List.forall_mem_append.mpr ⟨spares', spares⟩

theorem push (h : HalfId) (w : Work P) (x : Exchange P) : Spares h x (x.push w) :=
  ⟨rfl, rfl, [], rfl, nofun⟩

theorem ready (h : HalfId) (ready : List (Wake P)) (x : Exchange P) : Spares h x { x with ready } :=
  ⟨rfl, rfl, [], rfl, nofun⟩

theorem wake (h : HalfId) (w : Wake P) (x : Exchange P) : Spares h x (x.wake w) :=
  ready h _ x

theorem record (e : Event) (spares : e.Spares h) (x : Exchange P) : Spares h x (x.record e) :=
  ⟨rfl, rfl, [e], rfl, List.forall_mem_singleton.mpr spares⟩

theorem settle (h : HalfId) (w : Owner) (o : Outcome) (x : Exchange P) :
    Spares h x (x.settle w o) := by
  cases w with
  | call | plain => exact record (.settled _ _) trivial x
  | notice =>
      cases o with
      | ok => exact refl h x
      | error => exact record (.logged _) trivial x
  | service =>
      cases o with
      | ok => exact refl h x
      | error v =>
          simp only [Exchange.settle]
          split <;> exact record (.logged _) trivial x
  | nobody => exact refl h x

theorem give (h : HalfId) (o : Outcome) (t : Task P) (x : Exchange P) :
    Spares h x (x.give o t) := by
  unfold Exchange.give
  split
  · exact settle h _ _ x
  · exact wake h _ x

theorem modifyHalf (other : h ≠ h') (f : Half P → Half P) (x : Exchange P) :
    Spares h x (x.modifyHalf h' f) :=
  ⟨half_modifyHalf_of_ne other f, rfl, [], rfl, nofun⟩

theorem offer (other : h ≠ h') (m : Message) (terminal : Bool) (t : Task P) (x : Exchange P) :
    Spares h x (x.offer h' m terminal t) := by
  have channel (c) : Spares h x (x.setChannel h' c) := modifyHalf other _ x
  simp only [Exchange.offer]
  split
  · exact channel _
  · exact (((channel _).trans (record (.handed h' _) (Ne.symm other) _)).trans (wake h _ _)).trans
      (wake h _ _)
  · exact (channel _).trans (wake h _ _)

theorem receive (other : h ≠ h') (t : Task P) (x : Exchange P) :
    Spares h x (x.receive h' t) := by
  have channel (c) : Spares h x (x.setChannel h' c) := modifyHalf other _ x
  simp only [Exchange.receive]
  split
  · exact channel _
  · exact (((channel _).trans (record (.handed h' _) (Ne.symm other) _)).trans (wake h _ _)).trans
      (wake h _ _)
  · exact (channel _).trans (wake h _ _)

theorem shut (other : h ≠ h') (x : Exchange P) : Spares h x (Direct.shut x h') := by
  have closed := (modifyHalf other (fun half => { half with closed := true }) x).trans
    (record (.closed h') (Ne.symm other) _)
  simp only [Direct.shut, closeChannel]
  split
  · exact (closed.trans (modifyHalf other _ _)).trans (ready h _ _)
  · exact ((closed.trans (modifyHalf other _ _)).trans (ready h _ _)).trans
      (record (.logged _) trivial _)

theorem closeHalf (direct : x.Direct) (spared : h ≠ h' ∨ (x.half h').closed = true)
    (next : Work P) : Spares h x (x.closeHalf h' next) := by
  by_cases isClosed : (x.half h').closed
  · have closed : x.closeHalf h' next = x.push next := by simp [Exchange.closeHalf, isClosed]
    exact closed ▸ push h next x
  · rw [direct.closeHalf_eq (by simpa using isClosed)]
    exact (shut (spared.resolve_right isClosed) x).trans (push h next _)

end Spares

/-! ## Lines -/

/-- Whether a call began and leads to this outcome, whatever else happens. -/
structure Due (x : Exchange P) (n : Nat) (o : Outcome) : Prop where
  due : (x.scene []).Due n o
  began : .inl n ∈ Scene.names x.threads ∨ ∃ so, .settled n so ∈ (x.scene []).events

/-- Who waits in line at a half, as far as its events tell, with those who are about to offer a
message or to ask for one: each pair that met, and the calls whose turn is still to come. -/
structure Line (kind : StreamKind) (x : Exchange P) (due : Nat → Outcome → Prop) (h : HalfId)
    (offers : List (Owner × Message)) (askers : List Owner) (met : List ((Nat × Message) × Nat))
    (sends : List (Nat × Message)) (receives : List Nat) : Prop where
  accepted : Event.accepted kind h x.journal = met.map (·.1) ++ sends
  asked : Event.asked kind h x.journal = met.map (·.2) ++ receives
  passed : x.passed h = met.map (·.1.2)
  finished : ∀ p ∈ met, due p.1.1 (.ok .undefined) ∧ due p.2 p.1.2.outcome
  senders : (x.half h).closed = false →
    (x.half h).channel.senders.map (fun s => (s.2.task.owner, s.1)) ++ offers =
      sends.map fun s => (.call s.1, s.2)
  receivers : (x.half h).closed = false →
    (x.half h).channel.receivers.map (·.owner) ++ askers = receives.map .call
  refused : (x.half h).closed = true → ∀ s ∈ sends, due s.1 (.error (.fault .streamClosed))
  ended : (x.half h).closed = true → ∀ r ∈ receives, due r (.ok .eof) ∨ .call r ∈ askers
  asking : ∀ o ∈ askers, ∃ r, o = .call r

theorem Spares.accepted (spares : Spares h x y) (kind : StreamKind) :
    Event.accepted kind h y.journal = Event.accepted kind h x.journal := by
  obtain ⟨es, journal, silent⟩ := spares.journal
  rw [journal, Event.accepted_append]
  intro e mem
  cases e with
  | called => exact (silent _ mem).elim
  | _ => rfl

theorem Spares.asked (spares : Spares h x y) (kind : StreamKind) :
    Event.asked kind h y.journal = Event.asked kind h x.journal := by
  obtain ⟨es, journal, silent⟩ := spares.journal
  rw [journal, Event.asked_append]
  intro e mem
  cases e with
  | called => exact (silent _ mem).elim
  | _ => rfl

theorem Spares.passed (spares : Spares h x y) : y.passed h = x.passed h := by
  obtain ⟨es, journal, silent⟩ := spares.journal
  have nothing : ∀ e ∈ es, e.handedOn? h = none := by
    intro e mem
    cases e with
    | handed h' m => exact if_neg (silent _ mem)
    | _ => rfl
  rw [Exchange.passed, journal, Event.history_append, Event.history_of_none nothing,
    List.append_nil, Exchange.passed]

/-- What every step keeps: calls stay bound to their outcomes. -/
structure Keeps (due : Nat → Outcome → Prop) (y : Exchange P) : Prop where
  due : ∀ {n o}, due n o → y.Due n o
  owned : (y.scene []).Owned

theorem Due.lt (owned : (x.scene []).Owned) {n : Nat} {o : Outcome} (due : x.Due n o) :
    n < x.calls := by
  rcases due.began with mem | ⟨so, settled⟩
  · exact owned.calls mem
  · exact (owned.settled settled).2

theorem Keeps.of_steps {due : Nat → Outcome → Prop} {s : Scene P} {ts} (owned : s.Owned)
    (before : ∀ {n o}, due n o → s.Due n o ∧ n < s.calls) (steps : Scene.Steps s (y.scene ts)) :
    Keeps due y := by
  have after : (y.scene ts).Owned := owned.steps steps
  have owned' : (y.scene []).Owned :=
    ⟨after.nodup, after.settled, after.calls, after.services, after.kept⟩
  refine ⟨fun dueBefore => ?_, owned'⟩
  obtain ⟨due, lt⟩ := before dueBefore
  have due' := due.steps lt steps
  exact ⟨⟨due'.threads, due'.settled⟩, owned'.kept (lt.trans_le steps.later.calls)⟩

/-- A task that can go on with an outcome leads there. -/
theorem due_of_ready (owned : (x.scene []).Owned) {w : Wake P} (mem : w ∈ x.ready) {st : Stage}
    (threads : w.threads = [t.thread st]) (direct : t.Direct) {n : Nat} (owner : t.owner = .call n)
    {o : Outcome} (outcome : st.outcome? = some o) : x.Due n o := by
  have inside : t.thread st ∈ x.threads := by
    refine Multiset.mem_add.mpr
      (.inl (Multiset.mem_add.mpr (.inl (Multiset.mem_add.mpr (.inr ?_)))))
    exact List.mem_flatMap.mpr ⟨w, mem, threads ▸ List.mem_singleton_self _⟩
  rw [direct.thread] at inside
  refine ⟨.of_thread owned inside owner rfl outcome, .inl ?_⟩
  exact Scene.mem_names.mpr ⟨_, inside, congrArg Owner.name? owner⟩

namespace Line

variable {kind : StreamKind} {due : Nat → Outcome → Prop} {offers : List (Owner × Message)}
  {askers : List Owner}
  {met : List ((Nat × Message) × Nat)} {sends : List (Nat × Message)} {receives : List Nat}
  {n r : Nat} {m : Message}

/-- A step that leaves a half alone leaves the line there. -/
theorem spared (line : Line kind x due h offers askers met sends receives) (spares : Spares h x y)
    (keeps : Keeps due y) : Line kind y y.Due h offers askers met sends receives := by
  refine ⟨(spares.accepted kind).trans line.accepted, (spares.asked kind).trans line.asked,
    spares.passed.trans line.passed, fun p mem => ?_, ?_, ?_, ?_, ?_, line.asking⟩
  · have finished := line.finished p mem
    exact ⟨keeps.due finished.1, keeps.due finished.2⟩
  · rw [spares.half]
    exact line.senders
  · rw [spares.half]
    exact line.receivers
  · rw [spares.half]
    exact fun isClosed s mem => keeps.due (line.refused isClosed s mem)
  · rw [spares.half]
    exact fun isClosed r mem => (line.ended isClosed r mem).imp_left keeps.due

/-- The first of each side meet. -/
theorem meet (line : Line kind x due h offers askers met ((n, m) :: sends) (r :: receives))
    (keeps : Keeps due y) (journal : y.journal = .handed h m :: x.journal)
    (isOpen : (y.half h).closed = false) (taken : y.Due n (.ok .undefined))
    (obtained : y.Due r m.outcome)
    (senders : (y.half h).channel.senders.map (fun s => (s.2.task.owner, s.1)) =
      sends.map fun s => (.call s.1, s.2))
    (receivers : (y.half h).channel.receivers.map (·.owner) = receives.map .call) :
    Line kind y y.Due h [] [] (met ++ [((n, m), r)]) sends receives := by
  have silent : ∀ e ∈ [Event.handed h m], e.entry? kind = none :=
    List.forall_mem_singleton.mpr rfl
  refine ⟨?_, ?_, ?_, ?_, fun _ => (List.append_nil _).trans senders,
    fun _ => (List.append_nil _).trans receivers, fun isClosed => ?_, fun isClosed => ?_,
    (by rintro _ ⟨⟩)⟩
  · rw [journal, ← List.singleton_append, Event.accepted_append silent, line.accepted]
    simp
  · rw [journal, ← List.singleton_append, Event.asked_append silent, line.asked]
    simp
  · rw [Exchange.passed, journal, ← List.singleton_append, Event.history_append,
      ← Exchange.passed, line.passed]
    simp [Event.history, Event.handedOn?]
  · intro p mem
    rcases List.mem_append.mp mem with old | new
    · have finished := line.finished p old
      exact ⟨keeps.due finished.1, keeps.due finished.2⟩
    · obtain rfl := List.mem_singleton.mp new
      exact ⟨taken, obtained⟩
  · cases isOpen.symm.trans isClosed
  · cases isOpen.symm.trans isClosed

theorem wait (line : Line kind x due h offers askers met sends receives) (keeps : Keeps due y)
    (journal : y.journal = x.journal) (isOpen : (y.half h).closed = false)
    (senders : (y.half h).channel.senders.map (fun s => (s.2.task.owner, s.1)) =
      sends.map fun s => (.call s.1, s.2))
    (receivers : (y.half h).channel.receivers.map (·.owner) = receives.map .call) :
    Line kind y y.Due h [] [] met sends receives := by
  refine ⟨journal ▸ line.accepted, journal ▸ line.asked, ?_, fun p mem => ?_,
    fun _ => (List.append_nil _).trans senders, fun _ => (List.append_nil _).trans receivers,
    fun isClosed => ?_, fun isClosed => ?_, (by rintro _ ⟨⟩)⟩
  · rw [Exchange.passed, journal]
    exact line.passed
  · have finished := line.finished p mem
    exact ⟨keeps.due finished.1, keeps.due finished.2⟩
  · cases isOpen.symm.trans isClosed
  · cases isOpen.symm.trans isClosed

theorem offer_parked (line : Line kind x due h [(.call n, m)] [] met sends receives)
    (isOpen : (x.half h).closed = false) {parked} (channel : (x.half h).channel = .offering parked)
    (terminal : Bool) (owner : t.owner = .call n) (keeps : Keeps due (x.offer h m terminal t)) :
    Line kind (x.offer h m terminal t) (x.offer h m terminal t).Due h [] [] met sends receives := by
  have senders := line.senders isOpen
  have receivers := line.receivers isOpen
  rw [channel] at senders receivers
  have now := half_modifyHalf (has_of_open isOpen)
    fun half : Half P => { half with channel := .offering (parked ++ [(m, ⟨terminal, t⟩)]) }
  have after : x.offer h m terminal t =
      x.setChannel h (.offering (parked ++ [(m, ⟨terminal, t⟩)])) := by
    simp [Exchange.offer, channel, Channel.send]
  rw [after] at keeps ⊢
  refine line.wait keeps rfl ?_ ?_ ?_
  · rw [setChannel, now, isOpen]
  · rw [setChannel, now, ← senders]
    simp [Channel.senders, owner]
  · rw [setChannel, now, ← receivers]
    rfl

theorem offer_taken (line : Line kind x due h [(.call n, m)] [] met sends receives)
    (direct : x.Direct) (isOpen : (x.half h).closed = false) {first more}
    (channel : (x.half h).channel = .wanting first more) (terminal : Bool) (td : t.Direct)
    (owner : t.owner = .call n) (keeps : Keeps due (x.offer h m terminal t)) :
    ∃ met sends receives,
      Line kind (x.offer h m terminal t) (x.offer h m terminal t).Due h [] [] met sends
        receives := by
  have senders := line.senders isOpen
  have receivers := line.receivers isOpen
  rw [channel] at senders receivers
  rw [List.append_nil] at receivers
  obtain ⟨r, rest, rfl⟩ : ∃ r rest, receives = r :: rest := by
    cases receives with
    | nil => cases receivers
    | cons r rest => exact ⟨r, rest, rfl⟩
  obtain rfl : sends = [(n, m)] := by
    obtain ⟨s, rfl, same⟩ := List.map_eq_singleton_iff.mp senders.symm
    obtain ⟨sameCall, rfl⟩ := Prod.mk.inj same
    rw [← Owner.call.inj sameCall]
  obtain ⟨firstOwner, moreOwners⟩ := List.cons.inj receivers
  have after : x.offer h m terminal t =
      (((x.setChannel h (.ofReceivers more)).record (.handed h m)).wake
        (.received h (some m) first)).wake (.sent h terminal true t) := by
    simp [Exchange.offer, channel, Channel.send]
  have firstDirect := (direct.halves h).receivers first (by simp [channel, Channel.receivers])
  have ready : (x.offer h m terminal t).ready =
      x.ready ++ [.received h (some m) first] ++ [.sent h terminal true t] := by
    rw [after]
    rfl
  have kept : (x.offer h m terminal t).half h = { x.half h with channel := .ofReceivers more } := by
    rw [after]
    exact half_modifyHalf (has_of_open isOpen) _
  refine ⟨_, _, _, line.meet keeps (by rw [after]; rfl) ?_ ?_ ?_ ?_ ?_⟩
  · rw [kept, isOpen]
  · refine due_of_ready keeps.owned (w := .sent h terminal true t) ?_ rfl td owner ?_
    · simp [ready]
    · cases terminal <;> rfl
  · refine due_of_ready keeps.owned (w := .received h (some m) first) ?_ rfl firstDirect firstOwner
      rfl
    simp [ready]
  · simp [kept]
  · rw [kept, Channel.receivers_ofReceivers]
    exact moreOwners

/-- A message that is offered to an open half meets the first call that waits for one, or waits. -/
theorem offer (line : Line kind x due h [(.call n, m)] [] met sends receives) (direct : x.Direct)
    (isOpen : (x.half h).closed = false) (terminal : Bool) (td : t.Direct)
    (owner : t.owner = .call n) (keeps : Keeps due (x.offer h m terminal t)) :
    ∃ met sends receives,
      Line kind (x.offer h m terminal t) (x.offer h m terminal t).Due h [] [] met sends
        receives := by
  cases channel : (x.half h).channel with
  | closed =>
      have guarded := (direct.halves h).channel
      rw [channel, isOpen] at guarded
      cases guarded
  | offering => exact ⟨_, _, _, line.offer_parked isOpen channel terminal owner keeps⟩
  | wanting => exact line.offer_taken direct isOpen channel terminal td owner keeps

theorem receive_ended (line : Line kind x due h [] [.call r] met sends receives) (td : t.Direct)
    (isClosed : (x.half h).closed = true) (channel : (x.half h).channel = .closed)
    (owner : t.owner = .call r) (keeps : Keeps due (x.receive h t)) :
    Line kind (x.receive h t) (x.receive h t).Due h [] [] met sends receives := by
  have after : x.receive h t = x.wake (.received h none t) := by
    have same := x.setChannel_self h
    rw [channel] at same
    simp [Exchange.receive, channel, Channel.receive, same]
  rw [after] at keeps ⊢
  have learns : (x.wake (.received h none t)).Due r (.ok .eof) := by
    refine due_of_ready keeps.owned (w := .received h none t) ?_ rfl td owner rfl
    simp [wake]
  refine ⟨line.accepted, line.asked, line.passed, fun p mem => ?_, fun isOpen => ?_,
    fun isOpen => ?_, fun _ s mem => ?_, fun _ r' mem => .inl ?_, (by rintro _ ⟨⟩)⟩
  · have finished := line.finished p mem
    exact ⟨keeps.due finished.1, keeps.due finished.2⟩
  · cases isClosed.symm.trans isOpen
  · cases isClosed.symm.trans isOpen
  · exact keeps.due (line.refused isClosed s mem)
  · rcases line.ended isClosed r' mem with due | asks
    · exact keeps.due due
    · cases List.mem_singleton.mp asks
      exact learns

theorem receive_parked (line : Line kind x due h [] [.call r] met sends receives)
    (isOpen : (x.half h).closed = false) {c}
    (parked : (x.half h).channel.receive t = (c, .parked)) (owner : t.owner = .call r)
    (keeps : Keeps due (x.receive h t)) :
    Line kind (x.receive h t) (x.receive h t).Due h [] [] met sends receives := by
  obtain ⟨sameSenders, moreReceivers⟩ := Channel.of_receive_parked parked
  have now := half_modifyHalf (has_of_open isOpen) fun half : Half P => { half with channel := c }
  have after : x.receive h t = x.setChannel h c := by
    simp [Exchange.receive, parked]
  rw [after] at keeps ⊢
  refine line.wait keeps rfl ?_ ?_ ?_
  · rw [setChannel, now, isOpen]
  · rw [setChannel, now, ← line.senders isOpen, List.append_nil, sameSenders]
  · rw [setChannel, now, ← line.receivers isOpen, moreReceivers, List.map_append, ← owner]
    rfl

theorem receive_took (line : Line kind x due h [] [.call r] met sends receives)
    (direct : x.Direct) (td : t.Direct) (isOpen : (x.half h).closed = false)
    {m terminal first parked}
    (channel : (x.half h).channel = .offering ((m, ⟨terminal, first⟩) :: parked))
    (owner : t.owner = .call r) (keeps : Keeps due (x.receive h t)) :
    ∃ met sends receives,
      Line kind (x.receive h t) (x.receive h t).Due h [] [] met sends receives := by
  have senders := line.senders isOpen
  have receivers := line.receivers isOpen
  rw [channel] at senders receivers
  rw [List.append_nil] at senders
  obtain ⟨⟨n, m'⟩, rest, rfl⟩ : ∃ s rest, sends = s :: rest := by
    cases sends with
    | nil => cases senders
    | cons s rest => exact ⟨s, rest, rfl⟩
  obtain rfl : receives = [r] := by
    obtain ⟨r', rfl, same⟩ := List.map_eq_singleton_iff.mp receivers.symm
    rw [Owner.call.inj same]
  obtain ⟨firstSame, moreSame⟩ := List.cons.inj senders
  obtain ⟨firstOwner, rfl⟩ := Prod.mk.inj firstSame
  have after : x.receive h t =
      (((x.setChannel h (.offering parked)).record (.handed h m)).wake
        (.sent h terminal true first)).wake (.received h (some m) t) := by
    simp [Exchange.receive, channel, Channel.receive]
  have firstDirect := (direct.halves h).senders (m, ⟨terminal, first⟩) (by
    rw [channel]
    exact List.mem_cons_self)
  have ready : (x.receive h t).ready =
      x.ready ++ [.sent h terminal true first] ++ [.received h (some m) t] := by
    rw [after]
    rfl
  have kept : (x.receive h t).half h = { x.half h with channel := .offering parked } := by
    rw [after]
    exact half_modifyHalf (has_of_open isOpen) _
  refine ⟨_, _, _, line.meet keeps (by rw [after]; rfl) ?_ ?_ ?_ ?_ ?_⟩
  · rw [kept, isOpen]
  · refine due_of_ready keeps.owned (w := .sent h terminal true first) ?_ rfl firstDirect firstOwner
      ?_
    · simp [ready]
    · cases terminal <;> rfl
  · refine due_of_ready keeps.owned (w := .received h (some m) t) ?_ rfl td owner rfl
    simp [ready]
  · rw [kept]
    exact moreSame
  · simp [kept, Channel.receivers]

/-- A call that asks for a message of a half obtains the first one that waits, or waits, or learns
that the half is closed. -/
theorem receive (line : Line kind x due h [] [.call r] met sends receives) (direct : x.Direct)
    (td : t.Direct) (owner : t.owner = .call r)
    (keeps : Keeps due (x.receive h t)) :
    ∃ met sends receives,
      Line kind (x.receive h t) (x.receive h t).Due h [] [] met sends receives := by
  have closed : (x.half h).channel.isClosed = (x.half h).closed := (direct.halves h).channel
  cases channel : (x.half h).channel with
  | closed =>
      rw [channel] at closed
      exact ⟨_, _, _, line.receive_ended td closed.symm channel owner keeps⟩
  | wanting =>
      rw [channel] at closed
      exact ⟨_, _, _, line.receive_parked closed.symm (congrArg (·.receive t) channel) owner keeps⟩
  | offering parked =>
      rw [channel] at closed
      cases parked with
      | nil =>
          exact ⟨_, _, _,
            line.receive_parked closed.symm (congrArg (·.receive t) channel) owner keeps⟩
      | cons => exact line.receive_took direct td closed.symm channel owner keeps

/-- When a half closes, whoever waits there learns of it. -/
theorem shut (line : Line kind x due h [] askers met sends receives) (direct : x.Direct)
    (isOpen : (x.half h).closed = false) (next : Work P)
    (keeps : Keeps due ((Direct.shut x h).push next)) :
    Line kind ((Direct.shut x h).push next) ((Direct.shut x h).push next).Due h [] askers met sends
      receives := by
  have half := direct.halves h
  have senders := line.senders isOpen
  have receivers := line.receivers isOpen
  rw [List.append_nil] at senders
  obtain ⟨es, journal, kinds⟩ := Direct.journal_shut x h
  have silent : ∀ e ∈ es, e.entry? kind = none ∧ e.handedOn? h = none := by
    intro e mem
    rcases kinds e mem with rfl | logged
    · exact ⟨rfl, rfl⟩
    · cases e <;> first | exact ⟨rfl, rfl⟩ | cases logged
  have isClosed : (((Direct.shut x h).push next).half h).closed = true := by
    change ((Direct.shut x h).half h).closed = true
    rw [Direct.half_shut, half_modifyHalf (has_of_open isOpen)]
  refine ⟨?_, ?_, ?_, fun p mem => ?_, fun isOpen => ?_, fun isOpen => ?_, fun _ s mem => ?_,
    fun _ r mem => ?_, line.asking⟩
  · change Event.accepted kind h (Direct.shut x h).journal = _
    rw [journal, Event.accepted_append fun e mem => (silent e mem).1]
    exact line.accepted
  · change Event.asked kind h (Direct.shut x h).journal = _
    rw [journal, Event.asked_append fun e mem => (silent e mem).1]
    exact line.asked
  · change Event.history _ (Direct.shut x h).journal = _
    rw [journal, Event.history_append, Event.history_of_none fun e mem => (silent e mem).2,
      List.append_nil]
    exact line.passed
  · have finished := line.finished p mem
    exact ⟨keeps.due finished.1, keeps.due finished.2⟩
  · cases isClosed.symm.trans isOpen
  · cases isClosed.symm.trans isOpen
  · have waits := List.mem_map_of_mem (f := fun s => (Owner.call s.1, s.2)) mem
    rw [← senders] at waits
    obtain ⟨⟨m, offer⟩, inside, same⟩ := List.mem_map.mp waits
    obtain ⟨owner, -⟩ := Prod.mk.inj same
    refine due_of_ready keeps.owned (w := .sent h offer.terminal false offer.task) ?_ rfl
      (half.senders _ inside) owner ?_
    · change _ ∈ (Direct.shut x h).ready
      rw [Direct.ready_shut]
      exact List.mem_append_right _ (List.mem_map_of_mem
        (f := fun s : Offer P => Wake.sent h s.terminal false s.task)
        (List.mem_map_of_mem (f := (·.2)) inside))
    · obtain ⟨terminal, task⟩ := offer
      cases terminal <;> rfl
  · have waits := List.mem_map_of_mem (f := Owner.call) mem
    rw [← receivers, List.mem_append] at waits
    rcases waits with waits | asks
    · obtain ⟨t, inside, owner⟩ := List.mem_map.mp waits
      refine .inl (due_of_ready keeps.owned (w := .received h none t) ?_ rfl
        (half.receivers t inside) owner rfl)
      change _ ∈ (Direct.shut x h).ready
      rw [Direct.ready_shut]
      exact List.mem_append_left _ (List.mem_append_right _ (List.mem_map_of_mem inside))
    · exact .inr asks

/-- A call that begins comes last in line. -/
theorem begin (line : Line kind x due h [] [] met sends receives) {e : Event}
    (half : y.half h = x.half h) (journal : y.journal = e :: x.journal)
    (unhanded : e.handedOn? h = none)
    (guarded : (x.half h).closed = x.journal.any (·.closes h) ∨ e.offerOn? kind h = none) :
    Line kind y due h
      ((if (x.half h).closed then [] else (e.offerOn? kind h).toList).map
        fun s => (.call s.1, s.2))
      ((e.askOn? kind h).toList.map .call) met
      (sends ++ if (x.half h).closed then [] else (e.offerOn? kind h).toList)
      (receives ++ (e.askOn? kind h).toList) := by
  refine ⟨?_, ?_, ?_, fun p mem => ?_, ?_, ?_, ?_, ?_, fun o mem => ?_⟩
  · rw [journal, Event.accepted, line.accepted, List.append_assoc]
    rcases guarded with same | none
    · rw [same]
    · simp [none]
  · rw [journal, ← List.singleton_append, Event.asked, Event.history_append, ← Event.asked,
      line.asked, List.append_assoc]
    congr 2
    cases ask : e.askOn? kind h <;> simp [Event.history, ask]
  · have nothing : ∀ e' ∈ [e], e'.handedOn? h = none := List.forall_mem_singleton.mpr unhanded
    rw [Exchange.passed, journal, ← List.singleton_append, Event.history_append,
      Event.history_of_none nothing, List.append_nil]
    exact line.passed
  · exact line.finished p mem
  · intro isOpen
    have before := line.senders (half ▸ isOpen)
    rw [List.append_nil] at before
    rw [half, before, List.map_append]
  · intro isOpen
    have before := line.receivers (half ▸ isOpen)
    rw [List.append_nil] at before
    rw [half, before, List.map_append]
  · intro isClosed
    rw [half] at isClosed
    rw [if_pos isClosed, List.append_nil]
    exact line.refused isClosed
  · intro isClosed r mem
    rw [half] at isClosed
    rcases List.mem_append.mp mem with old | new
    · exact (line.ended isClosed r old).imp_right (by rintro ⟨⟩)
    · exact .inr (List.mem_map_of_mem new)
  · obtain ⟨r, -, rfl⟩ := List.mem_map.mp mem
    exact ⟨r, rfl⟩

end Line

/-! ## Steps -/

theorem agenda_settle (w : Owner) (o : Outcome) (x : Exchange P) :
    (x.settle w o).agenda = x.agenda := by
  cases w with
  | call | plain | nobody => rfl
  | notice => cases o <;> rfl
  | service =>
      cases o with
      | ok => rfl
      | error v =>
          simp only [settle]
          split <;> rfl

theorem agenda_give (o : Outcome) (t : Task P) (x : Exchange P) :
    (x.give o t).agenda = x.agenda := by
  unfold give
  split
  · exact agenda_settle _ _ x
  · rfl

theorem agenda_shut (x : Exchange P) (h : HalfId) : (Direct.shut x h).agenda = x.agenda := by
  simp only [Direct.shut, closeChannel]
  split <;> rfl

theorem agenda_offer (m : Message) (terminal : Bool) (t : Task P) (x : Exchange P) :
    (x.offer h m terminal t).agenda = x.agenda := by
  simp only [offer]
  split <;> rfl

theorem agenda_receive (t : Task P) (x : Exchange P) : (x.receive h t).agenda = x.agenda := by
  simp only [receive]
  split <;> rfl

theorem Spares.run (h : HalfId) {w : Wake P} (wd : w.Direct) (x : Exchange P) :
    Spares h x (x.run w) := by
  cases w with
  | sent h' terminal taken t => cases terminal <;> exact push h _ x
  | received h' m t =>
      rcases m with _ | v | f <;> exact (record (.received _ _) trivial x).trans (push h _ _)
  | returned o t =>
      obtain ⟨frames, owner⟩ := t
      cases frames with
      | nil => exact settle h owner o x
      | cons f frames =>
          obtain ⟨rfl, -⟩ := List.forall_mem_cons.mp wd
          exact push h _ x
  | late => exact wd.elim

theorem askers_push (nothing : x.agenda = []) (w : Work P) :
    (x.push w).agenda.filterMap (·.asker? h) = (w.asker? h).toList := by
  change (w :: x.agenda).filterMap (·.asker? h) = _
  rw [nothing]
  cases asker : w.asker? h <;> simp [asker]

theorem askers_run (nothing : x.agenda = []) {w : Wake P} (wd : w.Direct) (h : HalfId) :
    (x.run w).agenda.filterMap (·.asker? h) = [] := by
  cases w with
  | sent h' terminal taken t => cases terminal <;> exact congrArg _ nothing
  | received h' m t => rcases m with _ | v | f <;> exact congrArg _ nothing
  | returned o t =>
      obtain ⟨frames, owner⟩ := t
      cases frames with
      | nil => 
          change ((x.settle owner o).agenda).filterMap _ = []
          rw [agenda_settle, nothing]
          rfl
      | cons f frames =>
          obtain ⟨rfl, -⟩ := List.forall_mem_cons.mp wd
          exact congrArg _ nothing
  | late => exact wd.elim

/-- A piece of work keeps the lines. -/
theorem Line.work {kind : StreamKind} {due : Nat → Outcome → Prop} {w : Work P} {met sends receives}
    (line : Line kind x due h [] (w.asker? h).toList met sends receives) (direct : x.Direct)
    (nothing : x.agenda = []) (wd : w.Direct) (keeps : Keeps due (x.work w)) :
    ∃ met sends receives, Line kind (x.work w) (x.work w).Due h []
      ((x.work w).agenda.filterMap (·.asker? h)) met sends receives := by
  cases w with
  | run w =>
      have silent : (x.work (.run w)).agenda.filterMap (·.asker? h) = [] := askers_run nothing wd h
      rw [silent]
      exact ⟨_, _, _, line.spared (Spares.run h wd x) keeps⟩
  | give o t =>
      have silent : (x.work (.give o t)).agenda = [] := (agenda_give o t x).trans nothing
      rw [silent]
      exact ⟨_, _, _, line.spared (Spares.give h o t x) keeps⟩
  | close h' next =>
      have left : (x.work (.close h' next)).agenda.filterMap (·.asker? h) =
          (next.asker? h).toList := by
        by_cases isClosed : (x.half h').closed
        · have closed : x.work (.close h' next) = x.push next := by
            simp [Exchange.work, Exchange.closeHalf, isClosed]
          rw [closed, askers_push nothing]
        · have shut : x.work (.close h' next) = (Direct.shut x h').push next :=
            direct.closeHalf_eq (by simpa using isClosed) next
          rw [shut, askers_push ((agenda_shut x h').trans nothing)]
      rw [left]
      by_cases spared : h ≠ h' ∨ (x.half h').closed = true
      · exact ⟨_, _, _, line.spared (Spares.closeHalf direct spared next) keeps⟩
      · simp only [ne_eq, not_or, not_not, Bool.not_eq_true] at spared
        obtain ⟨rfl, isOpen⟩ := spared
        have after : x.work (.close h next) = (Direct.shut x h).push next :=
          direct.closeHalf_eq isOpen next
        rw [after] at keeps ⊢
        exact ⟨_, _, _, line.shut direct isOpen next keeps⟩
  | receive h' t =>
      have silent : (x.work (.receive h' t)).agenda = [] := (agenda_receive t x).trans nothing
      rw [silent]
      by_cases same : h' = h
      · subst same
        have asker : (Work.asker? h' (.receive h' t)) = some t.owner := if_pos rfl
        rw [asker] at line
        obtain ⟨r, owner⟩ := line.asking t.owner List.mem_cons_self
        rw [owner] at line
        exact line.receive direct wd owner keeps
      · have asker : (Work.asker? h (.receive h' t)) = none := if_neg same
        rw [asker] at line
        exact ⟨_, _, _, line.spared (Spares.receive (Ne.symm same) t x) keeps⟩
  | enter | serve | deliver | emit => exact wd.elim

def begun (i : StreamId) (c : StreamCall) (x : Exchange P) : Exchange P :=
  { x with calls := x.calls + 1 }.record (.called x.calls (.stream i c))

theorem Direct.begun (direct : x.Direct) (i : StreamId) (c : StreamCall) : (x.begun i c).Direct :=
  ⟨direct.halves, direct.countdowns, direct.agenda, direct.ready⟩

/-- Whether an entry neither offers a message to a half that is open nor asks it for one. -/
def Avoids (h : HalfId) (i : StreamId) (isClosed : Bool) : Entry → Prop
  | .sends side _ _ _ => h = ⟨i, side⟩ → isClosed = true
  | .receives side => h ≠ ⟨i, side⟩
  | .closesAndReceives => h ≠ ⟨i, .responses⟩
  | _ => True

theorem Spares.enterEntry {i : StreamId} {e : Entry} (avoids : Avoids h i (x.half h).closed e)
    (t : Task P) : Spares h x (x.enterEntry i e t) := by
  cases e with
  | returns | fulfils | rejects => exact give h _ t x
  | throws | closes | closesAndReceives => exact push h _ x
  | receives side => exact receive avoids t x
  | sends side m terminal relayed =>
      simp only [Exchange.enterEntry]
      split
      next => exact give h _ t x
      next isOpen =>
        refine offer (fun same => isOpen ?_) m terminal _ x
        rw [← same]
        exact avoids same
  | closesOpen side =>
      simp only [Exchange.enterEntry]
      split
      · exact give h _ t x
      · exact push h _ x

theorem askers_enterEntry (nothing : x.agenda = []) {i : StreamId} {e : Entry} {isClosed : Bool}
    (avoids : Avoids h i isClosed e) (t : Task P) :
    (x.enterEntry i e t).agenda.filterMap (·.asker? h) = [] := by
  cases e with
  | returns | fulfils | rejects => exact congrArg _ ((agenda_give _ t x).trans nothing)
  | throws | closes => exact askers_push nothing _
  | receives side => exact congrArg _ ((agenda_receive t x).trans nothing)
  | sends side m terminal relayed =>
      simp only [enterEntry]
      split
      · exact congrArg _ ((agenda_give _ t x).trans nothing)
      · exact congrArg _ ((agenda_offer m terminal _ x).trans nothing)
  | closesOpen side =>
      simp only [enterEntry]
      split
      · exact congrArg _ ((agenda_give _ t x).trans nothing)
      · exact askers_push nothing _
  | closesAndReceives =>
      rw [enterEntry, askers_push nothing]
      simp [Work.asker?, Ne.symm avoids]

namespace Line

variable {kind : StreamKind} {due : Nat → Outcome → Prop} {met : List ((Nat × Message) × Nat)}
  {sends : List (Nat × Message)} {receives : List Nat} {i : StreamId} {side : Side} {n : Nat}
  {m : Message}

theorem enter_avoids (line : Line kind x due h [] [] met sends receives) (nothing : x.agenda = [])
    {e : Entry} (avoids : Avoids h i (x.half h).closed e)
    (keeps : Keeps due (x.enterEntry i e t)) :
    ∃ met sends receives, Line kind (x.enterEntry i e t) (x.enterEntry i e t).Due h []
      ((x.enterEntry i e t).agenda.filterMap (·.asker? h)) met sends receives := by
  rw [askers_enterEntry nothing avoids]
  exact ⟨_, _, _, line.spared (Spares.enterEntry avoids t) keeps⟩

theorem enter_sends (line : Line kind x due ⟨i, side⟩ [(.call n, m)] [] met sends receives)
    (direct : x.Direct) (nothing : x.agenda = []) (isOpen : (x.half ⟨i, side⟩).closed = false)
    {terminal relayed : Bool} (td : t.Direct) (owner : t.owner = .call n)
    (keeps : Keeps due (x.enterEntry i (.sends side m terminal relayed) t)) :
    ∃ met sends receives, Line kind (x.enterEntry i (.sends side m terminal relayed) t)
      (x.enterEntry i (.sends side m terminal relayed) t).Due ⟨i, side⟩ []
      ((x.enterEntry i (.sends side m terminal relayed) t).agenda.filterMap
        (·.asker? ⟨i, side⟩)) met sends receives := by
  simp only [enterEntry, isOpen, Bool.false_eq_true, if_false] at keeps ⊢
  rw [agenda_offer, nothing]
  refine line.offer direct isOpen terminal ?_ ?_ keeps
  · cases relayed with
    | false => exact td
    | true => exact List.forall_mem_cons.mpr ⟨rfl, td⟩
  · cases relayed <;> exact owner

theorem enter_receives (line : Line kind x due ⟨i, side⟩ [] [.call n] met sends receives)
    (direct : x.Direct) (nothing : x.agenda = []) (td : t.Direct) (owner : t.owner = .call n)
    (keeps : Keeps due (x.enterEntry i (.receives side) t)) :
    ∃ met sends receives, Line kind (x.enterEntry i (.receives side) t)
      (x.enterEntry i (.receives side) t).Due ⟨i, side⟩ []
      ((x.enterEntry i (.receives side) t).agenda.filterMap (·.asker? ⟨i, side⟩))
      met sends receives := by
  have silent : (x.enterEntry i (.receives side) t).agenda = [] :=
    (agenda_receive t x).trans nothing
  rw [silent]
  exact line.receive direct td owner keeps

/-- A call that is entered to close the requests and then to ask for the response: it asks in what
is left to do. -/
theorem enter_closesAndReceives
    (line : Line kind x due ⟨i, .responses⟩ [] [.call n] met sends receives)
    (nothing : x.agenda = []) (owner : t.owner = .call n)
    (keeps : Keeps due (x.enterEntry i .closesAndReceives t)) :
    ∃ met sends receives, Line kind (x.enterEntry i .closesAndReceives t)
      (x.enterEntry i .closesAndReceives t).Due ⟨i, .responses⟩ []
      ((x.enterEntry i .closesAndReceives t).agenda.filterMap (·.asker? ⟨i, .responses⟩))
      met sends receives := by
  have asker : (x.enterEntry i .closesAndReceives t).agenda.filterMap
      (·.asker? ⟨i, .responses⟩) = [.call n] := by
    rw [enterEntry, askers_push nothing]
    simp [Work.asker?, owner]
  rw [asker]
  exact ⟨_, _, _, line.spared (Spares.push _ _ x) keeps⟩

/-- A call of a method keeps the lines. -/
theorem enter {role : Role} {method : Method}
    (line : Line kind x x.Due h [] [] met sends receives) (direct : x.Direct)
    (nothing : x.agenda = []) (kindOf : x.kindOf i = kind)
    (guarded : (x.half h).closed = x.journal.any (·.closes h) ∨
      (Event.called x.calls (.stream i (.method role method))).offerOn? kind h = none)
    (keeps : Keeps x.Due (x.command (.call (.stream i (.method role method))))) :
    ∃ met sends receives, Line kind (x.command (.call (.stream i (.method role method))))
      (x.command (.call (.stream i (.method role method)))).Due h []
      ((x.command (.call (.stream i (.method role method)))).agenda.filterMap (·.asker? h))
      met sends receives := by
  have begun := line.begin (y := x.begun i (.method role method)) rfl rfl rfl guarded
  have directly := direct.begun i (.method role method)
  have idle : (x.begun i (.method role method)).agenda = [] := nothing
  have command : x.command (.call (.stream i (.method role method))) =
      (x.begun i (.method role method)).enterEntry i (method.entry kind role)
        ⟨[], if (method.entry kind role).isPlain then .plain x.calls else .call x.calls⟩ := by
    rw [← kindOf]
    rfl
  rw [command] at keeps ⊢
  simp only [Event.offerOn?, Event.askOn?, Event.entry?] at begun
  generalize method.entry kind role = e at begun keeps
  cases e with
  | returns | fulfils | rejects | throws | closes | closesOpen =>
      have silent :
          Line kind (x.begun i (.method role method)) x.Due h [] [] met sends receives := by
        simpa using begun
      exact silent.enter_avoids idle trivial keeps
  | receives side =>
      by_cases here : (⟨i, side⟩ : HalfId) = h
      · subst here
        have asks : Line kind (x.begun i (.method role method)) x.Due ⟨i, side⟩ []
            [.call x.calls] met sends (receives ++ [x.calls]) := by simpa using begun
        exact asks.enter_receives directly idle (by rintro _ ⟨⟩) rfl keeps
      · have aside : Line kind (x.begun i (.method role method)) x.Due h [] [] met sends
            receives := by simpa [here] using begun
        exact aside.enter_avoids idle (Ne.symm here) keeps
  | sends side message terminal relayed =>
      by_cases here : (⟨i, side⟩ : HalfId) = h ∧ (x.half h).closed = false
      · obtain ⟨rfl, isOpen⟩ := here
        have offers : Line kind (x.begun i (.method role method)) x.Due ⟨i, side⟩
            [(.call x.calls, message)] [] met (sends ++ [(x.calls, message)]) receives := by
          simpa [isOpen] using begun
        exact offers.enter_sends directly idle isOpen (by rintro _ ⟨⟩) rfl keeps
      · have avoids : h = ⟨i, side⟩ → (x.half h).closed = true := by
          rintro rfl
          exact Bool.of_not_eq_false fun isOpen => here ⟨rfl, isOpen⟩
        have aside : Line kind (x.begun i (.method role method)) x.Due h [] [] met sends
            receives := by
          by_cases same : h = ⟨i, side⟩
          · simpa [avoids same] using begun
          · simpa [Ne.symm same] using begun
        exact aside.enter_avoids idle avoids keeps
  | closesAndReceives =>
      by_cases here : (⟨i, .responses⟩ : HalfId) = h
      · subst here
        have asks : Line kind (x.begun i (.method role method)) x.Due ⟨i, .responses⟩ []
            [.call x.calls] met sends (receives ++ [x.calls]) := by simpa using begun
        exact asks.enter_closesAndReceives idle rfl keeps
      · have aside : Line kind (x.begun i (.method role method)) x.Due h [] [] met sends
            receives := by simpa [here] using begun
        exact aside.enter_avoids idle (Ne.symm here) keeps

end Line

end Exchange

end ObjectTransfer
