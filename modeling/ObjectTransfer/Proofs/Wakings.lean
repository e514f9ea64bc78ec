import ObjectTransfer.Proofs.Entries
import ObjectTransfer.Proofs.Terminations

/-! # Who waits

Nobody waits at a half that is closed, and never do a sender and a receiver both wait at one that is
open. Closing a half lets all who wait there go on: those who receive with the end marker, and those
who send with a failure (`Exchange.nobody_waits_at_closed`).
-/

namespace ObjectTransfer

variable {P : Plugin} {kind : StreamKind} {h : HalfId} {i : StreamId}

namespace Entry

def Offers (side : Side) : Entry → Prop
  | sends side' _ _ _ => side' = side
  | _ => False

/-- Whether a method hands a message to a half, takes one, or closes it. -/
def ActsOn (side : Side) : Entry → Prop
  | receives side' => side' = side
  | sends side' _ _ _ => side' = side
  | closes side' => side' = side
  | closesOpen side' => side' = side
  | closesAndReceives => side = .responses
  | _ => False

theorem HasStage.parked {s : Scene P} {e : Entry} {st : Stage} (hasStage : e.HasStage s i st)
    (parked : st.IsParked) :
    (∃ side, e.Asks side ∧ st = .wanting ⟨i, side⟩) ∨
      ∃ side m terminal, e.Offers side ∧ st = .offering ⟨i, side⟩ m terminal := by
  have receiving {h : HalfId} (receives : st.Receives s h) : st = .wanting h := by
    cases receives with
    | wanting => rfl
    | _ => exact parked.elim
  cases hasStage with
  | @receives side _ receives => exact .inl ⟨side, .inl rfl, receiving receives⟩
  | thenReceives _ receives => exact .inl ⟨.responses, .inr ⟨rfl, rfl⟩, receiving receives⟩
  | @sends side m terminal relayed _ sends =>
      cases sends with
      | offering => exact .inr ⟨side, m, terminal, rfl, rfl⟩
      | _ => exact parked.elim
  | _ => exact parked.elim

theorem Asks.acts {side side' : Side} {e : Entry} (asks : e.Asks side) (acts : e.ActsOn side') :
    side = side' := by
  rcases asks with rfl | ⟨rfl, rfl⟩
  · exact acts
  · exact acts.symm

theorem Offers.acts {side side' : Side} {e : Entry} (offers : e.Offers side)
    (acts : e.ActsOn side') : side = side' := by
  cases e with
  | sends => exact offers.symm.trans acts
  | _ => exact offers.elim

theorem Asks.acting {side : Side} {e : Entry} (asks : e.Asks side) : e.ActsOn side := by
  rcases asks with rfl | ⟨rfl, rfl⟩ <;> rfl

theorem Offers.acting {side : Side} {e : Entry} (offers : e.Offers side) : e.ActsOn side := by
  cases e with
  | sends => exact offers
  | _ => exact offers.elim

/-- No method both takes a message and hands one over. -/
theorem Asks.not_offers {side side' : Side} {e : Entry} (asks : e.Asks side) :
    ¬ e.Offers side' := by
  rcases asks with rfl | ⟨rfl, -⟩ <;> exact id

end Entry

/-- Nobody waits in a channel that is closed. -/
theorem Half.Guarded.vacant {half : Half P} (guarded : half.Guarded) (closed : half.closed = true) :
    half.channel.senders = [] ∧ half.channel.receivers = [] := by
  have channel := guarded.channel
  rw [closed] at channel
  cases shut : half.channel with
  | closed => exact ⟨rfl, rfl⟩
  | offering | wanting =>
      rw [shut] at channel
      cases channel

namespace Scene

variable {s s' : Scene P} {n : Nat} {role : Role} {m : Method}

/-- When nothing can go on, a call that did not settle waits at a half. -/
theorem Attends.waits (attends : s.Attends kind i) (quiet : s.Quiet)
    (called : .called n (.stream i (.method role m)) ∈ s.events)
    (unsettled : ∀ so, .settled n so ∉ s.events) :
    ∃ th ∈ s.threads, ∃ side, th.stage.ParkedAt ⟨i, side⟩ ∧
      ((m.entry kind role).Asks side ∧ th.stage = .wanting ⟨i, side⟩ ∨
        (m.entry kind role).Offers side ∧ ∃ m' terminal, th.stage =
          .offering ⟨i, side⟩ m' terminal) := by
  obtain ⟨th, mem, named⟩ := (attends.accounted called).thread unsettled
  obtain ⟨-, hasStage⟩ := (attends.under called).threads th mem named
  rcases hasStage.parked (quiet.parked th mem) with
    ⟨side, asks, stage⟩ | ⟨side, m', terminal, offers, stage⟩
  · exact ⟨th, mem, side, stage ▸ rfl, .inl ⟨asks, stage⟩⟩
  · exact ⟨th, mem, side, stage ▸ rfl, .inr ⟨offers, m', terminal, stage⟩⟩

theorem Due.shifts {c : StreamCall} {o : Outcome} (due : s.Due n o) (attends : s.Attends kind i)
    (called : .called n (.stream i c) ∈ s.events) (shifts : Shifts s s') :
    s'.Due n o ∧ s'.Attends kind i := by
  induction shifts with
  | refl => exact ⟨due, attends⟩
  | tail before shift ih =>
      obtain ⟨due, attends⟩ := ih
      have called := (Shifts.later before).mem called
      have numbered := attends.numbered
      exact ⟨due.stir (numbered.below called) (shift.stir (numbered.apart called)),
        attends.shift shift⟩

end Scene

namespace Exchange

variable {x y z : Exchange P} {kinds : List StreamKind} {n : Nat} {role : Role} {m : Method}

/-- What is known when nothing can go on: at a half that is closed no call is left, and at an open
one not both a call that sends and one that receives. -/
structure Rested (kind : StreamKind) (h : HalfId) (x : Exchange P) : Prop where
  closed : (x.half h).closed = true →
    ∀ {n role m}, .called n (.stream h.stream (.method role m)) ∈ x.journal →
      (m.entry kind role).ActsOn h.side → ∃ so, .settled n so ∈ x.journal
  unclosed : (x.half h).closed = false →
    ∀ {n role m n' role' m'}, .called n (.stream h.stream (.method role m)) ∈ x.journal →
      (m.entry kind role).Offers h.side →
      .called n' (.stream h.stream (.method role' m')) ∈ x.journal →
      (m'.entry kind role').Asks h.side →
      (∃ so, .settled n so ∈ x.journal) ∨ ∃ so, .settled n' so ∈ x.journal

/-- What the closing of a half means for all who wait there, and for the calls among them. -/
structure Wakes (h : HalfId) (x y : Exchange P) : Prop where
  receivers : ∀ t ∈ (x.half h).channel.receivers, .received h none t ∈ y.ready ∧
    ∀ {n role m z}, t.owner = .call n → .called n (.stream h.stream (.method role m)) ∈ x.journal →
      Run (fun _ => True) y z → z.Leads n (.fulfilled .eof)
  senders : ∀ s ∈ (x.half h).channel.senders, .sent h s.2.terminal false s.2.task ∈ y.ready ∧
    ∀ {n role m z}, s.2.task.owner = .call n →
      .called n (.stream h.stream (.method role m)) ∈ x.journal →
      Run (fun _ => True) y z → z.Leads n (.rejected (.fault .streamClosed))

theorem Run.grown (run : Run (fun _ => True) (ofStreams P kinds) x)
    (later : Run (fun _ => True) x y) : x.journal <:+ y.journal :=
  (later.sound ⟨List.suffix_rfl, (run.sound (sound_ofStreams P kinds)).aligned⟩).grown

theorem Run.leads_of_thread (run : Run (fun _ => True) (ofStreams P kinds) x)
    (known : kinds[i]? = some kind) (called : .called n (.stream i (.method role m)) ∈ x.journal)
    {th : Thread P} (mem : th ∈ x.threads) (owner : th.owner = .call n) {o : Outcome}
    (outcome : th.stage.outcome? = some o) (later : Run (fun _ => True) x y) :
    y.Leads n (.ofPromise o) := by
  obtain ⟨turns, attends⟩ := run.attends known
  have called := (mem_events rfl turns).mpr called
  obtain ⟨frames, -⟩ := (attends.under called).threads th mem (owner ▸ rfl)
  have due := Scene.Due.of_accounted (attends.accounted called) mem owner frames outcome
  obtain ⟨turns', shifts⟩ := run.shifts later turns
  obtain ⟨due, attends⟩ := due.shifts attends called shifts
  exact leads_of_due (attends.accounted (shifts.later.mem called)) due

theorem rested (run : Run (fun _ => True) (ofStreams P kinds) x)
    (known : kinds[h.stream]? = some kind)
    (quiet : x.isQuiet = true) : x.Rested kind h := by
  obtain ⟨turns, attends⟩ := run.attends known
  have still := quiet_scene quiet turns
  have waits {n role m} (called : .called n (.stream h.stream (.method role m)) ∈ x.journal)
      (unsettled : ¬ ∃ so, .settled n so ∈ x.journal) :=
    attends.waits still ((mem_events rfl turns).mpr called) fun so settled =>
      unsettled ⟨so, (mem_events rfl turns).mp settled⟩
  constructor
  · intro closed n role m called acts
    by_contra unsettled
    obtain ⟨th, mem, side, parked, waits⟩ := waits called unsettled
    have here : side = h.side := by
      rcases waits with ⟨asks, -⟩ | ⟨offers, -⟩
      · exact asks.acts acts
      · exact offers.acts acts
    subst here
    have isOpen := Half.channel_open (run.guarded h) (mem_half_threads (x := x) mem parked)
    rw [closed] at isOpen
    cases isOpen
  · intro _ n role m n' role' m' called offers called' asks
    by_contra unsettled
    obtain ⟨one, other⟩ := not_or.mp unsettled
    obtain ⟨th, mem, side, parked, ⟨asks', -⟩ | ⟨offers', sent, terminal, stage⟩⟩ :=
      waits called one
    · exact asks'.not_offers offers
    obtain ⟨th', mem', side', parked', ⟨asks', stage'⟩ | ⟨offers', -⟩⟩ := waits called' other
    · obtain rfl := offers'.acts offers.acting
      obtain rfl := asks'.acts asks.acting
      obtain ⟨_, frames, owner⟩ := th
      obtain ⟨_, frames', owner'⟩ := th'
      cases stage
      cases stage'
      exact Half.not_both (mem_half_threads (x := x) mem' parked')
        (mem_half_threads (x := x) mem parked)
    · exact asks.not_offers offers'

/-! ## Closings -/

theorem ready_closeHalf (guarded : (x.half h).Guarded) (isOpen : (x.half h).closed = false)
    (next : Work P) : (x.closeHalf h next).ready = x.ready ++
      (x.half h).channel.receivers.map (.received h none) ++
      (x.half h).channel.senders.map fun s => .sent h s.2.terminal false s.2.task := by
  have announced (y : Exchange P) : (y.announce h next).ready = y.ready := by
    simp only [announce]
    split <;> rfl
  have told (receivers : List (Task P)) (senders : List (Offer P)) (y : Exchange P) :
      (y.closeChannel h receivers senders).ready = y.ready ++ receivers.map (.received h none) ++
        senders.map fun s => .sent h s.terminal false s.task := by
    simp only [closeChannel]
    split <;> rfl
  rw [closeHalf_of_open guarded isOpen, announced, told, List.map_map]
  rfl

theorem carries_iff (ts) :
    x.Carries h ↔ ∃ k, (x.scene ts).kinds[h.stream]? = some k ∧ k.Carries h.side := by
  simp [Carries, scene]

theorem mem_of_closings (pos : 0 < x.closings h) : .closed h ∈ x.journal := by
  obtain ⟨e, mem, closes⟩ := List.countP_pos_iff.mp pos
  cases e with
  | closed h' =>
      obtain rfl : h' = h := of_decide_eq_true closes
      exact mem
  | _ => cases closes

theorem Run.closing (run : Run (fun _ => True) (ofStreams P kinds) x)
    (move : Move (fun _ => True) x y) (isOpen : (x.half h).closed = false)
    (closed : (y.half h).closed = true) :
    ∃ next rest, x.agenda = .close h next :: rest ∧
      y = ({ x with agenda := rest } : Exchange P).closeHalf h next := by
  have sound := run.sound (sound_ofStreams P kinds)
  obtain ⟨carries, none⟩ := (sound.aligned h).unclosed isOpen
  obtain ⟨turns, shifts⟩ := run.shifts move.run []
  obtain ⟨more, kinds⟩ := shifts.later.kinds
  obtain ⟨kind, known, carried⟩ := (carries_iff []).mp carries
  have carries' : y.Carries h := by
    refine (carries_iff turns).mpr ⟨kind, ?_, carried⟩
    rw [← kinds, List.getElem?_append_left (List.getElem?_eq_some_iff.mp known).1, known]
  have one : y.closings h = 1 := by
    rcases ((sound.move move).aligned h).closed closed with ⟨-, one⟩ | ⟨absent, -⟩
    · exact one
    · exact absurd carries' absent
  have unclosed : .closed h ∉ x.journal := fun mem =>
    absurd (List.countP_pos_iff.mpr ⟨_, mem, decide_eq_true rfl⟩) (Nat.not_lt.mpr none.le)
  obtain ⟨next, rest, agenda⟩ :=
    (move.closes run.guarded (mem_of_closings (one ▸ Nat.one_pos))).resolve_left unclosed
  refine ⟨next, rest, agenda, ?_⟩
  cases move with
  | work first =>
      obtain ⟨rfl, rfl⟩ := List.cons.inj (first.symm.trans agenda)
      rfl
  | resume nothing | command nothing =>
      rw [nothing] at agenda
      cases agenda

theorem Wake.mem_threads {w : Wake P} {th : Thread P} (ready : w ∈ x.ready) (mem : th ∈ w.threads) :
    th ∈ x.threads := by
  have inside : th ∈ x.ready.flatMap Wake.threads := List.mem_flatMap.mpr ⟨w, ready, mem⟩
  simp only [threads, Multiset.mem_add, Multiset.mem_coe]
  exact .inl (.inl (.inr inside))

/-- Who waits at a half goes on as it closes. -/
theorem Run.wakes (run : Run (fun _ => True) (ofStreams P kinds) x)
    (known : kinds[h.stream]? = some kind) (move : Move (fun _ => True) x y)
    (isOpen : (x.half h).closed = false)
    (closed : (y.half h).closed = true) : Wakes h x y := by
  obtain ⟨next, rest, agenda, became⟩ := run.closing move isOpen closed
  have ready : y.ready = x.ready ++ (x.half h).channel.receivers.map (.received h none) ++
      (x.half h).channel.senders.map fun s => .sent h s.2.terminal false s.2.task := by
    rw [became]
    exact ready_closeHalf (x := { x with agenda := rest }) (run.guarded h) isOpen next
  have reached := run.step move
  have grown : x.journal ⊆ y.journal := (run.grown move.run).subset
  refine ⟨fun t mem => ?_, fun s mem => ?_⟩
  · have awake : .received h none t ∈ y.ready := by
      rw [ready]
      exact List.mem_append_left _ (List.mem_append_right _ (List.mem_map_of_mem mem))
    refine ⟨awake, fun owner called later => ?_⟩
    exact reached.leads_of_thread known (grown called)
      (Wake.mem_threads awake List.mem_cons_self) owner rfl
      later
  · have awake : .sent h s.2.terminal false s.2.task ∈ y.ready := by
      rw [ready]
      exact List.mem_append_right _ (List.mem_map_of_mem mem)
    refine ⟨awake, fun owner called later => ?_⟩
    have refused : (Stage.sent h s.2.terminal false).outcome? =
        some (.error (.fault .streamClosed)) := by
      cases s.2.terminal <;> rfl
    exact reached.leads_of_thread known (grown called)
      (Wake.mem_threads awake List.mem_cons_self) owner
      refused later

/-- However the streams are used and in whatever order their tasks go on, nobody waits at a half
that is closed. When nothing can go on, a closed half has no call left, and an open one has no call
left that sends, or none that receives. As a half closes, the calls that wait there come to the end
marker if they receive, and fail if they send. -/
theorem nobody_waits_at_closed (run : Run (fun _ => True) (ofStreams P kinds) x)
    (known : kinds[h.stream]? = some kind) :
    ((x.half h).closed = true → (x.half h).channel.senders = [] ∧
      (x.half h).channel.receivers = []) ∧
    (x.isQuiet = true → x.Rested kind h) ∧
    ∀ {y}, Move (fun _ => True) x y → (x.half h).closed = false → (y.half h).closed = true →
      Wakes h x y :=
  ⟨(run.guarded h).vacant, rested run known, run.wakes known⟩

/-- A client sends to an upload and aborts it while nobody receives, and the half is about to be
closed from outside. -/
def unheard : Exchange .idle :=
  let x := ((ofStreams .idle [.upload]).command
    (.call (.stream 0 (.method .client (.send (.bytes [1])))))).clear 20
  let x := (x.command (.call (.stream 0 (.method .client (.sendRaw
    (.rawError (.fault ⟨.error, none, "boom", .undefined⟩))))))).clear 20
  x.command (.call (.stream 0 (.close .requests)))

/-- Both calls fail, and neither is left. -/
theorem unheard_nobody_waits : (unheard.half ⟨0, .requests⟩).channel.senders.length = 2 ∧
    .settled 0 (.rejected (.fault .streamClosed)) ∈ (unheard.advance 20).journal ∧
    .settled 1 (.rejected (.fault .streamClosed)) ∈ (unheard.advance 20).journal ∧
    (unheard.advance 20).Rested .upload ⟨0, .requests⟩ := by
  have sent : Run (fun _ => True) (ofStreams .idle [.upload]) _ :=
    (Run.refl.step (.command (c := .call (.stream 0 (.method .client (.send (.bytes [1]))))) rfl
      trivial)).trans (run_clear 20 _)
  have aborted := (sent.step (.command (c := .call (.stream 0 (.method .client (.sendRaw
    (.rawError (.fault ⟨.error, none, "boom", .undefined⟩)))))) rfl trivial)).trans (run_clear 20 _)
  have run : Run (fun _ => True) (ofStreams .idle [.upload]) unheard :=
    aborted.step (.command (c := .call (.stream 0 (.close .requests))) rfl trivial)
  have move : Move (fun _ => True) unheard (unheard.advance 1) := move_of_advance? rfl
  have later : Run (fun _ => True) (unheard.advance 1) (unheard.advance 20) := run_advance 19 _
  have quiet : (unheard.advance 20).isQuiet = true := rfl
  obtain ⟨-, -, wakes⟩ := nobody_waits_at_closed run (h := ⟨0, .requests⟩) rfl
  have senders := (wakes move rfl rfl).senders
  have first := (senders _ (List.mem_of_getElem? (i := 0) rfl)).2 rfl
    (List.mem_of_getElem? (i := 2) rfl) later
  have second := (senders _ (List.mem_of_getElem? (i := 1) rfl)).2 rfl
    (List.mem_of_getElem? (i := 1) rfl) later
  obtain ⟨-, rested, -⟩ :=
    nobody_waits_at_closed (run.trans (run_advance 20 unheard)) (h := ⟨0, .requests⟩) rfl
  exact ⟨rfl, first.2 quiet, second.2 quiet, rested quiet⟩

end Exchange

end ObjectTransfer
