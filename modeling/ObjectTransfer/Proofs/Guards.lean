import ObjectTransfer.Proofs.InOrder

/-! # Guards and channels

Whatever is called, and whatever the listeners of closures do while a half closes, the guard of a
half says closed when its channel is closed, and the half was closed once or not at all
(`Exchange.guards_exact`).
-/

namespace ObjectTransfer

variable {P : Plugin}

theorem Stream.fresh_open_iff {kind : StreamKind} {side : Side} :
    ((Stream.fresh P kind).half side).closed = false ↔ kind.Carries side := by
  cases kind <;> cases side <;> simp [StreamKind.Carries, fresh, half, Half.fresh, Half.shut]

namespace Exchange

def closings (x : Exchange P) (h : HalfId) : Nat := x.journal.countP (·.closes h)

/-- Whether a half exists and has messages. -/
def Carries (x : Exchange P) (h : HalfId) : Prop :=
  ∃ s, x.streams[h.stream]? = some s ∧ s.kind.Carries h.side

/-- The exchange once a half is marked closed and its channel is closed. -/
def sealHalf (h : HalfId) (x : Exchange P) : Exchange P :=
  (x.modifyHalf h fun half => { half with closed := true, channel := .closed }).record (.closed h)

/-- A half whose guard agrees with its channel and with its past. -/
structure Aligned (x : Exchange P) (h : HalfId) : Prop where
  guarded : (x.half h).Guarded
  unclosed : (x.half h).closed = false → x.Carries h ∧ x.closings h = 0
  closed : (x.half h).closed = true → x.Carries h ∧ x.closings h = 1 ∨ ¬ x.Carries h ∧
    x.closings h = 0

/-- An exchange with this past, where every half is aligned. -/
structure Sound (past : List Event) (x : Exchange P) : Prop where
  grown : past <:+ x.journal
  aligned : ∀ h, x.Aligned h

variable {x y : Exchange P} {past : List Event} {h : HalfId}

theorem carries_congr (streams : y.streams = x.streams) : y.Carries h ↔ x.Carries h := by
  simp only [Carries, streams]

theorem carries_modifyHalf (h' : HalfId) (f : Half P → Half P) :
    (x.modifyHalf h' f).Carries h ↔ x.Carries h := by
  have kind (s : Stream P) : (s.modify h'.side f).kind = s.kind := by cases h'.side <;> rfl
  simp only [Carries, modifyHalf, List.getElem?_modify]
  split
  · cases x.streams[h.stream]? <;> simp [kind]
  · simp

theorem closings_record (e : Event) :
    (x.record e).closings h = x.closings h + if e.closes h then 1 else 0 := by
  simp only [closings, record, List.countP_cons]

namespace Sound

/-! ## Operations that close nothing -/

theorem of_same (sound : Sound past x) (streams : y.streams = x.streams)
    (journal : y.journal = x.journal) : Sound past y := by
  refine ⟨journal ▸ sound.grown, fun h => ?_⟩
  have halves := half_congr streams h
  have carries := carries_congr (h := h) streams
  have counts : y.closings h = x.closings h := by rw [closings, journal, closings]
  obtain ⟨guarded, unclosed, closed⟩ := sound.aligned h
  exact ⟨halves ▸ guarded, by rwa [halves, carries, counts], by rwa [halves, carries, counts]⟩

theorem record (sound : Sound past x) {e : Event} (aside : ∀ h, e.closes h = false) :
    Sound past (x.record e) := by
  refine ⟨sound.grown.trans (List.suffix_cons e x.journal), fun h => ?_⟩
  have counts : (x.record e).closings h = x.closings h := by simp [closings_record, aside h]
  obtain ⟨guarded, unclosed, closed⟩ := sound.aligned h
  exact ⟨guarded, counts ▸ unclosed, counts ▸ closed⟩

theorem push (sound : Sound past x) (w : Work P) : Sound past (x.push w) := sound.of_same rfl rfl

theorem wake (sound : Sound past x) (w : Wake P) : Sound past (x.wake w) := sound.of_same rfl rfl

theorem settle (sound : Sound past x) (w : Owner) (o : Outcome) : Sound past (x.settle w o) := by
  cases w with
  | call | plain => exact sound.record fun _ => rfl
  | notice => cases o with
    | ok => exact sound
    | error => exact sound.record fun _ => rfl
  | service =>
      cases o with
      | ok => exact sound
      | error v =>
          simp only [Exchange.settle]
          split <;> exact sound.record fun _ => rfl
  | nobody => exact sound

theorem answer (sound : Sound past x) (n : Nat) (v : Value) : Sound past (x.answer n v) :=
  sound.settle _ _

theorem give (sound : Sound past x) (o : Outcome) (t : Task P) : Sound past (x.give o t) := by
  simp only [Exchange.give]
  split
  · exact sound.settle _ _
  · exact sound.wake _

theorem awaitGates (sound : Sound past x) (names : List String) (t : Task P) :
    Sound past (x.awaitGates names t) := by
  simp only [Exchange.awaitGates]
  split
  · exact sound.wake _
  · split
    · exact sound.wake _
    · exact sound.of_same rfl rfl

theorem settleGate (sound : Sound past x) (name : String) (o : Outcome) :
    Sound past (x.settleGate name o) := by
  simp only [Exchange.settleGate]
  split
  · exact sound
  · exact sound.of_same rfl rfl

theorem modifyHalf (sound : Sound past x) {f : Half P → Half P}
    (guarded : (x.half h).Guarded → (f (x.half h)).Guarded)
    (same : (f (x.half h)).closed = (x.half h).closed) : Sound past (x.modifyHalf h f) := by
  by_cases has : x.Has h
  · refine ⟨sound.grown, fun h' => ?_⟩
    have aligned := sound.aligned h'
    by_cases here : h' = h
    · subst here
      have changed := half_modifyHalf has f
      refine ⟨changed ▸ guarded aligned.guarded, ?_, ?_⟩ <;>
        rw [changed, same, carries_modifyHalf]
      · exact aligned.unclosed
      · exact aligned.closed
    · have kept := half_modifyHalf_of_ne here f (x := x)
      refine ⟨kept ▸ aligned.guarded, ?_, ?_⟩ <;> rw [kept, carries_modifyHalf]
      · exact aligned.unclosed
      · exact aligned.closed
  · rwa [modifyHalf_of_not_has has]

theorem setChannel (sound : Sound past x) {c : Channel Message (Offer P) (Task P)}
    (same : c.isClosed = (x.half h).channel.isClosed) : Sound past (x.setChannel h c) :=
  sound.modifyHalf (fun guarded => ⟨guarded.closing, same.trans guarded.channel⟩) rfl

theorem offer (sound : Sound past x) (m : Message) (terminal : Bool) (t : Task P) :
    Sound past (x.offer h m terminal t) := by
  have sent := sound.setChannel (Channel.isClosed_send (x.half h).channel m ⟨terminal, t⟩)
  simp only [Exchange.offer]
  split
  · exact sent
  · exact ((sent.record fun _ => rfl).wake _).wake _
  · exact sent.wake _

theorem receive (sound : Sound past x) (t : Task P) : Sound past (x.receive h t) := by
  have received := sound.setChannel (Channel.isClosed_receive (x.half h).channel t)
  simp only [Exchange.receive]
  split
  · exact received
  · exact ((received.record fun _ => rfl).wake _).wake _
  · exact received.wake _

theorem attach (sound : Sound past x) (h : HalfId) (hook : Hook) :
    Sound past (x.attach h hook) := by
  simp only [Exchange.attach]
  split
  · exact sound.wake _
  · exact sound.modifyHalf (fun guarded => ⟨guarded.closing, guarded.channel⟩) rfl

theorem whenClosed (sound : Sound past x) (i : StreamId) (l : Listener) :
    Sound past (x.whenClosed i l) := by
  simp only [Exchange.whenClosed]
  split
  · exact sound.attach _ _
  · have counted : Sound past { x with countdowns := x.countdowns ++ [(2, l)] } :=
      sound.of_same rfl rfl
    exact (counted.attach _ _).attach _ _

theorem announce (sound : Sound past x) (h : HalfId) (next : Work P) :
    Sound past (x.announce h next) := by
  simp only [Exchange.announce]
  split
  · exact sound.push _
  · exact (sound.push _).push _

/-- What was never opened was never closed. -/
theorem closings_of_not_carries (sound : Sound past x) (absent : ¬ x.Carries h) :
    x.closings h = 0 := by
  by_cases isClosed : (x.half h).closed = true
  · rcases (sound.aligned h).closed isClosed with ⟨carries, -⟩ | ⟨-, none⟩
    · exact absurd carries absent
    · exact none
  · exact ((sound.aligned h).unclosed (by simpa using isClosed)).2

theorem openStream (sound : Sound past x) (kind : StreamKind) :
    Sound past (x.openStream (.fresh P kind)) := by
  refine ⟨sound.grown, fun h => ?_⟩
  by_cases new : h.stream = x.streams.length
  · have none : (x.openStream (.fresh P kind)).closings h = 0 :=
      sound.closings_of_not_carries (h := h) (by simp [Carries, new])
    have carries : (x.openStream (.fresh P kind)).Carries h ↔ kind.Carries h.side := by
      cases kind <;> simp [Carries, Exchange.openStream, new, Stream.fresh]
    have half := half_openStream_new new (.fresh P kind)
    refine ⟨?_, fun isOpen => ⟨carries.mpr ?_, none⟩, fun isClosed => .inr ⟨fun has => ?_, none⟩⟩
    · rw [half]
      cases kind <;> cases h.side <;> exact ⟨rfl, rfl⟩
    · rwa [half, Stream.fresh_open_iff] at isOpen
    · have isOpen := (Stream.fresh_open_iff (P := P)).mpr (carries.mp has)
      rw [half, isOpen] at isClosed
      cases isClosed
  · have half := half_openStream_of_ne new (.fresh P kind)
    have carries : (x.openStream (.fresh P kind)).Carries h ↔ x.Carries h := by
      simp only [Carries, Exchange.openStream, List.getElem?_append]
      split
      · exact Iff.rfl
      next beyond =>
        have above : h.stream - x.streams.length ≠ 0 := Nat.sub_ne_zero_of_lt
          (Nat.lt_of_le_of_ne (Nat.le_of_not_lt beyond) (Ne.symm new))
        simp [List.getElem?_eq_none (Nat.le_of_not_lt beyond), above]
    obtain ⟨guarded, unclosed, closed⟩ := sound.aligned h
    exact ⟨half ▸ guarded, by rwa [half, carries], by rwa [half, carries]⟩

/-! ## Closing -/

theorem closeChannel (sound : Sound past (x.setChannel h .closed)) (receivers : List (Task P))
    (senders : List (Offer P)) : Sound past (x.closeChannel h receivers senders) := by
  have released : Sound past { x.setChannel h .closed with
      ready := (x.setChannel h .closed).ready ++ receivers.map (.received h none) ++
        senders.map fun s => .sent h s.terminal false s.task } := sound.of_same rfl rfl
  simp only [Exchange.closeChannel]
  split
  · exact released
  · exact released.record fun _ => rfl

theorem sealHalf (sound : Sound past x) (isOpen : (x.half h).closed = false) :
    Sound past (x.sealHalf h) := by
  have has := has_of_open isOpen
  refine ⟨sound.grown.trans (List.suffix_cons _ _), fun h' => ?_⟩
  have aligned := sound.aligned h'
  have carries : (x.sealHalf h).Carries h' ↔ x.Carries h' := carries_modifyHalf h _
  have counts : (x.sealHalf h).closings h' = x.closings h' + if h = h' then 1 else 0 := by
    rw [Exchange.sealHalf, closings_record]
    simp only [Event.closes, decide_eq_true_eq]
    rfl
  by_cases here : h = h'
  · subst here
    obtain ⟨carried, none⟩ := aligned.unclosed isOpen
    have half : (x.sealHalf h).half h = { x.half h with closed := true, channel := .closed } :=
      half_modifyHalf has _
    refine ⟨half ▸ ⟨aligned.guarded.closing, rfl⟩, fun stillOpen => ?_, fun _ => .inl ⟨?_, ?_⟩⟩
    · rw [half] at stillOpen
      cases stillOpen
    · exact carries.mpr carried
    · simp [counts, none]
  · have half : (x.sealHalf h).half h' = x.half h' := half_modifyHalf_of_ne (Ne.symm here) _
    rw [if_neg here, Nat.add_zero] at counts
    exact ⟨half ▸ aligned.guarded, by simpa only [half, carries, counts] using aligned.unclosed,
      by simpa only [half, carries, counts] using aligned.closed⟩

theorem closeHalf (sound : Sound past x) (h : HalfId) (next : Work P) :
    Sound past (x.closeHalf h next) := by
  by_cases isClosed : (x.half h).closed
  · rw [closeHalf_of_closed isClosed]
    exact sound.push _
  · rw [Bool.not_eq_true] at isClosed
    rw [closeHalf_of_open (sound.aligned h).guarded isClosed]
    have closing := sound.sealHalf isClosed
    rw [Exchange.sealHalf, ← setChannel_closed] at closing
    exact (closing.closeChannel _ _).announce _ _

/-! ## Whatever an exchange does -/

theorem enterEntry (sound : Sound past x) (i : StreamId) (e : Entry) (t : Task P) :
    Sound past (x.enterEntry i e t) := by
  cases e with
  | returns | fulfils | rejects => exact sound.give _ _
  | throws => exact sound.push _
  | receives side => exact sound.receive t
  | sends side m terminal relayed =>
      simp only [Exchange.enterEntry]
      split
      · exact sound.give _ _
      · exact sound.offer _ _ _
  | closes side => exact sound.push _
  | closesOpen side =>
      simp only [Exchange.enterEntry]
      split
      · exact sound.give _ _
      · exact sound.push _
  | closesAndReceives => exact sound.push _

theorem finishService (sound : Sound past x) (i : StreamId) (o : Outcome) (t : Task P) :
    Sound past (x.finishService i o t) := sound.push _

theorem remarks (sound : Sound past x) (source : Nat) (rs : List Writing.Remark) :
    Sound past (rs.foldl (Exchange.remark source) x) := by
  induction rs generalizing x with
  | nil => exact sound
  | cons r rs ih => cases r <;> exact ih (sound.record fun _ => rfl)

theorem resumeFrame (sound : Sound past x) (o : Outcome) (t : Task P) :
    Sound past (x.resumeFrame o t) := by
  obtain ⟨frames, owner⟩ := t
  cases frames with
  | nil => exact sound.settle _ _
  | cons f frames =>
      cases f with
      | reading i r =>
          simp only [Exchange.resumeFrame, resumeReading]
          split <;> exact sound.push _
      | writing i k w =>
          have remarked := sound.remarks k (w.resume o).remarks
          simp only [Exchange.resumeFrame, resumeWriting]
          split
          · exact remarked.wake _
          · exact remarked.awaitGates _ _
          · exact remarked.push _
          · exact remarked.push _
      | handling i state =>
          have turned : Sound past { x with shared := (P.step x.shared state o).1 } :=
            sound.of_same rfl rfl
          simp only [Exchange.resumeFrame, resumeHandling]
          cases (P.step x.shared state o).2 with
          | call | succeed | fail | refuse => exact turned.push _
          | wait gate next => exact turned.awaitGates _ _
          | rest next => exact turned.wake _
          | fork child next => exact (turned.push _).push _
          | did | log => exact (turned.record fun _ => rfl).push _
      | serving i =>
          simp only [Exchange.resumeFrame, resumeServing]
          split
          · exact sound.finishService _ _ _
          · split
            · exact (sound.record fun _ => rfl).finishService _ _ _
            · split
              · exact (sound.record fun _ => rfl).push _
              · exact (sound.record fun _ => rfl).finishService _ _ _
      | delivering i => exact sound.finishService _ _ _
      | relaying => exact sound.push _
      | following gate => exact sound.awaitGates _ _

theorem run (sound : Sound past x) (w : Wake P) : Sound past (x.run w) := by
  cases w with
  | sent h terminal taken t => cases terminal <;> exact sound.push _
  | received h m t => rcases m with _ | _ | _ <;> exact (sound.record fun _ => rfl).push _
  | returned o t => exact sound.resumeFrame o t
  | late hook label turns =>
      cases turns with
      | zero => exact sound.push _
      | succ => exact sound.wake _

theorem deliver (sound : Sound past x) (i : StreamId) (f : Fault) (t : Task P) :
    Sound past (x.deliver i f t) := by
  simp only [Exchange.deliver]
  split
  · exact sound.give _ _
  · exact sound.push _

theorem serve (sound : Sound past x) (i : StreamId) (invocation : Invocation) :
    Sound past (x.serve i invocation) := sound.of_same rfl rfl

theorem openCall (sound : Sound past x) (n : Nat) (kind : StreamKind) :
    Sound past (x.openCall n kind) := by
  have opened := (sound.openStream kind).record (e := .opened n x.nextStream) fun _ => rfl
  have listed : Sound past { (x.openStream (.fresh P kind)).record (.opened n x.nextStream) with
      active := x.active ++ [x.nextStream] } := opened.of_same rfl rfl
  exact listed.whenClosed _ _

theorem startStream (sound : Sound past x) (n : Nat) (i : StreamId) (c : StreamCall) :
    Sound past (x.startStream n i c) := by
  cases c with
  | method role m => exact sound.enterEntry _ _ _
  | close | read => exact sound.push _
  | whenClosed l => exact (sound.whenClosed i l).answer _ _
  | identified => exact sound.answer _ _
  | write => exact sound.of_same rfl rfl

theorem startPlugin (sound : Sound past x) (n : Nat) (c : PluginCall) :
    Sound past (x.startPlugin n c) := by
  have kept {y : Exchange P} (sound : Sound past y) (name : String) (i : StreamId) :
      Sound past (y.keep name i) := sound.of_same rfl rfl
  cases c with
  | read => exact ((sound.openCall n .download).push _).push _
  | write =>
      have counted : Sound past x.nextSource := sound.of_same rfl rfl
      exact ((counted.openCall n .upload).push _).push _
  | openDownload => exact ((kept (sound.openCall n .download) _ _).push _).push _
  | openUpload => exact ((kept (sound.openCall n .upload) _ _).push _).push _
  | method name m =>
      simp only [Exchange.startPlugin]
      split
      · exact sound.enterEntry _ _ _
      · exact sound.settle _ _
  | readKept name =>
      simp only [Exchange.startPlugin]
      split
      · exact sound.push _
      · exact sound.settle _ _
  | holds | keys => exact sound.answer _ _

theorem startEmitter (sound : Sound past x) (n : Nat) (event : String) (c : EmitterCall) :
    Sound past (x.startEmitter n event c) := by
  have registered {emitter} : Sound past { x with emitter } := sound.of_same rfl rfl
  cases c with
  | subscribe | subscribeOnce | unsubscribe => exact registered.answer _ _
  | emit =>
      simp only [Exchange.startEmitter]
      split
      · exact sound.push _
      · exact sound.answer _ _
  | emitAndWait => exact sound.push _

theorem command (sound : Sound past x) (c : Command) : Sound past (x.command c) := by
  cases c with
  | settle name o => exact sound.settleGate name o
  | call c =>
      have counted : Sound past { x with calls := x.calls + 1 } := sound.of_same rfl rfl
      have called := counted.record (e := .called x.calls c) fun _ => rfl
      cases c with
      | stream i c => exact called.startStream _ _ _
      | plugin c => exact called.startPlugin _ _
      | emitter event c => exact called.startEmitter _ _ _

theorem startListener (sound : Sound past x) (l : Listener) (argument : Value) :
    Sound past (x.startListener l argument).1 := by
  cases l with
  | script => exact sound.record fun _ => rfl
  | forget => exact sound.of_same rfl rfl

theorem startHook (sound : Sound past x) (hook : Hook) (argument : Value) :
    Sound past (x.startHook hook argument).1 := by
  cases hook with
  | direct l => exact sound.startListener l argument
  | half n =>
      simp only [Exchange.startHook]
      split
      · exact sound
      next stillOpen l _ =>
        have counted : Sound past
            { x with countdowns := x.countdowns.set n (stillOpen - 1, l) } := sound.of_same rfl rfl
        split
        · exact counted.startListener _ _
        · exact counted

theorem awaitReplies (sound : Sound past x) (replies : List Reply) (t : Task P) :
    Sound past (x.awaitReplies replies t) := by
  simp only [Exchange.awaitReplies]
  split
  · exact sound.wake _
  · exact sound.awaitGates _ _

theorem completed (sound : Sound past x) (e : Emission (Work P)) : Sound past (x.completed e) := by
  simp only [Exchange.completed]
  cases e.purpose with
  | closure => exact sound.awaitReplies _ _
  | lateClosure =>
      simp only [lateWitness]
      split
      · exact sound.wake _
      · exact sound.awaitReplies _ _
  | awaited => exact sound.awaitReplies _ _
  | plainLasting => exact sound.of_same rfl rfl
  | plainLast => exact sound.answer _ _
  | closing => exact sound.announce _ _

theorem broken (sound : Sound past x) (e : Emission (Work P)) (v : Value) :
    Sound past (x.broken e v) := by
  simp only [Exchange.broken]
  cases e.purpose with
  | closure | lateClosure | awaited => exact sound.wake _
  | plainLasting | plainLast => exact sound.settle _ _
  | closing => exact sound.push _

theorem emission (sound : Sound past x) (e : Emission (Work P)) : Sound past (x.emission e) := by
  unfold Exchange.emission
  split
  · exact sound.broken _ _
  · exact sound.push _
  · exact sound.push _
  · exact (sound.push _).command _
  · exact sound.push _
  · split
    · exact sound.completed _
    · exact (sound.startHook _ _).push _

theorem work (sound : Sound past x) (w : Work P) : Sound past (x.work w) := by
  cases w with
  | run w => exact sound.run w
  | give o t => exact sound.give o t
  | close h next => exact sound.closeHalf h next
  | receive h t => exact sound.receive t
  | enter i role m t => exact sound.enterEntry _ _ _
  | serve i invocation => exact sound.serve _ _
  | deliver i f t => exact sound.deliver _ _ _
  | emit e => exact sound.emission e

theorem move (sound : Sound past x) {allowed : Command → Prop} (move : Move allowed x y) :
    Sound past y := by
  cases move with
  | work =>
      have begun {rest : List (Work P)} : Sound past { x with agenda := rest } :=
        sound.of_same rfl rfl
      exact begun.work _
  | resume =>
      simp only [Exchange.resume]
      split
      · exact sound
      · exact sound.of_same rfl rfl
  | command => exact sound.command _

end Sound

/-! ## Every run -/

/-- An exchange over streams that serve no call. -/
def ofStreams (P : Plugin) (kinds : List StreamKind) : Exchange P :=
  kinds.foldl (fun x kind => x.openStream (.fresh P kind)) (empty P)

theorem sound_ofStreams (P : Plugin) (kinds : List StreamKind) : Sound [] (ofStreams P kinds) := by
  have empty : Sound [] (empty P) := by
    refine ⟨List.nil_suffix, fun h => ⟨⟨rfl, rfl⟩, ?_, fun _ => .inr ⟨?_, rfl⟩⟩⟩
    · rintro ⟨⟩
    · simp [Carries, Exchange.empty]
  unfold ofStreams
  generalize Exchange.empty P = x at empty ⊢
  induction kinds generalizing x with
  | nil => exact empty
  | cons kind kinds ih => exact ih _ (empty.openStream kind)

theorem Run.sound (run : Run (fun _ => True) x y) (sound : Sound past x) : Sound past y :=
  run.keeps sound fun _ _ sound => sound.move

def closeOpen (h : HalfId) (next : Work P) (x : Exchange P) : Exchange P :=
  let marked := (x.modifyHalf h fun half => { half with closed := true }).record (.closed h)
  (marked.closeChannel h (x.half h).channel.receivers
    ((x.half h).channel.senders.map (·.2))).announce h next

/-- However a stream is used, also by listeners of its closures: its guards agree with the channels
that they close, a half was closed once if it is closed and never if it is open, no closing meets a
closed channel, and what is closed stays closed. -/
theorem guards_exact {kinds : List StreamKind} (run : Run (fun _ => True) (ofStreams P kinds) x) :
    (∀ h, (x.half h).Guarded) ∧
      (∀ h, x.Carries h → x.closings h = if (x.half h).closed then 1 else 0) ∧
      (∀ h next, x.closeHalf h next =
        if (x.half h).closed then x.push next else x.closeOpen h next) ∧
      ∀ {y}, Run (fun _ => True) x y → ∀ h, x.Carries h → (x.half h).closed = true →
        (y.half h).closed = true := by
  have sound := run.sound (sound_ofStreams P kinds)
  have once (h) (carries : x.Carries h) (isClosed : (x.half h).closed = true) :
      x.closings h = 1 := by
    rcases (sound.aligned h).closed isClosed with ⟨-, once⟩ | ⟨absent, -⟩
    · exact once
    · exact absurd carries absent
  refine ⟨fun h => (sound.aligned h).guarded, fun h carries => ?_, fun h next => ?_, ?_⟩
  · split
    next isClosed => exact once h carries isClosed
    next isOpen => exact ((sound.aligned h).unclosed (by simpa using isOpen)).2
  · split
    next isClosed => exact closeHalf_of_closed isClosed next
    next isOpen => exact closeHalf_of_open (sound.aligned h).guarded (by simpa using isOpen) next
  · intro y later h carries isClosed
    have since : Sound x.journal y := later.sound ⟨List.suffix_rfl, sound.aligned⟩
    have grown : x.closings h ≤ y.closings h := since.grown.sublist.countP_le
    by_contra isOpen
    have none := ((since.aligned h).unclosed (by simpa using isOpen)).2
    have one := once h carries isClosed
    omega

/-- A listener for the closure of an upload closes it again, sends, receives and registers another
listener. -/
def meddling : Listener :=
  .script "first" [
    .performs (.call (.stream 0 (.method .client .halfClose))),
    .performs (.call (.stream 0 (.close .requests))),
    .performs (.call (.stream 0 (.method .client (.send (.bytes [1]))))),
    .performs (.call (.stream 0 (.method .server .receive))),
    .performs (.call (.stream 0 (.whenClosed (.script "second" [])))),
    .performs (.call (.stream 0 (.close .responses)))]

/-- The listener is registered, and both halves are closed from outside while the server waits. -/
def meddled : Exchange .idle :=
  let x := ((ofStreams .idle [.upload]).command (.call (.stream 0 (.whenClosed meddling)))).clear 50
  let x := (x.command (.call (.stream 0 (.method .server .receive)))).clear 50
  let x := (x.command (.call (.stream 0 (.close .responses)))).clear 50
  (x.command (.call (.stream 0 (.close .requests)))).clear 8

/-- The listener is still at work, and closing once more changes nothing. -/
theorem meddled_guards : meddled.agenda.length = 2 ∧ meddled.closings ⟨0, .requests⟩ = 1 ∧
    (∀ next, meddled.closeHalf ⟨0, .requests⟩ next = meddled.push next) ∧
    ((meddled.advance 60).half ⟨0, .requests⟩).closed = true ∧ (meddled.advance 60).calls = 10 := by
  have registered : Run (fun _ => True) (ofStreams .idle [.upload]) _ :=
    (Run.refl.step (.command (c := .call (.stream 0 (.whenClosed meddling))) rfl trivial)).trans
      (run_clear 50 _)
  have received := (registered.step (.command (c := .call (.stream 0 (.method .server .receive)))
    rfl trivial)).trans (run_clear 50 _)
  have closed := (received.step (.command (c := .call (.stream 0 (.close .responses)))
    rfl trivial)).trans (run_clear 50 _)
  have run : Run (fun _ => True) (ofStreams .idle [.upload]) meddled :=
    (closed.step (.command (c := .call (.stream 0 (.close .requests))) rfl trivial)).trans
      (run_clear 8 _)
  have carries : meddled.Carries ⟨0, .requests⟩ := ⟨_, rfl, .inl rfl⟩
  obtain ⟨-, counts, closes, stays⟩ := guards_exact run
  exact ⟨rfl, counts ⟨0, .requests⟩ carries, closes ⟨0, .requests⟩,
    stays (run_advance 60 meddled) ⟨0, .requests⟩ carries rfl, rfl⟩

end Exchange

end ObjectTransfer
