import ObjectTransfer.Proofs.Operations

/-! # Exchanges between a host and its plugin

A host only calls its plugin and settles gates. An exchange that it uses in this way is calm: its
halves close nothing but their channels, and closures only strike streams off the active ones. Every
step of a calm exchange is some steps of its scene.
-/

namespace ObjectTransfer

variable {P : Plugin}

/-- The commands by which a host uses its plugin. -/
def Command.Hosted : Command → Prop
  | settle _ _ => True
  | call (.plugin _) => True
  | _ => False

/-- Whether a hook only strikes a stream off the active ones, perhaps after one of so many
countdowns. -/
def Hook.Strikes (countdowns : Nat) : Hook → Prop
  | direct (.forget _) => True
  | half n => n < countdowns
  | _ => False

structure Emission.Calm (countdowns : Nat) (e : Emission (Work P)) : Prop where
  current : e.current = none ∨ e.current = some ([], .nothing)
  replies : ∀ r ∈ e.replies, r = .nothing
  rest : ∀ hook ∈ e.rest, hook.Strikes countdowns
  purpose : ∃ label, e.purpose = .closure label

/-- A task that goes on, and no listener that is called late. -/
def Wake.Calm : Wake P → Prop
  | late _ _ _ => False
  | _ => True

def Work.Calm (countdowns : Nat) : Work P → Prop
  | run w => w.Calm
  | close _ next => next.Calm countdowns ∧ next.hooks = [] ∧ ∃ th, next.threads = [th]
  | emit e => e.Calm countdowns
  | _ => True

theorem Hook.Strikes.mono {hook : Hook} {n k : Nat} (le : n ≤ k) (strikes : hook.Strikes n) :
    hook.Strikes k := by
  cases hook with
  | direct l => cases l <;> exact strikes
  | half => exact Nat.lt_of_lt_of_le strikes le

theorem Work.Calm.mono {w : Work P} {n k : Nat} (le : n ≤ k) (calm : w.Calm n) : w.Calm k := by
  fun_induction Work.Calm n w with
  | case1 => exact calm
  | case2 _ next ih => exact ⟨ih calm.1, calm.2⟩
  | case3 e =>
      exact ⟨calm.current, calm.replies, fun hook mem => (calm.rest hook mem).mono le, calm.purpose⟩
  | case4 w => 
      cases w <;> first | trivial | simp_all

structure Half.Calm (countdowns : Nat) (half : Half P) : Prop extends half.Guarded where
  hooks : ∀ hook ∈ half.hooks, hook.Strikes countdowns

theorem Half.Calm.mono {half : Half P} {n k : Nat} (le : n ≤ k) (calm : half.Calm n) :
    half.Calm k :=
  ⟨calm.toGuarded, fun hook mem => (calm.hooks hook mem).mono le⟩

namespace Exchange

structure Calm (x : Exchange P) : Prop where
  halves : ∀ h, (x.half h).Calm x.countdowns.length
  countdowns : ∀ c ∈ x.countdowns, ∃ i, c.2 = .forget i
  agenda : ∀ w ∈ x.agenda, w.Calm x.countdowns.length
  ready : ∀ w ∈ x.ready, w.Calm

end Exchange

namespace Exchange

variable {x : Exchange P} {h : HalfId} {o : Outcome} {t : Task P} {i : StreamId}

theorem half_openStream_new (new : h.stream = x.streams.length) (s : Stream P) :
    (x.openStream s).half h = s.half h.side := by
  simp [half, Exchange.openStream, new]

theorem half_openStream_of_ne (old : h.stream ≠ x.streams.length) (s : Stream P) :
    (x.openStream s).half h = x.half h := by
  simp only [half, Exchange.openStream, List.getElem?_append]
  split
  · rfl
  next beyond =>
    have above := Nat.lt_of_le_of_ne (Nat.le_of_not_lt beyond) (Ne.symm old)
    rw [List.getElem?_eq_none (l := [s]) (Nat.sub_pos_of_lt above),
      List.getElem?_eq_none (Nat.le_of_not_lt beyond)]

theorem half_attach_of_ne {h' : HalfId} (ne : h' ≠ h) (hook : Hook) :
    (x.attach h hook).half h' = x.half h' := by
  simp only [attach]
  split
  · rfl
  · exact half_modifyHalf_of_ne ne _

theorem countdowns_attach (h : HalfId) (hook : Hook) :
    (x.attach h hook).countdowns = x.countdowns := by
  simp only [attach]
  split <;> rfl

def enlist (n : Nat) (kind : StreamKind) (countdowns : List (Nat × Listener)) (x : Exchange P) :
    Exchange P :=
  { (x.openStream (.fresh P kind)).record (.opened n x.nextStream) with
    active := x.active ++ [x.nextStream]
    countdowns }

theorem closed_enlist (n : Nat) (kind : StreamKind) (countdowns) (side : Side) :
    ((x.enlist n kind countdowns).half ⟨x.nextStream, side⟩).closed =
      ((Stream.fresh P kind).half side).closed :=
  congrArg Half.closed (half_openStream_new rfl _)

theorem kindOf_enlist (n : Nat) (kind : StreamKind) (countdowns) :
    (x.enlist n kind countdowns).kindOf x.nextStream = kind := by
  cases kind <;> simp [kindOf, enlist, record, Exchange.openStream, nextStream, Stream.fresh]

theorem openCall_download (x : Exchange P) (n : Nat) :
    x.openCall n .download =
      (x.enlist n .download x.countdowns).attach ⟨x.nextStream, .responses⟩
        (.direct (.forget x.nextStream)) := by
  have kind := kindOf_enlist (x := x) n .download x.countdowns
  change (x.enlist n .download x.countdowns).whenClosed _ _ = _
  rw [whenClosed, kind]

theorem openCall_upload (x : Exchange P) (n : Nat) :
    x.openCall n .upload =
      ((x.enlist n .upload (x.countdowns ++ [(2, .forget x.nextStream)])).attach
        ⟨x.nextStream, .requests⟩ (.half x.countdowns.length)).attach ⟨x.nextStream, .responses⟩
          (.half x.countdowns.length) := by
  have kind := kindOf_enlist (x := x) n .upload x.countdowns
  change (x.enlist n .upload x.countdowns).whenClosed _ _ = _
  rw [whenClosed, kind]
  rfl

/-- What the settlement of a gate means for a task that waits and for its stage. -/
theorem afterGate_cases (name : String) (o : Outcome) (entry : List String × Task P) :
    (∃ names, afterGate name o entry = .inl (names, entry.2) ∧
      (Stage.waiting entry.1).afterGate name o = .waiting names) ∨
    ∃ o', afterGate name o entry = .inr (.returned o' entry.2) ∧
      (Stage.waiting entry.1).afterGate name o = .bound o' := by
  obtain ⟨names, t⟩ := entry
  simp only [afterGate, Stage.afterGate]
  split
  · cases o with
    | error v => exact .inr ⟨_, rfl, rfl⟩
    | ok v =>
        simp only
        split
        · exact .inr ⟨_, rfl, rfl⟩
        · exact .inl ⟨_, rfl, rfl⟩
  · exact .inl ⟨_, rfl, rfl⟩

/-! ## Operations keep an exchange calm -/

namespace Calm

theorem push (calm : x.Calm) {w : Work P} (wc : w.Calm x.countdowns.length) : (x.push w).Calm :=
  ⟨calm.halves, calm.countdowns, List.forall_mem_cons.mpr ⟨wc, calm.agenda⟩, calm.ready⟩

theorem readyAppend (calm : x.Calm) {ws : List (Wake P)} (wc : ∀ w ∈ ws, w.Calm) :
    Calm { x with ready := x.ready ++ ws } :=
  ⟨calm.halves, calm.countdowns, calm.agenda, List.forall_mem_append.mpr ⟨calm.ready, wc⟩⟩

theorem wake (calm : x.Calm) {w : Wake P} (wc : w.Calm) : (x.wake w).Calm :=
  calm.readyAppend (List.forall_mem_singleton.mpr wc)

theorem record (calm : x.Calm) (e : Event) : (x.record e).Calm :=
  ⟨calm.halves, calm.countdowns, calm.agenda, calm.ready⟩

theorem withShared (calm : x.Calm) (shared : P.Shared) : Calm { x with shared } :=
  ⟨calm.halves, calm.countdowns, calm.agenda, calm.ready⟩

theorem withGates (calm : x.Calm) (gates : Gates P) : Calm { x with gates } :=
  ⟨calm.halves, calm.countdowns, calm.agenda, calm.ready⟩

theorem settle (calm : x.Calm) (w : Owner) (o : Outcome) : (x.settle w o).Calm := by
  cases w with
  | call | plain => exact calm.record _
  | notice => cases o with
    | ok => exact calm
    | error => exact calm.record _
  | service =>
      cases o with
      | ok => exact calm
      | error v =>
          simp only [Exchange.settle]
          split <;> exact calm.record _
  | nobody => exact calm

theorem give (calm : x.Calm) (o : Outcome) (t : Task P) : (x.give o t).Calm := by
  simp only [Exchange.give]
  split
  · exact calm.settle _ _
  · exact calm.wake trivial

theorem awaitGates (calm : x.Calm) (names : List String) (t : Task P) :
    (x.awaitGates names t).Calm := by
  simp only [Exchange.awaitGates]
  split
  · exact calm.wake trivial
  · split
    · exact calm.wake trivial
    · exact calm.withGates _

theorem modifyHalf (calm : x.Calm) {f : Half P → Half P}
    (fc : (f (x.half h)).Calm x.countdowns.length) : (x.modifyHalf h f).Calm := by
  by_cases has : x.Has h
  · refine ⟨fun h' => ?_, calm.countdowns, calm.agenda, calm.ready⟩
    by_cases same : h' = h
    · rw [same, half_modifyHalf has]
      exact fc
    · rw [half_modifyHalf_of_ne same]
      exact calm.halves h'
  · rw [modifyHalf_of_not_has has]
    exact calm

theorem setChannel (calm : x.Calm) {c : Channel Message (Offer P) (Task P)}
    (same : c.isClosed = (x.half h).channel.isClosed) : (x.setChannel h c).Calm :=
  calm.modifyHalf ⟨⟨(calm.halves h).closing, same.trans (calm.halves h).channel⟩,
    (calm.halves h).hooks⟩

theorem offer (calm : x.Calm) (m : Message) (terminal : Bool) (t : Task P) :
    (x.offer h m terminal t).Calm := by
  have sent := calm.setChannel (Channel.isClosed_send (x.half h).channel m ⟨terminal, t⟩)
  simp only [Exchange.offer]
  split
  · exact sent
  · refine wake (wake (sent.record _) ?_) ?_ <;> trivial
  · exact sent.wake (by trivial)

theorem receive (calm : x.Calm) (t : Task P) : (x.receive h t).Calm := by
  have received := calm.setChannel (Channel.isClosed_receive (x.half h).channel t)
  simp only [Exchange.receive]
  split
  · exact received
  · refine wake (wake (received.record _) ?_) ?_ <;> trivial
  · exact received.wake (by trivial)

theorem closeChannel (calm : (x.setChannel h .closed).Calm) (receivers : List (Task P))
    (senders : List (Offer P)) : (x.closeChannel h receivers senders).Calm := by
  have woken : ∀ w ∈ receivers.map (Wake.received h none) ++
      senders.map fun s => .sent h s.terminal false s.task, w.Calm := by
    intro w mem
    rcases List.mem_append.mp mem with mem | mem <;> obtain ⟨_, -, rfl⟩ := List.mem_map.mp mem <;>
      trivial
  have released := calm.readyAppend woken
  rw [← List.append_assoc] at released
  simp only [Exchange.closeChannel]
  split
  · exact released
  · exact released.record _

theorem countdowns_closeChannel (x : Exchange P) (h : HalfId) (receivers : List (Task P))
    (senders : List (Offer P)) :
    (x.closeChannel h receivers senders).countdowns = x.countdowns := by
  simp only [Exchange.closeChannel]
  split <;> rfl

theorem announce (calm : x.Calm) {next : Work P} (nc : next.Calm x.countdowns.length) :
    (x.announce h next).Calm := by
  simp only [Exchange.announce]
  split
  · exact calm.push nc
  · exact (calm.push nc).push ⟨.inl rfl, by simp [closureEmission], (calm.halves h).hooks, _, rfl⟩

theorem closeHalf (calm : x.Calm) {next : Work P} (nc : next.Calm x.countdowns.length) :
    (x.closeHalf h next).Calm := by
  by_cases isClosed : (x.half h).closed
  · rw [closeHalf_of_closed isClosed]
    exact calm.push nc
  · rw [closeHalf_of_open (calm.halves h).toGuarded (by simpa using isClosed)]
    have closed := (calm.modifyHalf (h := h)
      (f := fun half => { half with closed := true, channel := .closed })
      ⟨⟨(calm.halves h).closing, rfl⟩, (calm.halves h).hooks⟩).record (.closed h)
    rw [← setChannel_closed] at closed
    refine (closed.closeChannel _ _).announce ?_
    rw [countdowns_closeChannel]
    exact nc

theorem pushClose (calm : x.Calm) {next : Work P} (nc : next.Calm x.countdowns.length)
    (hooks : next.hooks = []) {th} (threads : next.threads = [th]) :
    (x.push (.close h next)).Calm :=
  calm.push ⟨nc, hooks, th, threads⟩

theorem enterEntry (calm : x.Calm) (i : StreamId) (e : Entry) (t : Task P) :
    (x.enterEntry i e t).Calm := by
  cases e with
  | returns | fulfils | rejects => exact calm.give _ _
  | throws => exact calm.push trivial
  | receives side => exact calm.receive t
  | sends side m terminal relayed =>
      simp only [Exchange.enterEntry]
      split
      · exact calm.give _ _
      · exact calm.offer _ _ _
  | closes side => exact calm.pushClose trivial rfl rfl
  | closesOpen side =>
      simp only [Exchange.enterEntry]
      split
      · exact calm.give _ _
      · exact calm.pushClose trivial rfl rfl
  | closesAndReceives => exact calm.pushClose trivial rfl rfl

theorem finishService (calm : x.Calm) (i : StreamId) (o : Outcome) (t : Task P) :
    (x.finishService i o t).Calm :=
  calm.pushClose ⟨trivial, rfl, _, rfl⟩ rfl rfl

theorem remark (calm : x.Calm) (source : Nat) (rs : List Writing.Remark) :
    (rs.foldl (Exchange.remark source) x).Calm := by
  induction rs generalizing x with
  | nil => exact calm
  | cons r rs ih => cases r <;> exact ih (calm.record _)

theorem resumeFrame (calm : x.Calm) (o : Outcome) (t : Task P) : (x.resumeFrame o t).Calm := by
  obtain ⟨frames, owner⟩ := t
  cases frames with
  | nil => exact calm.settle _ _
  | cons f frames =>
      cases f with
      | reading i r =>
          simp only [Exchange.resumeFrame, resumeReading]
          split <;> exact calm.push trivial
      | writing i k w =>
          have remarked := calm.remark k (w.resume o).remarks
          simp only [Exchange.resumeFrame, resumeWriting]
          split
          · exact remarked.wake trivial
          · exact remarked.awaitGates _ _
          · exact remarked.push trivial
          · exact remarked.push trivial
      | handling i state =>
          have turned := calm.withShared (P.step x.shared state o).1
          simp only [Exchange.resumeFrame, resumeHandling]
          cases (P.step x.shared state o).2 with
          | call | succeed | fail | refuse => exact turned.push trivial
          | wait gate next => exact turned.awaitGates _ _
          | rest next => exact turned.wake trivial
          | fork child next => refine push (push turned ?_) ?_ <;> trivial
          | did | log => exact push (turned.record _) trivial
      | serving i =>
          simp only [Exchange.resumeFrame, resumeServing]
          split
          · exact calm.finishService _ _ _
          · split
            · exact (calm.record _).finishService _ _ _
            · split
              · exact (calm.record _).pushClose trivial rfl rfl
              · exact (calm.record _).finishService _ _ _
      | delivering i => exact calm.finishService _ _ _
      | relaying => exact calm.push trivial
      | following gate => exact calm.awaitGates _ _

theorem run (calm : x.Calm) {w : Wake P} (wc : w.Calm) : (x.run w).Calm := by
  cases w with
  | sent h terminal taken t =>
      cases terminal with
      | false => exact calm.push trivial
      | true => exact calm.pushClose trivial rfl rfl
  | received h m t =>
      rcases m with _ | v | f
      · exact (calm.record _).push trivial
      · exact (calm.record _).push trivial
      · exact (calm.record _).pushClose trivial rfl rfl
  | returned o t => exact calm.resumeFrame o t
  | late => exact wc.elim

theorem deliver (calm : x.Calm) (i : StreamId) (f : Fault) (t : Task P) :
    (x.deliver i f t).Calm := by
  simp only [Exchange.deliver]
  split
  · exact calm.give _ _
  · exact calm.push trivial

theorem serve (calm : x.Calm) (i : StreamId) (invocation : Invocation) :
    (x.serve i invocation).Calm :=
  (calm.withShared (P.invoke x.shared invocation).1).push trivial

theorem withActive (calm : x.Calm) (active : List StreamId) : Calm { x with active } :=
  ⟨calm.halves, calm.countdowns, calm.agenda, calm.ready⟩

theorem withCountdown (calm : x.Calm) (n k : Nat) (i : StreamId) :
    Calm { x with countdowns := x.countdowns.set n (k, .forget i) } := by
  refine ⟨fun h => ?_, fun c mem => ?_, fun w mem => ?_, calm.ready⟩
  · have length : (x.countdowns.set n (k, .forget i)).length = x.countdowns.length :=
      List.length_set
    rw [length]
    exact calm.halves h
  · rcases List.mem_or_eq_of_mem_set mem with mem | rfl
    · exact calm.countdowns c mem
    · exact ⟨i, rfl⟩
  · simpa using calm.agenda w mem

theorem startHook (calm : x.Calm) {hook : Hook} (strikes : hook.Strikes x.countdowns.length)
    (argument : Value) :
    (x.startHook hook argument).1.Calm ∧ (x.startHook hook argument).2 = [] ∧
      (x.startHook hook argument).1.countdowns.length = x.countdowns.length := by
  cases hook with
  | direct l =>
      cases l with
      | script => exact strikes.elim
      | forget i => exact ⟨calm.withActive _, rfl, rfl⟩
  | half n =>
      obtain ⟨i, forgets⟩ := calm.countdowns _ (List.getElem_mem strikes)
      simp only [Exchange.startHook, List.getElem?_eq_getElem strikes, forgets]
      split
      · exact ⟨(calm.withCountdown n _ i).withActive _, rfl, List.length_set⟩
      · exact ⟨calm.withCountdown n _ i, rfl, List.length_set⟩

theorem awaitReplies (calm : x.Calm) (replies : List Reply) (t : Task P) :
    (x.awaitReplies replies t).Calm := by
  simp only [Exchange.awaitReplies]
  split
  · exact calm.wake trivial
  · exact calm.awaitGates _ _

theorem emission (calm : x.Calm) {e : Emission (Work P)} (ec : e.Calm x.countdowns.length) :
    (x.emission e).Calm := by
  obtain ⟨label, purpose⟩ := ec.purpose
  rcases ec.current with none | returned
  · simp only [Exchange.emission, none]
    cases rest : e.rest with
    | nil =>
        simp only [completed, purpose]
        exact calm.awaitReplies _ _
    | cons hook hooks =>
        have strikes := ec.rest
        rw [rest] at strikes
        obtain ⟨started, actions, length⟩ :=
          calm.startHook (strikes hook List.mem_cons_self) e.argument
        refine started.push
          ⟨.inr (by simp [actions]), ec.replies, fun hook mem => ?_, label, purpose⟩
        rw [length]
        exact strikes hook (List.mem_cons_of_mem _ mem)
  · simp only [Exchange.emission, returned]
    refine calm.push ⟨.inl rfl, fun r mem => ?_, ec.rest, label, purpose⟩
    rcases List.mem_append.mp mem with mem | mem
    · exact ec.replies r mem
    · exact List.mem_singleton.mp mem

theorem work (calm : x.Calm) {w : Work P} (wc : w.Calm x.countdowns.length) : (x.work w).Calm := by
  cases w with
  | run w => exact calm.run wc
  | give o t => exact calm.give o t
  | close h next => exact calm.closeHalf wc.1
  | receive h t => exact calm.receive t
  | enter i role m t => exact calm.enterEntry i _ t
  | serve i invocation => exact calm.serve i invocation
  | deliver i f t => exact calm.deliver i f t
  | emit e => exact calm.emission wc

theorem resume (calm : x.Calm) (place : Nat) : (x.resume place).Calm := by
  simp only [Exchange.resume]
  cases hw : x.ready[place]? with
  | none => exact calm
  | some w =>
      refine ⟨calm.halves, calm.countdowns, ?_, fun w mem => ?_⟩
      · exact List.forall_mem_singleton.mpr (calm.ready w (List.mem_of_getElem? hw))
      · exact calm.ready w (List.mem_of_mem_eraseIdx mem)

/-! ## Commands of a host keep an exchange calm -/

theorem settleGate (calm : x.Calm) (name : String) (o : Outcome) : (x.settleGate name o).Calm := by
  simp only [Exchange.settleGate]
  split
  · exact calm
  · refine ⟨calm.halves, calm.countdowns, calm.agenda,
      List.forall_mem_append.mpr ⟨calm.ready, fun w mem => ?_⟩⟩
    simp only [List.mem_filterMap, List.mem_map] at mem
    obtain ⟨_, ⟨entry, -, rfl⟩, woken⟩ := mem
    rcases afterGate_cases name o entry with ⟨names, waits, -⟩ | ⟨o, goes, -⟩
    · rw [waits] at woken
      exact nomatch woken
    · rw [goes] at woken
      obtain rfl := Option.some.inj woken
      trivial

theorem openStream (calm : x.Calm) (kind : StreamKind) :
    (x.openStream (.fresh P kind)).Calm := by
  refine ⟨fun h => ?_, calm.countdowns, calm.agenda, calm.ready⟩
  by_cases new : h.stream = x.streams.length
  · rw [half_openStream_new new]
    cases kind <;> cases h.side <;> exact ⟨⟨rfl, rfl⟩, by simp [Stream.fresh, Stream.half,
      Half.fresh, Half.shut]⟩
  · rw [half_openStream_of_ne new]
    exact calm.halves h

theorem attach (calm : x.Calm) {hook : Hook} (strikes : hook.Strikes x.countdowns.length)
    (isOpen : (x.half h).closed = false) : (x.attach h hook).Calm := by
  simp only [Exchange.attach, isOpen]
  exact calm.modifyHalf ⟨⟨(calm.halves h).closing, (calm.halves h).channel⟩,
    List.forall_mem_append.mpr ⟨(calm.halves h).hooks, List.forall_mem_singleton.mpr strikes⟩⟩

theorem addCountdown (calm : x.Calm) (n : Nat) (i : StreamId) :
    Calm { x with countdowns := x.countdowns ++ [(n, .forget i)] } := by
  have more : x.countdowns.length ≤ (x.countdowns ++ [(n, Listener.forget i)]).length := by simp
  refine ⟨fun h => (calm.halves h).mono more, ?_, fun w mem => (calm.agenda w mem).mono more,
    calm.ready⟩
  exact List.forall_mem_append.mpr ⟨calm.countdowns, List.forall_mem_singleton.mpr ⟨i, rfl⟩⟩

theorem openCall (calm : x.Calm) (n : Nat) (kind : StreamKind) : (x.openCall n kind).Calm := by
  have opened : (x.enlist n kind x.countdowns).Calm :=
    ((calm.openStream kind).record (.opened n x.nextStream)).withActive _
  cases kind with
  | download =>
      rw [openCall_download]
      exact opened.attach trivial (closed_enlist n .download _ .responses)
  | upload =>
      rw [openCall_upload]
      have counted : (Hook.half x.countdowns.length).Strikes
          (x.countdowns ++ [(2, Listener.forget x.nextStream)]).length := by
        simp [Hook.Strikes]
      refine (attach (opened.addCountdown 2 x.nextStream) counted
        (closed_enlist n .upload _ .requests)).attach ?_ ?_
      · rw [countdowns_attach]
        exact counted
      · rw [half_attach_of_ne (by simp)]
        exact closed_enlist n .upload _ .responses

theorem keep (calm : x.Calm) (name : String) (i : StreamId) : (x.keep name i).Calm :=
  ⟨calm.halves, calm.countdowns, calm.agenda, calm.ready⟩

theorem startPlugin (calm : x.Calm) (n : Nat) (c : PluginCall) : (x.startPlugin n c).Calm := by
  cases c with
  | read => refine push (push (calm.openCall n .download) ?_) ?_ <;> trivial
  | write =>
      have counted : x.nextSource.Calm :=
        ⟨calm.halves, calm.countdowns, calm.agenda, calm.ready⟩
      refine push (push (counted.openCall n .upload) ?_) ?_ <;> trivial
  | openDownload => refine push (push ((calm.openCall n .download).keep _ _) ?_) ?_ <;> trivial
  | openUpload => refine push (push ((calm.openCall n .upload).keep _ _) ?_) ?_ <;> trivial
  | method name m =>
      simp only [Exchange.startPlugin]
      split
      · exact calm.enterEntry _ _ _
      · exact calm.settle _ _
  | readKept name =>
      simp only [Exchange.startPlugin]
      split
      · exact calm.push trivial
      · exact calm.settle _ _
  | holds | keys => exact calm.settle (.plain n) (.ok _)

theorem command (calm : x.Calm) {c : Command} (hosted : c.Hosted) : (x.command c).Calm := by
  cases c with
  | settle name o => exact calm.settleGate name o
  | call c =>
      cases c with
      | plugin c => 
          refine startPlugin ?_ _ _
          exact ⟨calm.halves, calm.countdowns, calm.agenda, calm.ready⟩
      | stream | emitter => exact hosted.elim

theorem next (calm : x.Calm) {w : Work P} {rest : List (Work P)} (agenda : x.agenda = w :: rest) :
    Calm { x with agenda := rest } ∧ w.Calm x.countdowns.length := by
  have all := calm.agenda
  rw [agenda] at all
  obtain ⟨first, others⟩ := List.forall_mem_cons.mp all
  exact ⟨⟨calm.halves, calm.countdowns, others, calm.ready⟩, first⟩

theorem move (calm : x.Calm) {y : Exchange P} (move : Move Command.Hosted x y) : y.Calm := by
  cases move with
  | work agenda =>
      obtain ⟨idle, first⟩ := calm.next agenda
      exact idle.work first
  | resume => exact calm.resume _
  | command _ hosted => exact calm.command hosted

end Calm

theorem calm_empty : (empty P).Calm :=
  ⟨fun h =>
    ⟨⟨rfl, rfl⟩, by simp [half, empty, Half.shut]⟩, by
      simp [empty], by simp [empty], by simp [empty]⟩

/-- Exchanges that hosts use are calm. -/
theorem Run.calm {x y : Exchange P} (run : Run Command.Hosted x y) (calm : x.Calm) : y.Calm :=
  run.keeps calm fun _ _ calm => calm.move

end Exchange

end ObjectTransfer
