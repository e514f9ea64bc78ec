import ObjectTransfer.Proofs.Guards

/-! # What is put on the agenda

Whatever an exchange does, it puts work in front of its agenda and tasks behind those that are ready
(`Exchange.Pushes`). That work is sober: a closing lets one task go on, and the listeners that are
called belong to a closure or to a call on an emitter. So all the work of an exchange is sober
(`Exchange.Run.sober`).
-/

namespace ObjectTransfer

variable {P : Plugin}

/-- Whether a call was made on an emitter. -/
def Event.Emitted (events : List Event) (n : Nat) : Prop :=
  ∃ event c, .called n (.emitter event c) ∈ events

/-- Whether listeners are called because a half closed, or for a call that may emit. -/
def Purpose.Sober {W : Type} (emits : Nat → Prop) : Purpose W → Prop
  | .closure _ => True
  | .lateClosure _ => True
  | .awaited n => emits n
  | .plainLasting n _ => emits n
  | .plainLast n => emits n
  | .closing _ _ => False

/-- Whether a piece of work lets one task go on, or calls listeners for a sober reason. -/
def Work.Sober (emits : Nat → Prop) : Work P → Prop
  | close _ next => next.Sober emits ∧ next.hooks = [] ∧ ∃ th, next.threads = [th]
  | emit e => e.purpose.Sober emits
  | _ => True

/-- Whether a piece of work is not to let a task go on that has to wait for its turn: only a
function that threw goes on at once, a handler, or a writer that starts. -/
def Work.Instant : Work P → Prop
  | run (.returned (.error _) _) => True
  | run (.returned (.ok _) t) =>
    match t.frames with
    | .handling _ _ :: _ => True
    | [.writing _ _ w] => w.phase = .starting
    | _ => False
  | run _ => False
  | close _ next => next.Instant
  | _ => True

theorem Purpose.Sober.mono {W : Type} {emits emits' : Nat → Prop} (more : ∀ n, emits n → emits' n)
    {p : Purpose W} (sober : p.Sober emits) : p.Sober emits' := by
  cases p with
  | closure | lateClosure => trivial
  | awaited | plainLasting | plainLast => exact more _ sober
  | closing => exact sober.elim

theorem Work.Sober.mono {emits emits' : Nat → Prop} (more : ∀ n, emits n → emits' n) {w : Work P}
    (sober : w.Sober emits) : w.Sober emits' := by
  fun_induction Work.Sober emits w with
  | case1 h next ih => exact ⟨ih sober.1, sober.2⟩
  | case2 e => exact Purpose.Sober.mono more sober
  | case3 w => unfold Work.Sober; split <;> simp_all

namespace Exchange

/-- Whether an exchange only put sober work in front of its agenda and tasks behind those that are
ready. -/
structure Pushes (emits : Nat → Prop) (x y : Exchange P) : Prop where
  agenda : ∃ ws, y.agenda = ws ++ x.agenda ∧ ∀ w ∈ ws, w.Sober emits ∧ w.Instant
  ready : x.ready <+: y.ready

variable {x y z : Exchange P} {h : HalfId} {emits : Nat → Prop}

theorem Sound.called {past : List Event} (sound : Sound past x) (c : Call) :
    .called x.calls c ∈ (x.command (.call c)).journal := by
  have counted : Sound past { x with calls := x.calls + 1 } := sound.of_same rfl rfl
  have begun : Sound (.called x.calls c :: x.journal)
      ({ x with calls := x.calls + 1 }.record (.called x.calls c)) :=
    ⟨List.suffix_rfl, (counted.record fun _ => rfl).aligned⟩
  have grown : .called x.calls c :: x.journal <:+ (x.command (.call c)).journal := by
    cases c with
    | stream i c => exact (begun.startStream _ _ _).grown
    | plugin c => exact (begun.startPlugin _ _).grown
    | emitter event c => exact (begun.startEmitter _ _ _).grown
  exact grown.subset List.mem_cons_self

namespace Pushes

theorem still (agenda : y.agenda = x.agenda) (ready : x.ready <+: y.ready) : Pushes emits x y :=
  ⟨⟨[], agenda, List.forall_mem_nil _⟩, ready⟩

theorem same (agenda : y.agenda = x.agenda) (ready : y.ready = x.ready) : Pushes emits x y :=
  still agenda (ready ▸ List.prefix_rfl)

theorem trans (first : Pushes emits x y) (second : Pushes emits y z) : Pushes emits x z where
  agenda := by
    obtain ⟨ws, agenda, sober⟩ := first.agenda
    obtain ⟨ws', agenda', sober'⟩ := second.agenda
    refine ⟨ws' ++ ws, ?_, List.forall_mem_append.mpr ⟨sober', sober⟩⟩
    rw [agenda', agenda, List.append_assoc]
  ready := first.ready.trans second.ready

theorem push (x : Exchange P) {w : Work P} (sober : w.Sober emits) (instant : w.Instant) :
    Pushes emits x (x.push w) :=
  ⟨⟨[w], rfl, List.forall_mem_singleton.mpr ⟨sober, instant⟩⟩, List.prefix_rfl⟩

theorem thenPush (pushes : Pushes emits x y) {w : Work P} (sober : w.Sober emits)
    (instant : w.Instant) : Pushes emits x (y.push w) :=
  pushes.trans (push y sober instant)

theorem wake (w : Wake P) (x : Exchange P) : Pushes emits x (x.wake w) :=
  still rfl (List.prefix_append _ _)

/-! ## Operations -/

theorem settle (w : Owner) (o : Outcome) (x : Exchange P) : Pushes emits x (x.settle w o) := by
  cases w with
  | call | plain | nobody => exact same rfl rfl
  | notice => cases o <;> exact same rfl rfl
  | service =>
      cases o with
      | ok => exact same rfl rfl
      | error v =>
          simp only [Exchange.settle]
          split <;> exact same rfl rfl

theorem answer (n : Nat) (v : Value) (x : Exchange P) : Pushes emits x (x.answer n v) :=
  settle _ _ x

theorem give (o : Outcome) (t : Task P) (x : Exchange P) : Pushes emits x (x.give o t) := by
  unfold Exchange.give
  split
  · exact settle _ _ x
  · exact wake _ x

theorem offer (m : Message) (terminal : Bool) (t : Task P) (x : Exchange P) :
    Pushes emits x (x.offer h m terminal t) := by
  simp only [Exchange.offer]
  split
  · exact same rfl rfl
  · exact still rfl ((List.prefix_append _ _).trans (List.prefix_append _ _))
  · exact still rfl (List.prefix_append _ _)

theorem receive (t : Task P) (x : Exchange P) : Pushes emits x (x.receive h t) := by
  simp only [Exchange.receive]
  split
  · exact same rfl rfl
  · exact still rfl ((List.prefix_append _ _).trans (List.prefix_append _ _))
  · exact still rfl (List.prefix_append _ _)

theorem shut (x : Exchange P) (h : HalfId) : Pushes emits x (Direct.shut x h) := by
  refine still (agenda_shut x h) ?_
  simp only [Direct.shut, closeChannel]
  split <;> exact (List.prefix_append _ _).trans (List.prefix_append _ _)

theorem awaitGates (names : List String) (t : Task P) (x : Exchange P) :
    Pushes emits x (x.awaitGates names t) := by
  simp only [Exchange.awaitGates]
  split
  · exact wake _ x
  · split
    · exact wake _ x
    · exact same rfl rfl

theorem settleGate (name : String) (o : Outcome) (x : Exchange P) :
    Pushes emits x (x.settleGate name o) := by
  simp only [Exchange.settleGate]
  split
  · exact same rfl rfl
  · exact still rfl (List.prefix_append _ _)

theorem attach (h : HalfId) (hook : Hook) (x : Exchange P) : Pushes emits x (x.attach h hook) := by
  simp only [Exchange.attach]
  split
  · exact wake _ x
  · exact same rfl rfl

theorem whenClosed (i : StreamId) (l : Listener) (x : Exchange P) :
    Pushes emits x (x.whenClosed i l) := by
  simp only [Exchange.whenClosed]
  split
  · exact attach _ _ x
  · have counted : Pushes emits x { x with countdowns := x.countdowns ++ [(2, l)] } := same rfl rfl
    exact (counted.trans (attach _ _ _)).trans (attach _ _ _)

theorem announce (h : HalfId) {next : Work P} (sober : next.Sober emits) (instant : next.Instant)
    (x : Exchange P) : Pushes emits x (x.announce h next) := by
  have pushed := push x sober instant
  simp only [Exchange.announce]
  split
  · exact pushed
  · exact thenPush pushed (by trivial) trivial

theorem closeHalf (guarded : (x.half h).Guarded) {next : Work P} (sober : next.Sober emits)
    (instant : next.Instant) : Pushes emits x (x.closeHalf h next) := by
  by_cases isClosed : (x.half h).closed = true
  · rw [closeHalf_of_closed isClosed]
    exact push x sober instant
  · rw [closeHalf_of_open guarded (by simpa using isClosed)]
    exact (shut x h).trans (announce h sober instant _)

theorem finishService (i : StreamId) (o : Outcome) (t : Task P) (x : Exchange P) :
    Pushes emits x (x.finishService i o t) :=
  push x ⟨⟨trivial, rfl, _, rfl⟩, rfl, _, rfl⟩ trivial

theorem enterEntry (i : StreamId) (e : Entry) (t : Task P) (x : Exchange P) :
    Pushes emits x (x.enterEntry i e t) := by
  have closing {side : Side} {o : Outcome} :
      Pushes emits x (x.push (.close ⟨i, side⟩ (.give o t))) :=
        push x ⟨trivial, rfl, _, rfl⟩ trivial
  cases e with
  | returns | fulfils | rejects => exact give _ t x
  | throws => exact push x trivial trivial
  | receives side => exact receive t x
  | sends side m terminal relayed =>
      simp only [Exchange.enterEntry]
      split
      · exact give _ t x
      · exact offer m terminal _ x
  | closes side => exact closing
  | closesOpen side =>
      simp only [Exchange.enterEntry]
      split
      · exact give _ t x
      · exact closing
  | closesAndReceives => exact push x ⟨trivial, rfl, _, rfl⟩ trivial

theorem remarks (source : Nat) (rs : List Writing.Remark) (x : Exchange P) :
    Pushes emits x (rs.foldl (Exchange.remark source) x) := by
  induction rs generalizing x with
  | nil => exact same rfl rfl
  | cons r rs ih =>
      rw [List.foldl_cons]
      refine .trans ?_ (ih _)
      cases r <;> exact same rfl rfl

theorem resumeFrame (o : Outcome) (t : Task P) (x : Exchange P) :
    Pushes emits x (x.resumeFrame o t) := by
  obtain ⟨frames, owner⟩ := t
  cases frames with
  | nil => exact settle _ _ x
  | cons f frames =>
      cases f with
      | reading i r =>
          simp only [Exchange.resumeFrame, resumeReading]
          split <;> exact push x trivial trivial
      | writing i k w =>
          have remarked : Pushes emits x _ := remarks k (w.resume o).remarks x
          simp only [Exchange.resumeFrame, resumeWriting]
          split
          · exact remarked.trans (wake _ _)
          · exact remarked.trans (awaitGates _ _ _)
          · exact thenPush remarked trivial trivial
          · exact thenPush remarked trivial trivial
      | handling i state =>
          have turned : Pushes emits x { x with shared := (P.step x.shared state o).1 } :=
            same rfl rfl
          simp only [Exchange.resumeFrame, resumeHandling]
          cases (P.step x.shared state o).2 with
          | wait gate next => exact turned.trans (awaitGates _ _ _)
          | rest next => exact turned.trans (wake _ _)
          | fork child next => refine thenPush (thenPush turned ?_ ?_) ?_ ?_ <;> trivial
          | did | log => refine thenPush (turned.trans (same ?_ ?_)) ?_ ?_ <;> first | rfl | trivial
          | call | succeed | fail | refuse => refine thenPush turned ?_ ?_ <;> trivial
      | serving i =>
          simp only [Exchange.resumeFrame, resumeServing]
          have logged (level text value) : Pushes emits x (x.log level text value) := same rfl rfl
          split
          · exact finishService _ _ _ x
          · split
            · exact (logged _ _ _).trans (finishService _ _ _ _)
            · split
              · exact (logged _ _ _).thenPush ⟨trivial, rfl, _, rfl⟩ trivial
              · exact (logged _ _ _).trans (finishService _ _ _ _)
      | delivering i => exact finishService _ _ _ x
      | relaying => exact push x trivial trivial
      | following gate => exact awaitGates _ _ x

theorem run (w : Wake P) (x : Exchange P) : Pushes emits x (x.run w) := by
  cases w with
  | sent h terminal taken t =>
      cases terminal
      · exact push x trivial trivial
      · exact push x ⟨trivial, rfl, _, rfl⟩ trivial
  | received h m t =>
      have recorded (e : Event) : Pushes emits x (x.record e) := same rfl rfl
      rcases m with _ | _ | _
      · exact (recorded _).thenPush trivial trivial
      · exact (recorded _).thenPush trivial trivial
      · exact (recorded _).thenPush ⟨trivial, rfl, _, rfl⟩ trivial
  | returned o t => exact resumeFrame o t x
  | late hook label turns =>
      cases turns with
      | zero => exact push x trivial trivial
      | succ => exact wake _ x

theorem deliver (i : StreamId) (f : Fault) (t : Task P) (x : Exchange P) :
    Pushes emits x (x.deliver i f t) := by
  simp only [Exchange.deliver]
  split
  · exact give _ t x
  · exact push x trivial trivial

/-! ## Calls -/

theorem openCall (n : Nat) (kind : StreamKind) (x : Exchange P) :
    Pushes emits x (x.openCall n kind) := by
  have opened : Pushes emits x { (x.openStream (.fresh P kind)).record (.opened n x.nextStream) with
      active := x.active ++ [x.nextStream] } := same rfl rfl
  exact opened.trans (whenClosed _ _ _)

theorem startStream (n : Nat) (i : StreamId) (c : StreamCall) (x : Exchange P) :
    Pushes emits x (x.startStream n i c) := by
  cases c with
  | method role m => exact enterEntry _ _ _ x
  | close => exact push x ⟨trivial, rfl, _, rfl⟩ trivial
  | read => exact push x trivial trivial
  | whenClosed l => exact (whenClosed i l x).trans (answer _ _ _)
  | identified => exact answer _ _ x
  | write =>
      have counted : Pushes emits x x.nextSource := same rfl rfl
      exact thenPush counted trivial rfl

theorem startPlugin (n : Nat) (c : PluginCall) (x : Exchange P) :
    Pushes emits x (x.startPlugin n c) := by
  cases c with
  | read | openDownload =>
      refine thenPush (thenPush ((openCall n .download x).trans (same ?_ ?_)) ?_ ?_) ?_ ?_ <;>
        first | rfl | trivial
  | write =>
      have counted : Pushes emits x x.nextSource := same rfl rfl
      refine thenPush (thenPush (counted.trans (openCall n .upload _)) ?_ ?_) ?_ ?_ <;>
        first | rfl | trivial
  | openUpload =>
      refine thenPush (thenPush ((openCall n .upload x).trans (same ?_ ?_)) ?_ ?_) ?_ ?_ <;>
        first | rfl | trivial
  | method name m =>
      simp only [Exchange.startPlugin]
      split
      · exact enterEntry _ _ _ x
      · exact settle _ _ x
  | readKept name =>
      simp only [Exchange.startPlugin]
      split
      · exact push x trivial trivial
      · exact settle _ _ x
  | holds | keys => exact answer _ _ x

theorem startEmitter {n : Nat} (emitted : emits n) (event : String) (c : EmitterCall)
    (x : Exchange P) : Pushes emits x (x.startEmitter n event c) := by
  have registered {emitter} : Pushes emits x { x with emitter } := same rfl rfl
  cases c with
  | subscribe | subscribeOnce | unsubscribe => exact registered.trans (answer _ _ _)
  | emit =>
      simp only [Exchange.startEmitter]
      split
      · refine push x ?_ trivial
        simp only [Work.Sober]
        split <;> exact emitted
      · exact answer _ _ x
  | emitAndWait => exact push x emitted trivial

theorem command {c : Command}
    (emitted : ∀ event c', c = .call (.emitter event c') → emits x.calls) :
    Pushes emits x (x.command c) := by
  cases c with
  | settle name o => exact settleGate name o x
  | call c =>
      have called : Pushes emits x ({ x with calls := x.calls + 1 }.record (.called x.calls c)) :=
        same rfl rfl
      cases c with
      | stream i c => exact called.trans (startStream _ _ _ _)
      | plugin c => exact called.trans (startPlugin _ _ _)
      | emitter event c => exact called.trans (startEmitter (emitted event c rfl) _ _ _)

/-! ## Listeners -/

theorem startHook (hook : Hook) (argument : Value) (x : Exchange P) :
    Pushes emits x (x.startHook hook argument).1 := by
  have listener (l : Listener) (argument : Value) (y : Exchange P) :
      Pushes emits y (y.startListener l argument).1 := by
    cases l <;> exact same rfl rfl
  have counted {countdowns} : Pushes emits x { x with countdowns } := same rfl rfl
  cases hook with
  | direct l => exact listener l argument x
  | half n =>
      simp only [Exchange.startHook]
      split
      · exact same rfl rfl
      · split
        · exact counted.trans (listener _ _ _)
        · exact counted

theorem awaitReplies (replies : List Reply) (t : Task P) (x : Exchange P) :
    Pushes emits x (x.awaitReplies replies t) := by
  simp only [Exchange.awaitReplies]
  split
  · exact wake _ x
  · exact awaitGates _ _ x

theorem completed {e : Emission (Work P)} (sober : e.purpose.Sober emits) :
    Pushes emits x (x.completed e) := by
  simp only [Exchange.completed]
  cases purpose : e.purpose with
  | closure => exact awaitReplies _ _ x
  | lateClosure =>
      simp only [lateWitness]
      split
      · exact wake _ x
      · exact awaitReplies _ _ x
  | awaited => exact awaitReplies _ _ x
  | plainLasting n event =>
      rw [purpose] at sober
      have cleared : Pushes emits x { x with emitter := x.emitter.clearOnce event } := same rfl rfl
      exact thenPush cleared sober trivial
  | plainLast => exact answer _ _ x
  | closing =>
      rw [purpose] at sober
      exact sober.elim

theorem broken {e : Emission (Work P)} (sober : e.purpose.Sober emits) (v : Value) :
    Pushes emits x (x.broken e v) := by
  simp only [Exchange.broken]
  cases purpose : e.purpose with
  | closure | lateClosure | awaited => exact wake _ x
  | plainLasting | plainLast => exact settle _ _ x
  | closing =>
      rw [purpose] at sober
      exact sober.elim

theorem emission {past : List Event} (sound : Sound past x) {e : Emission (Work P)}
    (sober : e.purpose.Sober emits)
    (emitted : Event.Emitted (x.emission e).journal x.calls → emits x.calls) :
    Pushes emits x (x.emission e) := by
  revert emitted
  unfold Exchange.emission
  have goesOn (current replies rest) (y : Exchange P) :
      Pushes emits y (y.push (.emit ⟨current, replies, rest, e.argument, e.purpose⟩)) :=
        push y sober trivial
  split <;> intro emitted
  · exact broken sober _
  · exact goesOn _ _ _ x
  · exact goesOn _ _ _ x
  · refine (goesOn _ _ _ x).trans (command fun event c called => emitted ⟨event, c, ?_⟩)
    subst called
    exact (sound.push _).called _
  · exact goesOn _ _ _ x
  · cases e.rest with
    | nil => exact completed sober
    | cons hook rest => exact (startHook hook e.argument x).trans (goesOn _ _ _ _)

/-- A piece of work that a closing does not put off, or that it puts off if it need not wait for its
turn. -/
theorem work {past : List Event} (sound : Sound past x) {w : Work P} (sober : w.Sober emits)
    (instant : w.Instant ∨ ∃ wake, w = .run wake)
    (emitted : Event.Emitted (x.work w).journal x.calls → emits x.calls) :
    Pushes emits x (x.work w) := by
  cases w with
  | run w => exact run w x
  | give o t => exact give o t x
  | close h next =>
      exact closeHalf (sound.aligned h).guarded sober.1 (instant.resolve_right (by rintro ⟨_, ⟨⟩⟩))
  | receive h t => exact receive t x
  | enter i role m t => exact enterEntry _ _ _ x
  | serve i invocation =>
      have shared {shared} : Pushes emits x { x with shared } := same rfl rfl
      exact thenPush shared trivial trivial
  | deliver i f t => exact deliver _ _ _ x
  | emit e => exact emission sound sober emitted

end Pushes

/-! ## Runs -/

/-- Whether all the work to do at once is sober, and lets no task go on that has to wait for its
turn but the one whose turn it is. -/
structure Sober (x : Exchange P) : Prop where
  work : ∀ w ∈ x.agenda, w.Sober (Event.Emitted x.journal)
  instant : (∀ w ∈ x.agenda, w.Instant) ∨ ∃ wake, x.agenda = [.run wake]

theorem Sober.rest (sober : x.Sober) {w : Work P} {rest : List (Work P)}
    (agenda : x.agenda = w :: rest) :
    (w.Instant ∨ ∃ wake, w = .run wake) ∧ ∀ w ∈ rest, w.Instant := by
  rcases sober.instant with all | ⟨wake, one⟩
  · rw [agenda] at all
    exact ⟨.inl (all w List.mem_cons_self), fun w mem => all w (List.mem_cons_of_mem _ mem)⟩
  · cases agenda.symm.trans one
    exact ⟨.inr ⟨wake, rfl⟩, List.forall_mem_nil _⟩

theorem Sober.pushed (sober : ∀ w ∈ x.agenda, w.Sober (Event.Emitted x.journal))
    (instant : ∀ w ∈ x.agenda, w.Instant) (more : x.journal ⊆ y.journal)
    (pushes : Pushes (Event.Emitted y.journal) x y) : y.Sober := by
  obtain ⟨ws, agenda, new⟩ := pushes.agenda
  refine ⟨fun w mem => ?_, .inl fun w mem => ?_⟩ <;> rw [agenda, List.mem_append] at mem
  · refine mem.elim (fun inside => (new w inside).1) fun old => ?_
    exact (sober w old).mono fun n ⟨event, c, called⟩ => ⟨event, c, more called⟩
  · exact mem.elim (fun inside => (new w inside).2) (instant w)

theorem Sober.pushes (sober : x.Sober) {past : List Event} (sound : Sound past x) {w : Work P}
    {rest : List (Work P)} (agenda : x.agenda = w :: rest) :
    Pushes (Event.Emitted (({ x with agenda := rest } : Exchange P).work w).journal)
      { x with agenda := rest }
      (({ x with agenda := rest } : Exchange P).work w) := by
  have since : Sound x.journal x := ⟨List.suffix_rfl, sound.aligned⟩
  have taken : Sound x.journal { x with agenda := rest } := since.of_same rfl rfl
  have move : Move (fun _ => True) x (({ x with agenda := rest } : Exchange P).work w) :=
    .work agenda
  have more := (since.move move).grown.subset
  have first : w.Sober (Event.Emitted x.journal) := sober.work w (agenda ▸ List.mem_cons_self)
  refine Pushes.work taken (first.mono fun n ⟨event, c, called⟩ => ⟨event, c, ?_⟩)
    (sober.rest agenda).1 id
  exact more called

theorem Sober.move {allowed : Command → Prop} (sober : x.Sober) {past : List Event}
    (sound : Sound past x)
    (move : Move allowed x y) : y.Sober := by
  have since : Sound x.journal x := ⟨List.suffix_rfl, sound.aligned⟩
  have more : x.journal ⊆ y.journal := (since.move move).grown.subset
  cases move with
  | @work w rest agenda =>
      have before (w) (mem : w ∈ rest) : w.Sober (Event.Emitted x.journal) :=
        sober.work w (agenda ▸ List.mem_cons_of_mem _ mem)
      exact .pushed (x := { x with agenda := rest }) before (sober.rest agenda).2 more
        (sober.pushes sound agenda)
  | @resume place quiet lt =>
      unfold resume
      rw [List.getElem?_eq_getElem lt]
      exact ⟨List.forall_mem_singleton.mpr trivial, .inr ⟨_, rfl⟩⟩
  | @command c quiet =>
      have nothing {p : Work P → Prop} (w) (mem : w ∈ x.agenda) : p w :=
        absurd (quiet ▸ mem) List.not_mem_nil
      refine .pushed nothing nothing more (Pushes.command fun event c' same => ⟨event, c', ?_⟩)
      subst same
      exact since.called _

variable {kinds : List StreamKind}

theorem ofStreams_concat (P : Plugin) (kinds : List StreamKind) (kind : StreamKind) :
    ofStreams P (kinds ++ [kind]) = (ofStreams P kinds).openStream (.fresh P kind) := by
  rw [ofStreams, List.foldl_concat]
  rfl

theorem fresh_ofStreams (P : Plugin) (kinds : List StreamKind) :
    (ofStreams P kinds).threads = 0 ∧ (ofStreams P kinds).agenda = [] ∧
      (ofStreams P kinds).journal = [] ∧ (ofStreams P kinds).streams.map (·.kind) = kinds := by
  induction kinds using List.reverseRecOn with
  | nil => exact ⟨rfl, rfl, rfl, rfl⟩
  | append_singleton kinds kind ih =>
      obtain ⟨threads, agenda, journal, opened⟩ := ih
      rw [ofStreams_concat]
      refine ⟨?_, agenda, journal, ?_⟩
      · rw [← threads]
        simp only [Exchange.threads, parked_openStream]
        rfl
      · rw [openStream, List.map_append, opened]
        cases kind <;> rfl

/-- However the streams are used, all the work is sober. -/
theorem Run.sober (run : Run (fun _ => True) (ofStreams P kinds) x) : x.Sober := by
  induction run with
  | refl =>
      have nothing {p : Work P → Prop} (w) (mem : w ∈ (ofStreams P kinds).agenda) : p w :=
        absurd ((fresh_ofStreams P kinds).2.1 ▸ mem) List.not_mem_nil
      exact ⟨nothing, .inl nothing⟩
  | step before move ih => exact ih.move (Run.sound before (sound_ofStreams P kinds)) move

end Exchange

end ObjectTransfer
