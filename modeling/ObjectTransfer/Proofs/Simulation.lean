import ObjectTransfer.Proofs.Hosted

/-! # Steps of an exchange as steps of its scene

Every step of an exchange that a host uses is some steps of its scene (`Exchange.Move.steps`), so
the scenes of all its states can be reached (`Exchange.History.reachable`). A history is a run that
remembers the turns of the handlers.
-/

namespace ObjectTransfer

variable {P : Plugin}

namespace Scene

/-- A scene after the turn of a handler, without what the handler does next. -/
def turned (s : Scene P) (turn : HandlerTurn P) : Scene P :=
  { s with
    shared := (P.step turn.shared turn.state turn.outcome).1
    turns := turn :: s.turns }

theorem handle_steps (s : Scene P) (turn : HandlerTurn P) (shared : turn.shared = s.shared) (fs)
    (w : Owner) :
    Steps (s.add [⟨.bound turn.outcome, .handling turn.stream turn.state :: fs, w⟩])
      (((s.turned turn).add
        ((P.step turn.shared turn.state turn.outcome).2.threads s.gates turn.stream fs w)).note
        (P.step turn.shared turn.state turn.outcome).2.events) := by
  obtain ⟨i, state, o, _⟩ := turn
  subst shared
  exact .single (.handle (show _ = _ ::ₘ s.threads from rfl))

end Scene

/-- Whether a piece of work lets one task go on, and calls no listener. -/
def Work.Single : Work P → Prop
  | .run (.late _ _ _) => False
  | .close _ next => next.hooks = [] ∧ ∃ th, next.threads = [th]
  | .emit _ => False
  | _ => True

namespace Exchange

variable {x y : Exchange P}

theorem scene_push_calm {w : Work P} (hooks : w.hooks = []) (x : Exchange P) (ts) :
    (x.push w).scene ts = (x.scene ts).add w.threads := by
  rw [scene_push, hooks, Scene.await_nil]

theorem scene_enterEntry (guarded : ∀ h, (x.half h).Guarded) (i : StreamId) (e : Entry)
    (t : Task P) (ts) :
    Scene.Steps ((x.scene ts).add [t.thread (e.stage (x.scene ts).closed i)])
      ((x.enterEntry i e t).scene ts) := by
  cases e with
  | returns | fulfils | rejects => exact scene_give _ t x ts
  | throws f =>
      rw [enterEntry, scene_push]
      exact .refl
  | receives side => exact scene_receive (guarded _) t ts
  | sends side m terminal relayed =>
      by_cases isClosed : (x.half ⟨i, side⟩).closed = true
      · have stage : (Entry.sends side m terminal relayed).stage (x.scene ts).closed i =
            .bound (.error (.fault .streamClosed)) := if_pos isClosed
        rw [stage, enterEntry, if_pos isClosed]
        exact scene_give _ t x ts
      · have stage : (Entry.sends side m terminal relayed).stage (x.scene ts).closed i =
            .offering ⟨i, side⟩ m terminal := if_neg isClosed
        rw [stage, enterEntry, if_neg isClosed]
        have offered := scene_offer (guarded ⟨i, side⟩) (by simpa using isClosed) m
          terminal (if relayed then t.under .relaying else t) ts
        cases relayed <;> exact offered
  | closes side =>
      rw [enterEntry, scene_push]
      exact .refl
  | closesOpen side =>
      by_cases isClosed : (x.half ⟨i, side⟩).closed = true
      · have stage : (Entry.closesOpen side).stage (x.scene ts).closed i =
            .bound (.error (.fault .streamClosed)) := if_pos isClosed
        rw [stage, enterEntry, if_pos isClosed]
        exact scene_give _ t x ts
      · have stage : (Entry.closesOpen side).stage (x.scene ts).closed i =
            .closing ⟨i, side⟩ (.bound (.ok .undefined)) := if_neg isClosed
        rw [stage, enterEntry, if_neg isClosed, scene_push]
        exact .refl
  | closesAndReceives =>
      rw [enterEntry, scene_push]
      exact .refl

theorem kindOf_scene (x : Exchange P) (ts) (i : StreamId) : (x.scene ts).kindOf i = x.kindOf i := by
  simp [Scene.kindOf, kindOf, scene]

theorem scene_enter (guarded : ∀ h, (x.half h).Guarded) (i : StreamId) (role : Role) (m : Method)
    (t : Task P) (ts) :
    Scene.Steps ((x.scene ts).add [t.thread (.entering i role m)])
      ((x.enter i role m t).scene ts) := by
  refine .trans (Scene.Solo.steps (s := x.scene ts) .enter) ?_
  rw [kindOf_scene]
  exact scene_enterEntry guarded i _ t ts

theorem scene_remarks (source : Nat) (rs : List Writing.Remark) (x : Exchange P) (ts) :
    (rs.foldl (remark source) x).scene ts =
      (x.scene ts).note (rs.filterMap (·.event? source)).reverse := by
  induction rs generalizing x with
  | nil => rfl
  | cons r rs ih =>
      rw [List.foldl_cons, ih]
      cases r with
      | logged => rfl
      | pulled | sourceEnded =>
          rw [remark, scene_record rfl]
          simp [Scene.note, Writing.Remark.event?]

theorem gates_remarks (source : Nat) (rs : List Writing.Remark) (x : Exchange P) :
    (rs.foldl (remark source) x).gates = x.gates := by
  induction rs generalizing x with
  | nil => rfl
  | cons r rs ih =>
      rw [List.foldl_cons, ih]
      cases r <;> rfl

theorem scene_resumeReading (i : StreamId) (r : Reading) (o : Outcome) (t : Task P)
    (x : Exchange P) (ts) :
    Scene.Steps ((x.scene ts).add [(t.under (.reading i r)).thread (.bound o)])
      ((x.resumeReading i r o t).scene ts) := by
  refine .trans (Scene.Solo.steps (s := x.scene ts) .read) (Scene.Steps.of_eq ?_)
  simp only [resumeReading]
  split <;> simp only [scene_push, Reading.Next.thread, *] <;> rfl

theorem scene_resumeWriting (i : StreamId) (source : Nat) (w : Writing) (o : Outcome) (t : Task P)
    (x : Exchange P) (ts) :
    Scene.Steps ((x.scene ts).add [(t.under (.writing i source w)).thread (.bound o)])
      ((x.resumeWriting i source w o t).scene ts) := by
  refine .trans (Scene.Solo.steps (s := x.scene ts) .write) (Scene.Steps.of_eq ?_)
  cases next : (w.resume o).next with
  | rests =>
      simp only [resumeWriting, Writing.Turn.thread, next, scene_wake, scene_remarks]
      rfl
  | waits gate =>
      simp only [resumeWriting, Writing.Turn.thread, next, scene_awaitGates, scene_remarks,
        gates_remarks]
      rfl
  | calls m =>
      simp only [resumeWriting, Writing.Turn.thread, next, scene_push, scene_remarks]
      rfl
  | done o =>
      simp only [resumeWriting, Writing.Turn.thread, next, scene_push, scene_remarks]
      rfl

theorem scene_resumeHandling (i : StreamId) (state : P.Local) (o : Outcome) (t : Task P)
    (x : Exchange P) (ts) :
    Scene.Steps ((x.scene ts).add [(t.under (.handling i state)).thread (.bound o)])
      ((x.resumeHandling i state o t).scene (⟨i, state, o, x.shared⟩ :: ts)) := by
  refine .trans (Scene.handle_steps (x.scene ts) ⟨i, state, o, x.shared⟩ rfl _ _)
    (Scene.Steps.of_eq ?_)
  change (((x.scene ts).turned ⟨i, state, o, x.shared⟩).add
    (Act.threads x.gates.outcome? i _ t.owner (P.step x.shared state o).2)).note _ = _
  have turned : (x.scene ts).turned ⟨i, state, o, x.shared⟩ =
    Exchange.scene { x with shared := (P.step x.shared state o).1 } 
      (⟨i, state, o, x.shared⟩ :: ts) := rfl
  rw [turned]
  simp only [resumeHandling]
  cases (P.step x.shared state o).2 with
  | call m next =>
      rw [scene_push]
      rfl
  | wait gate next =>
      rw [scene_awaitGates]
      rfl
  | rest next =>
      rw [scene_wake]
      rfl
  | fork child next =>
      rw [scene_push_calm rfl, scene_push_calm rfl, Scene.add_add]
      rfl
  | did handler deed v next =>
      rw [scene_push, scene_record rfl]
      rfl
  | log line next =>
      rw [scene_push]
      rfl
  | succeed | fail | refuse =>
      rw [scene_push]
      rfl

theorem scene_finishService (i : StreamId) (o : Outcome) (t : Task P) (x : Exchange P) (ts) :
    (x.finishService i o t).scene ts = (x.scene ts).add [t.thread (.finishing i o)] := by
  rw [finishService, scene_push_calm rfl]
  rfl

theorem scene_resumeServing (i : StreamId) (o : Outcome) (t : Task P) (x : Exchange P) (ts) :
    Scene.Steps ((x.scene ts).add [(t.under (.serving i)).thread (.bound o)])
      ((x.resumeServing i o t).scene ts) := by
  refine .trans (Scene.Solo.steps (s := x.scene ts) .serve) (Scene.Steps.of_eq ?_)
  cases o with
  | ok =>
      rw [resumeServing, scene_finishService]
      rfl
  | error v =>
      simp only [resumeServing, Thread.served]
      split
      · rw [scene_finishService, scene_log]
        rfl
      · cases v.toFault? with
        | ok f =>
            rw [scene_push_calm rfl, scene_log]
            rfl
        | error f =>
            rw [scene_finishService, scene_log]
            rfl

/-- A task goes on; if that is the turn of a handler, it is remembered. -/
theorem scene_resumeFrame (o : Outcome) (t : Task P) (x : Exchange P) (ts) :
    Scene.Steps ((x.scene ts).add [t.thread (.bound o)])
      ((x.resumeFrame o t).scene ((x.push (.run (.returned o t))).handlerTurn?.toList ++ ts)) := by
  obtain ⟨frames, owner⟩ := t
  cases frames with
  | nil => exact settle_steps owner o x ts
  | cons f frames =>
      cases f with
      | reading i r => exact scene_resumeReading i r o ⟨frames, owner⟩ x ts
      | writing i source w => exact scene_resumeWriting i source w o ⟨frames, owner⟩ x ts
      | handling i state => exact scene_resumeHandling i state o ⟨frames, owner⟩ x ts
      | serving i => exact scene_resumeServing i o ⟨frames, owner⟩ x ts
      | delivering i =>
          rw [resumeFrame, scene_finishService]
          exact Scene.Solo.delivered.steps
      | relaying =>
          rw [resumeFrame, scene_push_calm rfl]
          exact .refl
      | following gate =>
          rw [resumeFrame, scene_awaitGates]
          exact Scene.Solo.follow.steps

theorem scene_run {w : Wake P} (calm : w.Calm) (x : Exchange P) (ts) :
    Scene.Steps ((x.push (.run w)).scene ts)
      ((x.run w).scene ((x.push (.run w)).handlerTurn?.toList ++ ts)) := by
  cases w with
  | sent h terminal taken t =>
      rw [scene_push_calm rfl]
      cases terminal <;> rw [run] <;> simp only [Bool.false_eq_true, if_true, if_false] <;> 
        rw [scene_push_calm rfl] <;> exact .refl
  | received h m t =>
      rw [scene_push_calm rfl]
      refine .trans (Scene.Solo.steps (s := x.scene ts) .received) (Scene.Steps.of_eq ?_)
      rcases m with _ | v | f
      · rw [run, scene_push_calm rfl, scene_record rfl]
        rfl
      · rw [run, scene_push_calm rfl, scene_record rfl]
        rfl
      · rw [run, scene_push_calm rfl, scene_record rfl]
        rfl
  | returned o t =>
      rw [scene_push_calm rfl]
      exact scene_resumeFrame o t x ts
  | late => exact calm.elim

theorem scene_deliver (i : StreamId) (f : Fault) (t : Task P) (x : Exchange P) (ts) :
    Scene.Steps ((x.scene ts).add [t.thread (.delivering i f)]) ((x.deliver i f t).scene ts) := by
  rw [deliver]
  split
  next isClosed =>
    exact .trans (Scene.Solo.steps (s := x.scene ts) (.undelivered isClosed)) (scene_give _ t x ts)
  next isOpen =>
    refine .trans (Scene.Solo.steps (s := x.scene ts) (.deliver ?_)) (Scene.Steps.of_eq ?_)
    · exact Bool.not_eq_true _ ▸ isOpen
    · rw [scene_push_calm rfl]
      rfl

theorem scene_serve (i : StreamId) (invocation : Invocation) (x : Exchange P) (ts) :
    Scene.Steps ((x.scene ts).add [⟨.starting i invocation, [.serving i], .service i⟩])
      ((x.serve i invocation).scene ts) := by
  refine .trans (.single (.start (show _ = _ ::ₘ x.threads from rfl))) (Scene.Steps.of_eq ?_)
  rw [serve, scene_push_calm rfl]
  rfl

theorem scene_startHook (calm : x.Calm) {hook : Hook} (strikes : hook.Strikes x.countdowns.length)
    (argument : Value) (hooks : List Hook) (ts) :
    Scene.Steps ((x.scene ts).await (hook :: hooks))
      (((x.startHook hook argument).1.scene ts).await hooks) := by
  cases hook with
  | direct l =>
      cases l with
      | script => exact strikes.elim
      | forget i =>
          exact .single (.strike (show _ = _ ::ₘ (↑hooks + (x.scene ts).pending) from rfl))
  | half n =>
      obtain ⟨i, forgets⟩ := calm.countdowns _ (List.getElem_mem strikes)
      have counted : x.countdowns[n]? = some (x.countdowns[n].1, .forget i) := by
        rw [List.getElem?_eq_getElem strikes, ← forgets]
      refine .trans (.single (.count (show _ = _ ::ₘ (↑hooks + (x.scene ts).pending) from rfl)
        counted)) (Scene.Steps.of_eq ?_)
      simp only [startHook, counted]
      split <;> rfl

theorem awaitReplies_of_nothing {replies : List Reply} (nothing : ∀ r ∈ replies, r = .nothing)
    (t : Task P) : x.awaitReplies replies t = x.wake (.returned (.ok .undefined) t) := by
  have all : replies = List.replicate replies.length .nothing :=
    List.eq_replicate_iff.mpr ⟨rfl, nothing⟩
  rw [all]
  simp [awaitReplies, awaitGates]

theorem scene_emission (calm : x.Calm) {e : Emission (Work P)} (ec : e.Calm x.countdowns.length)
    (ts) : Scene.Steps ((x.scene ts).await e.rest) ((x.emission e).scene ts) := by
  obtain ⟨current, replies, rest, argument, purpose⟩ := e
  obtain ⟨label, rfl⟩ := ec.purpose
  rcases ec.current with rfl | rfl
  · cases rest with
    | nil =>
        simp only [emission, completed]
        rw [awaitReplies_of_nothing ec.replies, scene_wake]
        exact .single .notice
    | cons hook hooks =>
        obtain ⟨-, actions, -⟩ := calm.startHook (ec.rest hook List.mem_cons_self) argument
        simp only [emission, actions]
        rw [scene_push]
        exact scene_startHook calm (ec.rest hook List.mem_cons_self) argument hooks ts
  · simp only [emission]
    rw [scene_push]
    exact .refl

theorem scene_task (guarded : ∀ h, (x.half h).Guarded) {w : Work P} (single : w.Single) (ts) :
    Scene.Steps ((x.push w).scene ts)
      ((x.work w).scene ((x.push w).handlerTurn?.toList ++ ts)) := by
  cases w with
  | run w =>
      refine scene_run ?_ x ts
      cases w with
      | late => exact single
      | sent | received | returned => trivial
  | give o t =>
      rw [scene_push_calm rfl]
      exact scene_give o t x ts
  | close h next =>
      obtain ⟨hooks, th, threads⟩ := single
      have closing : (Work.close h next).threads = [th.move (.closing h)] := by
        simp [Work.threads, threads]
      rw [scene_push_calm (w := .close h next) hooks, closing]
      exact scene_closeHalf (guarded h) threads hooks ts
  | receive h t =>
      rw [scene_push_calm rfl]
      exact scene_receive (guarded h) t ts
  | enter i role m t =>
      rw [scene_push_calm rfl]
      exact scene_enter guarded i role m t ts
  | serve i invocation =>
      rw [scene_push_calm rfl]
      exact scene_serve i invocation x ts
  | deliver i f t =>
      rw [scene_push_calm rfl]
      exact scene_deliver i f t x ts
  | emit => exact single.elim

theorem scene_work (calm : x.Calm) {w : Work P} (wc : w.Calm x.countdowns.length) (ts) :
    Scene.Steps ((x.push w).scene ts)
      ((x.work w).scene ((x.push w).handlerTurn?.toList ++ ts)) := by
  have guarded h := (calm.halves h).toGuarded
  cases w with
  | emit e =>
      obtain ⟨current, replies, rest, argument, purpose⟩ := e
      obtain ⟨label, rfl⟩ := wc.purpose
      rw [scene_push]
      change Scene.Steps (((x.scene ts).add []).await _) _
      rw [Scene.add_nil]
      exact scene_emission calm wc ts
  | close =>
      refine scene_task guarded ?_ ts
      exact wc.2
  | run w =>
      refine scene_task guarded ?_ ts
      cases w with
      | late => exact wc
      | sent | received | returned => trivial
  | give | receive | enter | serve | deliver =>
      refine scene_task guarded ?_ ts
      trivial

theorem scene_resume (quiet : x.agenda = []) {place : Nat} (lt : place < x.ready.length) (ts) :
    (x.resume place).scene ts = x.scene ts := by
  have perm := List.getElem_cons_eraseIdx_perm lt
  have threads : (↑(x.ready[place].threads ++ (x.ready.eraseIdx place).flatMap Wake.threads) :
      Multiset (Thread P)) = ↑(x.ready.flatMap Wake.threads) :=
    Multiset.coe_eq_coe.mpr (perm.flatMap_right Wake.threads)
  have hooks : (↑(x.ready[place].hooks ++ (x.ready.eraseIdx place).flatMap Wake.hooks) :
      Multiset Hook) = ↑(x.ready.flatMap Wake.hooks) :=
    Multiset.coe_eq_coe.mpr (perm.flatMap_right Wake.hooks)
  rw [← Multiset.coe_add] at threads hooks
  simp only [resume, List.getElem?_eq_getElem lt, scene, Exchange.threads, quiet, parked,
    List.flatMap_cons, List.flatMap_nil, List.append_nil, Work.threads, Work.hooks, threads, hooks,
    half, Multiset.coe_nil, Multiset.zero_add]
  rfl

theorem afterGate_wake (name : String) (o : Outcome) (w : Wake P) :
    w.threads.map (·.move (.afterGate name o)) = w.threads := by
  cases w with
  | sent h terminal taken t => cases terminal <;> rfl
  | received | returned | late => rfl

theorem afterGate_work (name : String) (o : Outcome) (w : Work P) :
    w.threads.map (·.move (.afterGate name o)) = w.threads := by
  fun_induction Work.threads w with
  | case1 w => exact afterGate_wake name o w
  | case3 h next =>
      rw [List.map_map]
      rfl
  | case8 _ _ _ _ _ next ih => exact ih
  | case2 | case4 | case5 | case6 | case7 | case9 => rfl

theorem afterGate_parked (name : String) (o : Outcome) (x : Exchange P) :
    x.parked.map (·.move (.afterGate name o)) = x.parked := by
  refine (List.map_congr_left fun th mem => ?_).trans (List.map_id _)
  obtain ⟨_, mem, inside⟩ := List.mem_flatten.mp mem
  obtain ⟨i, lt, rfl⟩ := List.mem_mapIdx.mp mem
  obtain ⟨side, there⟩ := Stream.parkedAt inside
  obtain ⟨stage, frames, owner⟩ := th
  cases stage <;> first | rfl | exact there.elim

theorem afterGate_waiting (name : String) (o : Outcome) (waiting : List (List String × Task P)) :
    (↑((waiting.map fun entry => entry.2.thread (.waiting entry.1)).map
      (·.move (.afterGate name o))) : Multiset (Thread P)) =
    ↑(((waiting.map (afterGate name o)).filterMap Sum.getRight?).flatMap Wake.threads) +
      ↑(((waiting.map (afterGate name o)).filterMap Sum.getLeft?).map
        fun entry => entry.2.thread (.waiting entry.1)) := by
  induction waiting with
  | nil => rfl
  | cons entry waiting ih =>
      rw [List.map_cons, List.map_cons, ← Multiset.cons_coe, ih, Task.move_thread]
      rcases afterGate_cases name o entry with ⟨names, waits, stage⟩ | ⟨o, goes, stage⟩
      · rw [stage, List.map_cons, waits]
        exact (Multiset.add_cons _ _ _).symm
      · rw [stage, List.map_cons, goes]
        exact (Multiset.cons_add _ _ _).symm

theorem hooks_afterGate (name : String) (o : Outcome) (waiting : List (List String × Task P)) :
    ((waiting.map (afterGate name o)).filterMap Sum.getRight?).flatMap Wake.hooks = [] := by
  induction waiting with
  | nil => rfl
  | cons entry waiting ih =>
      rcases afterGate_cases name o entry with ⟨names, waits, -⟩ | ⟨o, goes, -⟩
      · rw [List.map_cons, waits]
        exact ih
      · rw [List.map_cons, goes]
        exact ih

theorem settleGate_of_fresh {name : String} (fresh : x.gates.outcome? name = none) (o : Outcome) :
    x.settleGate name o = { x with
      gates := ⟨(name, o) :: x.gates.settled,
        (x.gates.waiting.map (afterGate name o)).filterMap Sum.getLeft?⟩
      ready := x.ready ++ (x.gates.waiting.map (afterGate name o)).filterMap Sum.getRight? } := by
  rw [settleGate, fresh, if_neg (by simp)]
  refine congrArg₂ (fun waiting woken => { x with
    gates := ⟨(name, o) :: x.gates.settled, waiting⟩
    ready := x.ready ++ woken }) ?_ ?_
  · refine List.filterMap_congr fun entry _ => ?_
    cases entry <;> rfl
  · refine List.filterMap_congr fun entry _ => ?_
    cases entry <;> rfl

theorem scene_settleGate (name : String) (o : Outcome) (x : Exchange P) (ts) :
    Scene.Steps (x.scene ts) ((x.settleGate name o).scene ts) := by
  cases fresh : x.gates.outcome? name with
  | some =>
      rw [settleGate, fresh]
      exact .refl
  | none =>
      refine .trans (.single (.gate (o := o) fresh)) (Scene.Steps.of_eq ?_)
      have outcomes (waiting : List (List String × Task P)) :
          Gates.outcome? ⟨(name, o) :: x.gates.settled, waiting⟩ =
          Function.update x.gates.outcome? name (some o) := by
        funext other
        by_cases same : other = name
        · subst same
          simp [Gates.outcome?]
        · simp [Gates.outcome?, Function.update_of_ne same, Ne.symm same]
      have agenda : (x.agenda.flatMap Work.threads).map (·.move (.afterGate name o)) =
          x.agenda.flatMap Work.threads := by
        rw [List.map_flatMap]
        exact List.flatMap_congr fun w _ => afterGate_work name o w
      have ready : (x.ready.flatMap Wake.threads).map (·.move (.afterGate name o)) =
          x.ready.flatMap Wake.threads := by
        rw [List.map_flatMap]
        exact List.flatMap_congr fun w _ => afterGate_wake name o w
      rw [settleGate_of_fresh fresh]
      simp only [scene, outcomes, Exchange.threads, List.flatMap_append, hooks_afterGate,
        half, parked, List.append_nil, Multiset.map_add, Multiset.map_coe, agenda, ready,
        afterGate_waiting, ← Multiset.coe_add]
      congr 1
      rw [← parked, afterGate_parked]
      abel

theorem parked_openStream (kind : StreamKind) (x : Exchange P) :
    (x.openStream (.fresh P kind)).parked = x.parked := by
  simp only [parked, openStream, List.mapIdx_append, List.flatten_append, List.mapIdx_cons,
    List.mapIdx_nil]
  cases kind <;> simp [Stream.threads, Stream.fresh, Half.threads, Half.fresh, Half.shut,
    Channel.senders, Channel.receivers, Channel.idle]

theorem scene_enlist (n : Nat) (kind : StreamKind) (countdowns) (x : Exchange P) (ts) :
    (x.enlist n kind countdowns).scene ts =
      { x.scene ts with
        kinds := (x.scene ts).kinds ++ [kind]
        closed := fun h =>
          if h.stream = x.nextStream then ((Stream.fresh P kind).half h.side).closed
          else (x.scene ts).closed h
        active := x.active ++ [x.nextStream]
        countdowns
        hooks := fun h => if h.stream = x.nextStream then [] else (x.scene ts).hooks h
        events := .opened n x.nextStream :: (x.scene ts).events } := by
  have half (h : HalfId) : (x.enlist n kind countdowns).half h =
      if h.stream = x.nextStream then (Stream.fresh P kind).half h.side else x.half h := by
    split
    next new => exact half_openStream_new new _
    next old => exact half_openStream_of_ne old _
  have threads : (x.enlist n kind countdowns).threads = x.threads := by
    have parked := parked_openStream kind x
    simp only [Exchange.threads]
    rw [← parked]
    rfl
  simp only [scene, half, threads]
  congr 1
  · cases kind <;> simp [enlist, record, openStream, Stream.fresh]
  · funext h
    split <;> rfl
  · funext h
    split
    · cases kind <;> cases h.side <;> rfl
    · rfl

theorem scene_attach {x : Exchange P} {h : HalfId} (isOpen : (x.half h).closed = false)
    (hook : Hook) (ts) :
    (x.attach h hook).scene ts =
      { x.scene ts with
        hooks := Function.update (x.scene ts).hooks h ((x.scene ts).hooks h ++ [hook]) } := by
  obtain ⟨rest, before, -, after⟩ := scene_modifyHalf (has_of_open isOpen) ts
  have hooks : (x.scene ts).hooks h = (x.half h).hooks := by simp [scene, isOpen]
  have closed : Function.update (x.scene ts).closed h (x.half h).closed = (x.scene ts).closed :=
    Function.update_eq_self h _
  simp only [attach, isOpen, Bool.false_eq_true, if_false]
  rw [after, hooks]
  simp only [isOpen] at closed ⊢
  rw [closed]
  simp only [Bool.false_eq_true, if_false]
  congr 1
  exact before.symm

theorem scene_openCall (n : Nat) (kind : StreamKind) (x : Exchange P) (ts) :
    (x.openCall n kind).scene ts = (x.scene ts).openStream n kind := by
  have next : (x.scene ts).kinds.length = x.nextStream := List.length_map _
  cases kind with
  | download =>
      rw [openCall_download, scene_attach (closed_enlist n .download _ .responses), scene_enlist]
      simp only [Scene.openStream, next]
      congr 1
      funext h
      obtain ⟨i, side⟩ := h
      by_cases same : i = x.nextStream
      · cases side <;> simp [same]
      · simp [same]
  | upload =>
      rw [openCall_upload, scene_attach, scene_attach (closed_enlist n .upload _ .requests),
        scene_enlist]
      · simp only [Scene.openStream, next]
        congr 1
        funext h
        obtain ⟨i, side⟩ := h
        by_cases same : i = x.nextStream
        · cases side <;> simp [same, Function.update] <;> rfl
        · simp [same]
      · rw [half_attach_of_ne (by simp)]
        exact closed_enlist n .upload _ .responses

theorem length_kinds_scene (x : Exchange P) (ts) : (x.scene ts).kinds.length = x.nextStream :=
  List.length_map _

theorem add_pair (s : Scene P) (a b : Thread P) :
    s.add [a, b] = { s with threads := a ::ₘ b ::ₘ s.threads } := by
  simp only [Scene.add, ← Multiset.cons_coe, Multiset.cons_add, Multiset.coe_nil, zero_add]

theorem scene_keep (name : String) (i : StreamId) (x : Exchange P) (ts) :
    (x.keep name i).scene ts = { x.scene ts with clients := (name, i) :: (x.scene ts).clients } :=
  rfl

def numbered (c : PluginCall) (x : Exchange P) : Exchange P :=
  { x with calls := x.calls + 1 }.record (.called x.calls (.plugin c))

theorem call_steps (c : PluginCall) (opens : Scene.opens? c = none) (ts) :
    Scene.Steps (x.scene ts) (((x.numbered c).scene ts).add [(x.scene ts).firstThread c]) := by
  refine .trans (.single (.call opens)) (Scene.Steps.of_eq ?_)
  have added : ((x.numbered c).scene ts).add [(x.scene ts).firstThread c] =
      { (x.numbered c).scene ts with
        threads := (x.scene ts).firstThread c ::ₘ (x.scene ts).threads } := by
    simp only [Scene.add, Multiset.coe_singleton, Multiset.singleton_add]
    rfl
  rw [added]
  cases c with
  | read | write | openDownload | openUpload => cases opens
  | method | readKept | holds | keys => rfl

theorem opening_steps (c : PluginCall) {kind : StreamKind} {invocation : Invocation}
    (opens : Scene.opens? c = some (kind, invocation)) (ts) {y : Exchange P} {w : Work P}
    (same : y.scene ts =
      { (x.scene ts).begin c with threads := (x.scene ts).threads }.openStream x.calls kind)
    (calm : w.hooks = []) (first : w.threads = [(x.scene ts).firstThread c]) :
    Scene.Steps (x.scene ts) (((y.push w).push (.serve x.nextStream invocation)).scene ts) := by
  refine .trans (.single (.opening opens)) (Scene.Steps.of_eq ?_)
  have service : (Work.serve x.nextStream invocation).threads =
      [(x.scene ts).firstService invocation] := by
    rw [Scene.firstService, length_kinds_scene]
    rfl
  rw [scene_push_calm rfl, scene_push_calm calm, Scene.add_add, service, first, same]
  refine .trans ?_ (add_pair _ _ _).symm
  rfl

theorem scene_startPlugin (guarded : ∀ h, (x.half h).Guarded) (c : PluginCall) (ts) :
    Scene.Steps (x.scene ts) (((x.numbered c).startPlugin x.calls c).scene ts) := by
  cases c with
  | read bucket key =>
      refine opening_steps (.read bucket key) rfl ts (scene_openCall _ _ (x.numbered _) ts) rfl ?_
      rw [Scene.firstThread, length_kinds_scene]
      rfl
  | write bucket key source =>
      refine opening_steps (.write bucket key source) rfl ts
        (scene_openCall _ _ (x.numbered _).nextSource ts) rfl ?_
      rw [Scene.firstThread, length_kinds_scene]
      rfl
  | openDownload name bucket key =>
      refine opening_steps (.openDownload name bucket key) rfl ts ?_ rfl rfl
      rw [scene_keep, scene_openCall, Scene.begin, length_kinds_scene]
      rfl
  | openUpload name =>
      refine opening_steps (.openUpload name) rfl ts ?_ rfl rfl
      rw [scene_keep, scene_openCall, Scene.begin, length_kinds_scene]
      rfl
  | method name m =>
      refine .trans (call_steps (.method name m) rfl ts) ?_
      have kept : (x.scene ts).keptClient? name = (x.numbered (.method name m)).keptClient? name :=
        rfl
      simp only [startPlugin, Scene.firstThread, kept]
      cases (x.numbered (.method name m)).keptClient? name with
      | none => exact settle_steps _ _ _ ts
      | some i =>
          simp only [kindOf_scene]
          refine .trans (Scene.Solo.steps (s := (x.numbered (.method name m)).scene ts) .enter) ?_
          rw [kindOf_scene]
          have begun : ∀ h, ((x.numbered (.method name m)).half h).Guarded := guarded
          exact scene_enterEntry begun i _ ⟨[], _⟩ ts
  | readKept name =>
      refine .trans (call_steps (.readKept name) rfl ts) ?_
      have kept : (x.scene ts).keptClient? name = (x.numbered (.readKept name)).keptClient? name :=
        rfl
      simp only [startPlugin, Scene.firstThread, kept]
      cases (x.numbered (.readKept name)).keptClient? name with
      | none => exact settle_steps _ _ _ ts
      | some i =>
          simp only []
          rw [scene_push_calm rfl]
          exact .refl
  | holds bucket key =>
      exact (call_steps (.holds bucket key) rfl ts).trans (settle_steps _ _ _ ts)
  | keys bucket => exact (call_steps (.keys bucket) rfl ts).trans (settle_steps _ _ _ ts)

theorem handlerTurn?_of_quiet (quiet : x.agenda = []) : x.handlerTurn? = none := by
  simp [handlerTurn?, quiet]

/-- Every step of an exchange that a host uses is some steps of its scene. -/
theorem Move.steps (move : Move Command.Hosted x y) (calm : x.Calm) (ts) :
    Scene.Steps (x.scene ts) (y.scene (x.handlerTurn?.toList ++ ts)) := by
  cases move with
  | @work w rest agenda =>
      obtain ⟨idle, first⟩ := calm.next agenda
      have taken : Exchange.push w { x with agenda := rest } = x := by
        rw [push, ← agenda]
      have worked := scene_work idle first ts
      rw [taken] at worked
      exact worked
  | resume quiet lt =>
      rw [handlerTurn?_of_quiet quiet, scene_resume quiet lt]
      exact .refl
  | @command c quiet hosted =>
      rw [handlerTurn?_of_quiet quiet]
      cases c with
      | settle name o => exact scene_settleGate name o x ts
      | call c =>
          cases c with
          | plugin c => exact scene_startPlugin (fun h => (calm.halves h).toGuarded) c ts
          | stream | emitter => exact hosted.elim

/-- The runs from an exchange, each with the turns of handlers in it, the latest first. -/
inductive History (allowed : Command → Prop) (x : Exchange P) :
    Exchange P → List (HandlerTurn P) → Prop where
  | refl : History allowed x x []
  | step {y z : Exchange P} {turns} : History allowed x y turns → Move allowed y z →
    History allowed x z (y.handlerTurn?.toList ++ turns)

theorem History.run {allowed : Command → Prop} {turns} (history : History allowed x y turns) :
    Run allowed x y := by
  induction history with
  | refl => exact .refl
  | step _ move ih => exact ih.step move

theorem Run.history {allowed : Command → Prop} (run : Run allowed x y) :
    ∃ turns, History allowed x y turns := by
  induction run with
  | refl => exact ⟨_, .refl⟩
  | step _ move ih =>
      obtain ⟨turns, history⟩ := ih
      exact ⟨_, history.step move⟩

theorem History.trans {allowed : Command → Prop} {z : Exchange P} {turns turns'}
    (first : History allowed x y turns) (second : History allowed y z turns') :
    History allowed x z (turns' ++ turns) := by
  induction second with
  | refl => exact first
  | step _ move ih =>
      rw [List.append_assoc]
      exact ih.step move

theorem History.steps {turns} (history : History Command.Hosted x y turns) (calm : x.Calm) (ts) :
    Scene.Steps (x.scene ts) (y.scene (turns ++ ts)) := by
  induction history with
  | refl => exact .refl
  | step history move ih =>
      rw [List.append_assoc]
      exact ih.trans (move.steps (history.run.calm calm) _)

/-- The scenes of what a host and its plugin come to can be reached. -/
theorem History.reachable {turns} (history : History Command.Hosted (empty P) y turns) :
    (y.scene turns).Reachable := by
  have steps := history.steps calm_empty []
  rwa [List.append_nil] at steps

/-- The turns of handlers in so many steps, the latest first. -/
def turnsOver : Nat → Exchange P → List (HandlerTurn P)
  | 0, _ => []
  | steps + 1, x =>
    match x.advance? with
    | none => []
    | some y => turnsOver steps y ++ x.handlerTurn?.toList

theorem history_advance {allowed : Command → Prop} (steps : Nat) (x : Exchange P) :
    History allowed x (x.advance steps) (x.turnsOver steps) := by
  induction steps generalizing x with
  | zero => exact .refl
  | succ steps ih =>
      cases advanced : x.advance? with
      | none =>
        rw [advance, turnsOver, advanced]
        exact .refl
      | some y =>
        rw [advance, turnsOver, advanced]
        have move : Move allowed x y := move_of_advance? advanced
        have first : History allowed x y (x.handlerTurn?.toList ++ []) := History.refl.step move
        rw [List.append_nil] at first
        exact first.trans (ih y)

theorem mem_events {e : Event} (shown : e.isLogged = false) (ts) :
    e ∈ (x.scene ts).events ↔ e ∈ x.journal := by
  simp [scene, shown]

end Exchange

end ObjectTransfer
