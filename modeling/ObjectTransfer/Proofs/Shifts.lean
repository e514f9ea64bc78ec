import ObjectTransfer.Proofs.Agendas

/-! # Steps when anything may be called

A listener may make calls while a half closes, and an emission settles the call that began it. So a
step of an exchange that is used in any way is some shifts of its scene (`Exchange.Move.shifts`):
steps, changes of what listens to closures, calls that begin, and tasks of emissions that join. As
long as no work is left for some calls, no task of theirs joins (`Exchange.Move.stirs`).
-/

namespace ObjectTransfer

variable {P : Plugin}

/-- Whether a thread comes from an emission: the log is to learn its outcome, or a call on an
emitter, and it waits for nothing but gates. -/
structure Thread.Joins (events : List Event) (th : Thread P) : Prop where
  owner : (∃ label, th.owner = .notice label) ∨
    ∃ n, Event.Emitted events n ∧ (th.owner = .call n ∨ th.owner = .plain n)
  frames : ∀ f ∈ th.frames, ∃ gate, f = .following gate

/-- Whether a thread comes from an emission, and from that of such a call if it is a call's. -/
structure Thread.JoinsAs (joining : Nat → Prop) (events : List Event) (th : Thread P) : Prop where
  joins : th.Joins events
  only : ∀ n, th.owner = .call n ∨ th.owner = .plain n → joining n

def Call.sources : Call → Nat
  | stream _ (.write _ _ _) => 1
  | _ => 0

namespace Scene

/-- Scenes that differ in what listens to closures, and in the listeners that were called. -/
structure Aside (s s' : Scene P) : Prop where
  rest : s' = { s with
    active := s'.active, countdowns := s'.countdowns, hooks := s'.hooks, pending := s'.pending
    events := s'.events }
  events : ∃ es, s'.events = es ++ s.events ∧ ∀ e ∈ es, ∃ tag v, e = .heard tag v

/-- The threads with which a call on a stream or on an emitter begins. -/
inductive Begins (s : Scene P) : Call → List (Thread P) → Prop where
  | method {i role m} :
    Begins s (.stream i (.method role m))
      [⟨(m.entry (s.kindOf i) role).stage s.closed i, [],
        if (m.entry (s.kindOf i) role).isPlain then .plain s.calls else .call s.calls⟩]
  | close {i side} :
    Begins s (.stream i (.close side))
      [⟨.closing ⟨i, side⟩ (.bound (.ok .undefined)), [], .plain s.calls⟩]
  | whenClosed {i l} :
    Begins s (.stream i (.whenClosed l)) [⟨.bound (.ok .undefined), [], .plain s.calls⟩]
  | identified {i} :
    Begins s (.stream i .identified) [⟨.bound (.ok (.bool true)), [], .plain s.calls⟩]
  | read {i} :
    Begins s (.stream i .read)
      [⟨.entering i .client .receive, [.reading i .start], .call s.calls⟩]
  | write {i bucket key source} :
    Begins s (.stream i (.write bucket key source))
      [⟨.bound (.ok .undefined), [.writing i (s.sources + 1) (.start bucket key source)],
        .call s.calls⟩]
  | answered {event c v} :
    Begins s (.emitter event c) [⟨.bound (.ok v), [], .plain s.calls⟩]
  | emission {event c} : Begins s (.emitter event c) []

inductive Shift : Scene P → Scene P → Prop where
  | step {s s'} : Step s s' → Shift s s'
  | aside {s s'} : s.Aside s' → Shift s s'
  /-- A call on a stream or on an emitter begins. -/
  | call {s : Scene P} {c ths} : s.Begins c ths →
    Shift s { s with
      threads := ↑ths + s.threads
      calls := s.calls + 1
      sources := s.sources + c.sources
      events := .called s.calls c :: s.events }
  /-- An emission comes to its end. -/
  | join {s : Scene P} {th} : th.Joins s.events → Shift s (s.add [th])

abbrev Shifts : Scene P → Scene P → Prop := Relation.ReflTransGen Shift

/-- A shift where only threads of such calls join. -/
inductive Stir (joining : Nat → Prop) : Scene P → Scene P → Prop where
  | step {s s'} : Step s s' → Stir joining s s'
  | aside {s s'} : s.Aside s' → Stir joining s s'
  | call {s : Scene P} {c ths} : s.Begins c ths →
    Stir joining s { s with
      threads := ↑ths + s.threads
      calls := s.calls + 1
      sources := s.sources + c.sources
      events := .called s.calls c :: s.events }
  | join {s : Scene P} {th} : th.JoinsAs joining s.events → Stir joining s (s.add [th])

abbrev Stirs (joining : Nat → Prop) : Scene P → Scene P → Prop :=
  Relation.ReflTransGen (Stir joining)

variable {s s' s'' : Scene P} {joining : Nat → Prop}

theorem Stir.shift (stir : Stir joining s s') : Shift s s' := by
  cases stir with
  | step step => exact .step step
  | aside aside => exact .aside aside
  | call begins => exact .call begins
  | join joins => exact .join joins.joins

theorem Stirs.shifts (stirs : Stirs joining s s') : Shifts s s' :=
  Relation.ReflTransGen.mono (fun _ _ stir => stir.shift) _ _ stirs

namespace Aside

theorem refl (s : Scene P) : s.Aside s := ⟨rfl, [], rfl, List.forall_mem_nil _⟩

theorem trans (first : s.Aside s') (second : s'.Aside s'') : s.Aside s'' := by
  obtain ⟨es, events, heard⟩ := first.events
  obtain ⟨es', events', heard'⟩ := second.events
  refine ⟨?_, es' ++ es, ?_, fun e mem => ?_⟩
  · rw [second.rest, first.rest]
  · rw [events', events, List.append_assoc]
  · exact (List.mem_append.mp mem).elim (heard' e) (heard e)

theorem add (aside : s.Aside s') (ths : List (Thread P)) : (s.add ths).Aside (s'.add ths) := by
  refine ⟨?_, aside.events⟩
  rw [aside.rest]
  rfl

theorem await (s : Scene P) (hooks : List Hook) : s.Aside (s.await hooks) :=
  ⟨rfl, [], rfl, List.forall_mem_nil _⟩

theorem unawait (s : Scene P) (hooks : List Hook) : (s.await hooks).Aside s :=
  ⟨rfl, [], rfl, List.forall_mem_nil _⟩

theorem stirs (aside : s.Aside s') : Stirs joining s s' := .single (.aside aside)

end Aside

theorem Steps.stirs (steps : Steps s s') : Stirs joining s s' :=
  Relation.ReflTransGen.mono (fun _ _ step => Stir.step step) _ _ steps

theorem Stirs.of_eq (eq : s = s') : Stirs joining s s' := eq ▸ .refl

end Scene

namespace Exchange

variable {x y : Exchange P} {h : HalfId} {joining : Nat → Prop}

open Scene

/-! ## Listeners -/

theorem aside_attach (h : HalfId) (hook : Hook) (x : Exchange P) (ts) :
    (x.scene ts).Aside ((x.attach h hook).scene ts) := by
  by_cases isClosed : (x.half h).closed = true
  · rw [attach, if_pos isClosed, scene_wake]
    exact .await _ _
  · rw [scene_attach (by simpa using isClosed)]
    exact ⟨rfl, [], rfl, List.forall_mem_nil _⟩

theorem aside_whenClosed (i : StreamId) (l : Listener) (x : Exchange P) (ts) :
    (x.scene ts).Aside ((x.whenClosed i l).scene ts) := by
  simp only [whenClosed]
  split
  · exact aside_attach _ _ x ts
  · have counted : (x.scene ts).Aside
        (({ x with countdowns := x.countdowns ++ [(2, l)] } : Exchange P).scene ts) :=
      ⟨rfl, [], rfl, List.forall_mem_nil _⟩
    exact (counted.trans (aside_attach _ _ _ ts)).trans (aside_attach _ _ _ ts)

theorem aside_startHook (hook : Hook) (argument : Value) (x : Exchange P) (ts) :
    (x.scene ts).Aside ((x.startHook hook argument).1.scene ts) := by
  have listener (l : Listener) (argument : Value) (y : Exchange P) :
      (y.scene ts).Aside ((y.startListener l argument).1.scene ts) := by
    cases l with
    | script tag actions =>
        rw [startListener, scene_record rfl]
        exact ⟨rfl, [.heard tag argument], rfl, List.forall_mem_singleton.mpr ⟨_, _, rfl⟩⟩
    | forget => exact ⟨rfl, [], rfl, List.forall_mem_nil _⟩
  cases hook with
  | direct l => exact listener l argument x
  | half n =>
      simp only [startHook]
      split
      · exact .refl _
      next stillOpen l _ =>
        have counted : (x.scene ts).Aside (({ x with
            countdowns := x.countdowns.set n (stillOpen - 1, l) } : Exchange P).scene ts) :=
          ⟨rfl, [], rfl, List.forall_mem_nil _⟩
        split
        · exact counted.trans (listener _ _ _)
        · exact counted

theorem scene_push_emit {e : Emission (Work P)} {emits : Nat → Prop} (sober : e.purpose.Sober emits)
    (x : Exchange P) (ts) : (x.push (.emit e)).scene ts = (x.scene ts).await e.rest := by
  have threads : (Work.emit e).threads = [] := by
    obtain ⟨current, replies, rest, argument, purpose⟩ := e
    cases purpose with
    | closing => exact sober.elim
    | _ => rfl
  rw [scene_push, threads, Scene.add_nil]
  rfl

theorem aside_push_emit {e : Emission (Work P)} {emits : Nat → Prop}
    (sober : e.purpose.Sober emits) (x : Exchange P) (ts) :
    (x.scene ts).Aside ((x.push (.emit e)).scene ts) := by
  rw [scene_push_emit sober]
  exact .await _ _

theorem emitted_scene {n : Nat} (emitted : Event.Emitted x.journal n) (ts) :
    Event.Emitted (x.scene ts).events n := by
  obtain ⟨event, c, mem⟩ := emitted
  exact ⟨event, c, (mem_events rfl ts).mpr mem⟩

theorem joinsAs_notice {events : List Event} {st : Stage} {frames : List (Frame P)} {label : String}
    (follows : ∀ f ∈ frames, ∃ gate, f = .following gate) :
    (⟨st, frames, .notice label⟩ : Thread P).JoinsAs joining events :=
  ⟨⟨.inl ⟨label, rfl⟩, follows⟩, fun _ owner => by rcases owner with ⟨⟨⟩⟩ | ⟨⟨⟩⟩⟩

theorem joinsAs_call {n : Nat} (emitted : Event.Emitted x.journal n ∧ joining n) (st : Stage) (ts) :
    (⟨st, [], .call n⟩ : Thread P).JoinsAs joining (x.scene ts).events := by
  refine ⟨⟨.inr ⟨n, emitted_scene emitted.1 ts, .inl rfl⟩, List.forall_mem_nil _⟩,
    fun m owner => ?_⟩
  rcases owner with ⟨⟨⟩⟩ | ⟨⟨⟩⟩
  exact emitted.2

theorem joinsAs_plain {n : Nat} (emitted : Event.Emitted x.journal n ∧ joining n)
    (st : Stage) (ts) : (⟨st, [], .plain n⟩ : Thread P).JoinsAs joining (x.scene ts).events := by
  refine ⟨⟨.inr ⟨n, emitted_scene emitted.1 ts, .inr rfl⟩, List.forall_mem_nil _⟩,
    fun m owner => ?_⟩
  rcases owner with ⟨⟨⟩⟩ | ⟨⟨⟩⟩
  exact emitted.2

theorem stirs_wake {o : Outcome} {t : Task P} {ts}
    (joins : (t.thread (.bound o)).JoinsAs joining (x.scene ts).events) :
    Stirs joining (x.scene ts) ((x.wake (.returned o t)).scene ts) := by
  rw [scene_wake]
  exact .single (.join joins)

theorem stirs_awaitReplies {t : Task P} {ts}
    (joins : ∀ st, (t.thread st).JoinsAs joining (x.scene ts).events) (replies : List Reply) :
    Stirs joining (x.scene ts) ((x.awaitReplies replies t).scene ts) := by
  simp only [awaitReplies]
  split
  · exact stirs_wake (joins _)
  · rw [scene_awaitGates]
    exact .single (.join (joins _))

theorem stirs_settle {o : Outcome} {w : Owner} {ts}
    (joins : (⟨.bound o, [], w⟩ : Thread P).JoinsAs joining (x.scene ts).events) :
    Stirs joining (x.scene ts) ((x.settle w o).scene ts) := by
  have settled := Scene.Solo.steps (s := x.scene ts) (.settle (o := o) (w := w))
  rw [Scene.add_nil] at settled
  rw [scene_settle]
  exact .head (.join joins) settled.stirs

theorem joins_witness (label : String) {events : List Event} (st : Stage) :
    ((witness label : Task P).thread st).JoinsAs joining events :=
  joinsAs_notice (List.forall_mem_nil _)

theorem stirs_completed {e : Emission (Work P)}
    (sober : e.purpose.Sober fun n => Event.Emitted x.journal n ∧ joining n) (ts) :
    Stirs joining (x.scene ts) ((x.completed e).scene ts) := by
  simp only [completed]
  cases purpose : e.purpose with
  | closure label => exact stirs_awaitReplies (joins_witness label) _
  | lateClosure label =>
      simp only [lateWitness]
      split
      next gate _ => exact stirs_wake (joinsAs_notice (List.forall_mem_singleton.mpr ⟨gate, rfl⟩))
      · exact stirs_awaitReplies (joins_witness label) _
  | awaited n =>
      rw [purpose] at sober
      exact stirs_awaitReplies (fun st => joinsAs_call sober st ts) _
  | plainLasting n event =>
      rw [purpose] at sober
      have next : (Purpose.plainLast n : Purpose (Work P)).Sober fun n =>
          Event.Emitted x.journal n ∧ joining n :=
        sober
      exact (aside_push_emit (e := ⟨none, [], _, e.argument, .plainLast n⟩) next
        { x with emitter := x.emitter.clearOnce event } ts).stirs
  | plainLast n =>
      rw [purpose] at sober
      exact stirs_settle (joinsAs_plain sober _ ts)
  | closing =>
      rw [purpose] at sober
      exact sober.elim

theorem stirs_broken {e : Emission (Work P)}
    (sober : e.purpose.Sober fun n => Event.Emitted x.journal n ∧ joining n) (v : Value) (ts) :
    Stirs joining (x.scene ts) ((x.broken e v).scene ts) := by
  simp only [broken]
  cases purpose : e.purpose with
  | closure label | lateClosure label => exact stirs_wake (joinsAs_notice (List.forall_mem_nil _))
  | awaited n =>
      rw [purpose] at sober
      exact stirs_wake (joinsAs_call sober _ ts)
  | plainLasting n | plainLast n =>
      rw [purpose] at sober
      exact stirs_settle (joinsAs_plain sober _ ts)
  | closing =>
      rw [purpose] at sober
      exact sober.elim

/-! ## Calls -/

def took (c : Call) (sources : Nat) (x : Exchange P) : Exchange P :=
  { x with calls := x.calls + 1, sources }.record (.called x.calls c)

theorem stirs_took (c : Call) {ths : List (Thread P)} {ts} (begins : (x.scene ts).Begins c ths)
    (after : Stirs joining (((x.took c (x.sources + c.sources)).scene ts).add ths) (y.scene ts)) :
    Stirs joining (x.scene ts) (y.scene ts) := by
  have first : Stir joining (x.scene ts) (((x.took c (x.sources + c.sources)).scene ts).add ths) :=
    .call begins
  exact .head first after

theorem stirs_answered {c : Call} (none : c.sources = 0) {v : Value} {ts}
    (begins : (x.scene ts).Begins c [⟨.bound (.ok v), [], .plain x.calls⟩])
    (aside : ((x.took c x.sources).scene ts).Aside (y.scene ts)) :
    Stirs joining (x.scene ts) ((y.answer x.calls v).scene ts) := by
  have settled := Scene.Solo.steps (s := y.scene ts) (.settle (o := .ok v) (w := .plain x.calls))
  rw [Scene.add_nil] at settled
  refine stirs_took c begins ?_
  rw [none, Nat.add_zero]
  refine .head (.aside (aside.add [_])) ?_
  rw [answer, scene_settle]
  exact settled.stirs

theorem stirs_startStream (guarded : ∀ h, (x.half h).Guarded) (i : StreamId) (c : StreamCall) (ts) :
    Stirs joining (x.scene ts)
      (((x.took (.stream i c) x.sources).startStream x.calls i c).scene ts) := by
  cases c with
  | method role m =>
      have begun : ∀ h, ((x.took (.stream i (.method role m)) x.sources).half h).Guarded := guarded
      refine stirs_took (.stream i (.method role m)) .method (Steps.stirs ?_)
      rw [kindOf_scene]
      exact scene_enterEntry begun i _ ⟨[], _⟩ ts
  | close side =>
      refine stirs_took (.stream i (.close side)) .close (Stirs.of_eq ?_)
      rw [startStream, scene_push_calm rfl]
      rfl
  | whenClosed l => exact stirs_answered rfl .whenClosed (aside_whenClosed i l _ ts)
  | identified => exact stirs_answered rfl .identified (.refl _)
  | read =>
      refine stirs_took (.stream i .read) .read (Stirs.of_eq ?_)
      rw [startStream, scene_push_calm rfl]
      rfl
  | write bucket key source =>
      refine stirs_took (.stream i (.write bucket key source)) .write (Stirs.of_eq ?_)
      rw [startStream, scene_push_calm rfl]
      rfl

theorem stirs_startEmitter (event : String) (c : EmitterCall) (x : Exchange P) (ts) :
    Stirs joining (x.scene ts)
      (((x.took (.emitter event c) x.sources).startEmitter x.calls event c).scene ts) := by
  have registered {emitter} : ((x.took (.emitter event c) x.sources).scene ts).Aside
      (({ x.took (.emitter event c) x.sources with emitter }).scene ts) :=
        ⟨rfl, [], rfl, List.forall_mem_nil _⟩
  have emitted : Event.Emitted (x.took (.emitter event c) x.sources).journal x.calls :=
    ⟨event, c, List.mem_cons_self⟩
  have emission {e : Emission (Work P)}
      (sober : e.purpose.Sober (Event.Emitted (x.took (.emitter event c) x.sources).journal)) :
      Stirs joining (x.scene ts)
      (((x.took (.emitter event c) x.sources).push (.emit e)).scene ts) := by
    refine stirs_took (.emitter event c) .emission ?_
    rw [Scene.add_nil]
    exact (aside_push_emit sober _ ts).stirs
  cases c with
  | subscribe | subscribeOnce | unsubscribe => exact stirs_answered rfl .answered registered
  | emit =>
      simp only [startEmitter]
      split
      · refine emission ?_
        split <;> exact emitted
      · exact stirs_answered rfl .answered (.refl _)
  | emitAndWait => exact emission emitted

theorem stirs_command (guarded : ∀ h, (x.half h).Guarded) (c : Command) (ts) :
    Stirs joining (x.scene ts) ((x.command c).scene ts) := by
  cases c with
  | settle name o => exact (scene_settleGate name o x ts).stirs
  | call c =>
      cases c with
      | stream i c => exact stirs_startStream guarded i c ts
      | plugin c => exact (scene_startPlugin guarded c ts).stirs
      | emitter event c => exact stirs_startEmitter event c x ts

/-! ## Steps -/

theorem stirs_emission (guarded : ∀ h, (x.half h).Guarded) {e : Emission (Work P)}
    (sober : e.purpose.Sober fun n => Event.Emitted x.journal n ∧ joining n) (ts) :
    Stirs joining (x.scene ts) ((x.emission e).scene ts) := by
  have goesOn (current replies rest) (y : Exchange P) : (y.scene ts).Aside
      ((y.push (.emit ⟨current, replies, rest, e.argument, e.purpose⟩)).scene ts) :=
    aside_push_emit (e := ⟨current, replies, rest, e.argument, e.purpose⟩) sober y ts
  unfold emission
  split
  · exact stirs_broken sober _ ts
  · exact (goesOn _ _ _ x).stirs
  · exact (goesOn _ _ _ x).stirs
  next c rest reply _ =>
    have begun : ∀ h, ((x.push (.emit { e with current := some (rest, reply) })).half h).Guarded :=
      guarded
    exact .head (.aside (goesOn _ _ _ x)) (stirs_command begun c ts)
  · exact (goesOn _ _ _ x).stirs
  · cases e.rest with
    | nil => exact stirs_completed sober ts
    | cons hook rest => exact ((aside_startHook hook e.argument x ts).trans (goesOn _ _ _ _)).stirs

/-- A piece of work is some shifts of the scene. -/
theorem stirs_work (guarded : ∀ h, (x.half h).Guarded) {w : Work P}
    (sober : w.Sober fun n => Event.Emitted x.journal n ∧ joining n) (ts) :
    Stirs joining ((x.push w).scene ts)
      ((x.work w).scene ((x.push w).handlerTurn?.toList ++ ts)) := by
  have task (single : w.Single) :
      Stirs joining ((x.push w).scene ts)
      ((x.work w).scene ((x.push w).handlerTurn?.toList ++ ts)) :=
    (scene_task guarded single ts).stirs
  cases w with
  | run w =>
      cases w with
      | late hook label turns =>
          refine Stirs.of_eq ?_
          cases turns with
          | zero =>
              have listeners : (Purpose.lateClosure label : Purpose (Work P)).Sober
                  (Event.Emitted x.journal) := trivial
              have called := scene_push_emit (e := ⟨none, [], [hook], .undefined, _⟩) listeners x ts
              rw [scene_push]
              exact (Scene.add_nil _).symm ▸ called.symm
          | succ turns =>
              rw [scene_push]
              exact (scene_wake (.late hook label turns) x ts).symm
      | sent | received | returned => exact task trivial
  | close => exact task sober.2
  | emit e =>
      refine .trans ?_ (stirs_emission guarded sober ts)
      rw [scene_push_emit sober]
      exact (Aside.unawait _ _).stirs
  | give | receive | enter | serve | deliver => exact task trivial

theorem Move.stirs {allowed : Command → Prop} (move : Move allowed x y)
    (guarded : ∀ h, (x.half h).Guarded)
    (sober : ∀ w rest, x.agenda = w :: rest →
      w.Sober fun n => Event.Emitted x.journal n ∧ joining n) (ts) :
    Stirs joining (x.scene ts) (y.scene (x.handlerTurn?.toList ++ ts)) := by
  cases move with
  | @work w rest agenda =>
      have taken : Exchange.push w { x with agenda := rest } = x := by
        rw [push, ← agenda]
      have worked := stirs_work (x := { x with agenda := rest }) guarded (sober w rest agenda) ts
      rw [taken] at worked
      exact worked
  | resume quiet lt =>
      rw [handlerTurn?_of_quiet quiet, scene_resume quiet lt]
      exact .refl
  | command quiet =>
      rw [handlerTurn?_of_quiet quiet]
      exact stirs_command guarded _ ts

theorem Move.shifts {allowed : Command → Prop} (move : Move allowed x y)
    (guarded : ∀ h, (x.half h).Guarded) (sober : x.Sober) (ts) :
    Shifts (x.scene ts) (y.scene (x.handlerTurn?.toList ++ ts)) := by
  have anyone (w rest) (agenda : x.agenda = w :: rest) : w.Sober fun n =>
      Event.Emitted x.journal n ∧ True :=
    (sober.work w (agenda ▸ List.mem_cons_self)).mono fun _ emitted => ⟨emitted, trivial⟩
  exact (move.stirs guarded anyone ts).shifts

/-! ## Runs -/

variable {kinds : List StreamKind}

theorem Run.guarded (run : Run (fun _ => True) (ofStreams P kinds) x) (h : HalfId) :
    (x.half h).Guarded :=
  ((run.sound (sound_ofStreams P kinds)).aligned h).guarded

/-- However the streams are used, what happens are shifts of the scene. -/
theorem Run.shifts (run : Run (fun _ => True) (ofStreams P kinds) x)
    (later : Run (fun _ => True) x y) (ts) : ∃ turns, Shifts (x.scene ts) (y.scene turns) := by
  induction later with
  | refl => exact ⟨ts, .refl⟩
  | step before move ih =>
      obtain ⟨turns, shifts⟩ := ih
      have reached := run.trans before
      exact ⟨_, shifts.trans (move.shifts reached.guarded reached.sober turns)⟩

end Exchange

end ObjectTransfer
