import ObjectTransfer.Exchange.Report
import ObjectTransfer.Proofs.Emissions
import ObjectTransfer.Proofs.GateWaits
import ObjectTransfer.Proofs.Registrations

/-! # What an awaited emission calls

An awaited emission is one piece of work that comes back until it ends, and whatever its listeners
began is done in between. What is heard in its own steps is told by `Exchange.Recounts`. As long as
it is under way (`Exchange.Underway`) it goes on with the listeners that it was given, and the call
that began it has neither a thread nor settled; all the other work concerns other calls
(`Exchange.Others`).
-/

namespace ObjectTransfer

variable {P : Plugin}

/-- The tag and the argument with which a listener was called. -/
def Event.hearing? : Event → Option (String × Value)
  | heard tag v => some (tag, v)
  | _ => none

def Listener.hearing? (v : Value) : Listener → Option (String × Value)
  | script tag _ => some (tag, v)
  | forget _ => none

/-- Whether a piece of work is the emission of an awaited call. -/
def Work.Conducts (n : Nat) : Work P → Prop
  | emit e => e.purpose = .awaited n
  | _ => False

namespace Exchange

variable {x y z : Exchange P} {n : Nat} {v : Value} {ls done : List Listener}

def Emits (x : Exchange P) (n : Nat) : Prop := ∃ w ∈ x.agenda, w.Conducts n

/-- Whether the next step is one of the emission of an awaited call. -/
def Conducts (x : Exchange P) (n : Nat) : Prop := ∃ w ∈ x.agenda.head?, w.Conducts n

/-- What was heard in the steps of the emission of an awaited call, in order, on the way to a state.
-/
inductive Recounts (n : Nat) (x : Exchange P) : List (String × Value) → Exchange P → Prop where
  | refl : Recounts n x [] x
  | own {heard : List (String × Value)} {y z : Exchange P} :
    Recounts n x heard y → y.Conducts n → Move (fun _ => True) y z →
    Recounts n x (heard ++ (z.eventsSince y).filterMap Event.hearing?) z
  | other {heard : List (String × Value)} {y z : Exchange P} :
    Recounts n x heard y → ¬ y.Conducts n → Move (fun _ => True) y z → Recounts n x heard z

theorem Recounts.run {heard : List (String × Value)} (recounts : Recounts n x heard y) :
    Run (fun _ => True) x y := by
  induction recounts with
  | refl => exact .refl
  | own _ _ move ih | other _ _ move ih => exact ih.step move

theorem Run.recounts (n : Nat) (run : Run (fun _ => True) x y) : ∃ heard, Recounts n x heard y := by
  induction run with
  | refl => exact ⟨[], .refl⟩
  | @step y z before move ih =>
      obtain ⟨heard, recounts⟩ := ih
      by_cases own : y.Conducts n
      · exact ⟨_, recounts.own own move⟩
      · exact ⟨heard, recounts.other own move⟩

theorem eventsSince_of_append {es : List Event} (journal : y.journal = es ++ x.journal) :
    y.eventsSince x = es.reverse := by
  rw [eventsSince, journal, List.length_append, Nat.add_sub_cancel_right, List.take_left]

/-! ## Commands -/

structure Mute (x y : Exchange P) : Prop where
  gates : y.gates.settled = x.gates.settled
  journal : ∃ es, y.journal = es ++ x.journal ∧ ∀ e ∈ es, e.hearing? = none

namespace Mute

theorem of_same (gates : y.gates.settled = x.gates.settled)
    (journal : y.journal = x.journal) : Mute x y :=
  ⟨gates, [], journal, List.forall_mem_nil _⟩

theorem trans (first : Mute x y) (second : Mute y z) : Mute x z where
  gates := second.gates.trans first.gates
  journal := by
    obtain ⟨es, journal, unheard⟩ := first.journal
    obtain ⟨es', journal', unheard'⟩ := second.journal
    refine ⟨es' ++ es, ?_, List.forall_mem_append.mpr ⟨unheard', unheard⟩⟩
    rw [journal', journal, List.append_assoc]

theorem unheard (mute : Mute x y) : (y.eventsSince x).filterMap Event.hearing? = [] := by
  obtain ⟨es, journal, unheard⟩ := mute.journal
  rw [eventsSince_of_append journal]
  exact List.filterMap_eq_nil_iff.mpr fun e mem => unheard e (List.mem_reverse.mp mem)

theorem push (w : Work P) (x : Exchange P) : Mute x (x.push w) := of_same rfl rfl

theorem discreet (discreet : Discreet x y) : Mute x y where
  gates := discreet.gates
  journal := by
    obtain ⟨es, journal, quiet⟩ := discreet.journal
    refine ⟨es, journal, fun e mem => ?_⟩
    cases e with
    | heard => exact (quiet _ mem).elim
    | _ => rfl

theorem lenient : Lenient (Mute (P := P)) where
  trans := trans
  discreet := discreet
  push := push
  attach h hook x := by
    simp only [Exchange.attach]
    split <;> exact of_same rfl rfl
  counts _ _ := of_same rfl rfl
  opens _ _ _ x := ⟨rfl, [_], rfl, List.forall_mem_singleton.mpr rfl⟩
  registers _ _ := of_same rfl rfl

theorem call (c : Call) (x : Exchange P) : Mute x (x.command (.call c)) := by
  have called : Mute x ({ x with calls := x.calls + 1 }.record (.called x.calls c)) :=
    ⟨rfl, [_], rfl, List.forall_mem_singleton.mpr rfl⟩
  exact called.trans (lenient.start _ _ _)

end Mute

theorem unheard_command (c : Command) (x : Exchange P) :
    ((x.command c).eventsSince x).filterMap Event.hearing? = [] := by
  cases c with
  | call c => exact (Mute.call c x).unheard
  | settle name o =>
      have journal : (x.settleGate name o).journal = [] ++ x.journal := by
        rcases settleGate_cases name o x with same | ⟨-, waiting, woken, after, -⟩
        · rw [same, List.nil_append]
        · rw [after, List.nil_append]
      rw [command, eventsSince_of_append journal]
      rfl

/-! ## Steps -/

structure Unmoved (x y : Exchange P) : Prop where
  calls : y.calls = x.calls
  gates : y.gates.settled = x.gates.settled

namespace Unmoved

theorem discreet (discreet : Discreet x y) : Unmoved x y := ⟨discreet.calls, discreet.gates⟩

theorem announce (h : HalfId) (next : Work P) (x : Exchange P) : Unmoved x (x.announce h next) := by
  simp only [Exchange.announce]
  split <;> exact ⟨rfl, rfl⟩

theorem closeHalf (h : HalfId) (next : Work P) (x : Exchange P) :
    Unmoved x (x.closeHalf h next) := by
  simp only [Exchange.closeHalf]
  split
  · exact ⟨rfl, rfl⟩
  · split
    · exact ⟨rfl, rfl⟩
    · split
      · exact ⟨rfl, rfl⟩
      next receivers senders _ =>
        have told := Discreet.closeChannel h receivers senders
          ((x.modifyHalf h fun half => { half with closed := true }).record (.closed h))
        have announced :=
          announce h next (((x.modifyHalf h fun half => { half with closed := true }).record
          (.closed h)).closeChannel h receivers senders)
        exact ⟨announced.calls.trans told.calls, announced.gates.trans told.gates⟩

theorem startHook (hook : Hook) (argument : Value) (x : Exchange P) :
    Unmoved x (x.startHook hook argument).1 := by
  have listener (l : Listener) (argument : Value) (y : Exchange P) :
      Unmoved y (y.startListener l argument).1 := by
    cases l <;> exact ⟨rfl, rfl⟩
  cases hook with
  | direct l => exact listener l argument x
  | half n =>
      simp only [Exchange.startHook]
      split
      · exact ⟨rfl, rfl⟩
      next stillOpen l _ =>
        have counted :=
          listener l .undefined { x with countdowns := x.countdowns.set n (stillOpen - 1, l) }
        split
        · exact ⟨counted.calls, counted.gates⟩
        · exact ⟨rfl, rfl⟩

theorem broken (e : Emission (Work P)) (v : Value) (x : Exchange P) : Unmoved x (x.broken e v) := by
  simp only [Exchange.broken]
  cases e.purpose with
  | closure | lateClosure | awaited | closing => exact ⟨rfl, rfl⟩
  | plainLasting | plainLast => exact discreet (.settle _ _ x)

theorem completed (e : Emission (Work P)) (x : Exchange P) : Unmoved x (x.completed e) := by
  simp only [Exchange.completed]
  cases e.purpose with
  | closure | awaited => exact discreet (.awaitReplies _ _ x)
  | lateClosure =>
      simp only [lateWitness]
      split
      · exact ⟨rfl, rfl⟩
      · exact discreet (.awaitReplies _ _ x)
  | plainLasting => exact ⟨rfl, rfl⟩
  | plainLast => exact discreet (.answer _ _ x)
  | closing => exact announce _ _ x

end Unmoved

/-- A piece of work is a command that a listener makes, whose emission then goes on, or it begins no
call and settles no gate. -/
theorem work_cases (w : Work P) (x : Exchange P) :
    (∃ e e' c, w = .emit e ∧ e'.purpose = e.purpose ∧ x.work w = (x.push (.emit e')).command c) ∨
      Unmoved x (x.work w) := by
  have discreet (discreet : w.Discreet) (closes : ∀ h next, w ≠ .close h next) :
      Unmoved x (x.work w) :=
    .discreet (.work discreet closes x)
  cases w with
  | run w =>
      cases w with
      | late hook label turns => cases turns <;> exact .inr ⟨rfl, rfl⟩
      | sent | received | returned => exact .inr (discreet trivial (by simp))
  | close h next => exact .inr (.closeHalf h next x)
  | give | receive | enter | serve | deliver => exact .inr (discreet trivial (by simp))
  | emit e =>
      simp only [work]
      unfold emission
      split
      · exact .inr (.broken e _ x)
      · exact .inr ⟨rfl, rfl⟩
      · exact .inr ⟨rfl, rfl⟩
      next c as r _ => exact .inl ⟨e, { e with current := some (as, r) }, c, rfl, rfl, rfl⟩
      · exact .inr ⟨rfl, rfl⟩
      · cases e.rest with
        | nil => exact .inr (.completed e x)
        | cons hook rest =>
            have started := Unmoved.startHook hook e.argument x
            exact .inr ⟨started.calls, started.gates⟩

/-- Whether a command is about to be made: from outside, or by a listener, whose emission then goes
on. -/
inductive Poised (x : Exchange P) : Exchange P → Prop where
  | outside : x.agenda = [] → Poised x x
  | inside {e e' : Emission (Work P)} {rest : List (Work P)} : x.agenda = .emit e :: rest →
    e'.purpose = e.purpose → Poised x { x with agenda := .emit e' :: rest }

theorem Poised.same {u : Exchange P} (poised : Poised x u) :
    u.calls = x.calls ∧ u.gates = x.gates ∧ u.emitter = x.emitter ∧ u.journal = x.journal := by
  cases poised <;> exact ⟨rfl, rfl, rfl, rfl⟩

theorem Poised.sober {u : Exchange P} (poised : Poised x u) {emits : Nat → Prop}
    (sober : ∀ w ∈ x.agenda, w.Sober emits) : ∀ w ∈ u.agenda, w.Sober emits := by
  cases poised with
  | outside => exact sober
  | inside agenda purpose =>
      rw [agenda, List.forall_mem_cons] at sober
      refine List.forall_mem_cons.mpr ⟨?_, sober.2⟩
      have first := sober.1
      simp only [Work.Sober] at first ⊢
      rwa [purpose]

theorem Poised.aside {u : Exchange P} (poised : Poised x u) {emits : Nat → Prop}
    (sober : ∀ w ∈ x.agenda, w.Sober emits) (ts) : (x.scene ts).Aside (u.scene ts) := by
  cases poised with
  | outside => exact .refl _
  | @inside e e' rest agenda purpose =>
      have first : e.purpose.Sober emits := sober (.emit e) (agenda ▸ List.mem_cons_self)
      have taken : Exchange.push (.emit e) { x with agenda := rest } = x := by
        rw [push, ← agenda]
      have before := scene_push_emit first { x with agenda := rest } ts
      rw [taken] at before
      rw [before]
      exact (Scene.Aside.unawait _ _).trans
        (aside_push_emit (e := e') (purpose ▸ first) { x with agenda := rest } ts)

variable {allowed : Command → Prop}

theorem Move.command_cases (move : Move allowed x y) :
    (∃ u c, Poised x u ∧ y = u.command c) ∨ Unmoved x y := by
  cases move with
  | @work w rest agenda =>
      rcases work_cases w { x with agenda := rest } with ⟨e, e', c, rfl, purpose, made⟩ | unmoved
      · exact .inl ⟨_, c, .inside agenda purpose, made⟩
      · exact .inr ⟨unmoved.calls, unmoved.gates⟩
  | resume =>
      refine .inr ?_
      unfold Exchange.resume
      split <;> exact ⟨rfl, rfl⟩
  | @command c quiet => exact .inl ⟨x, c, .outside quiet, rfl⟩

theorem Move.gates_cases (move : Move allowed x y) : y.gates.settled = x.gates.settled ∨
    ∃ name o, y.gates.settled = (name, o) :: x.gates.settled := by
  rcases move.command_cases with ⟨u, c, poised, rfl⟩ | unmoved
  · obtain ⟨-, gates, -, -⟩ := poised.same
    rw [← gates]
    cases c with
    | call c => exact .inl (Mute.call c u).gates
    | settle name o =>
        rcases settleGate_cases name o u with same | ⟨-, waiting, woken, after, -⟩
        · exact .inl (by rw [Exchange.command, same])
        · exact .inr ⟨name, o, by rw [Exchange.command, after]⟩
  · exact .inl unmoved.gates

theorem Move.begins (move : Move allowed x y) {ts} (numbered : (y.scene ts).Numbered) {c : Call}
    (called : .called x.calls c ∈ y.journal) : ∃ u, Poised x u ∧ y = u.command (.call c) := by
  have counted : x.calls < y.calls := numbered.below ((mem_events rfl ts).mpr called)
  rcases move.command_cases with ⟨u, c', poised, rfl⟩ | unmoved
  · obtain ⟨calls, -, -, -⟩ := poised.same
    cases c' with
    | call c' =>
        have made := mem_called c' u
        rw [calls] at made
        obtain rfl :=
          numbered.unique ((mem_events rfl ts).mpr called) ((mem_events rfl ts).mpr made)
        exact ⟨u, poised, rfl⟩
    | settle name o =>
        have same : (u.settleGate name o).calls = u.calls := by
          rcases settleGate_cases name o u with same | ⟨-, waiting, woken, after, -⟩
          · rw [same]
          · rw [after]
        rw [Exchange.command, same, calls] at counted
        exact absurd counted (Nat.lt_irrefl _)
  · rw [unmoved.calls] at counted
    exact absurd counted (Nat.lt_irrefl _)

/-! ## Work that concerns other calls -/

/-- Whether a call is another one than this, and was made on an emitter. -/
def Others (x : Exchange P) (n m : Nat) : Prop := Event.Emitted x.journal m ∧ m ≠ n

/-- Whether all work concerns other calls than this one. -/
structure Spared (n : Nat) (x : Exchange P) : Prop where
  begun : n < x.calls
  agenda : ∀ w ∈ x.agenda, w.Sober (x.Others n)

theorem not_conducts_of_sober {w : Work P} (sober : w.Sober (x.Others n)) : ¬ w.Conducts n := by
  intro conducts
  cases w with
  | emit e =>
      have purpose : e.purpose = .awaited n := conducts
      simp only [Work.Sober, purpose] at sober
      exact sober.2 rfl
  | _ => exact conducts.elim

theorem Spared.emits (spared : Spared n x) : ¬ x.Emits n := by
  rintro ⟨w, mem, conducts⟩
  exact not_conducts_of_sober (spared.agenda w mem) conducts

theorem Spared.conducts (spared : Spared n x) : ¬ x.Conducts n := by
  rintro ⟨w, mem, conducts⟩
  exact not_conducts_of_sober (spared.agenda w (List.mem_of_mem_head? mem)) conducts

theorem others_mono (more : x.journal ⊆ y.journal) {w : Work P} (sober : w.Sober (x.Others n)) :
    w.Sober (y.Others n) :=
  sober.mono fun _ ⟨⟨event, c, called⟩, other⟩ => ⟨⟨event, c, more called⟩, other⟩

theorem others_command (begun : n < x.calls) (c : Command) :
    Pushes ((x.command c).Others n) x (x.command c) := by
  refine .command fun event c' same => ⟨⟨event, c', ?_⟩, begun.ne'⟩
  subst same
  exact mem_called _ x

variable {kinds : List StreamKind}

theorem Move.calls_le (run : Run (fun _ => True) (ofStreams P kinds) x)
    (move : Move (fun _ => True) x y) : x.calls ≤ y.calls := by
  obtain ⟨turns, shifts⟩ := run.shifts move.run []
  exact shifts.later.calls

theorem Move.others (run : Run (fun _ => True) (ofStreams P kinds) x)
    (move : Move (fun _ => True) x y) (begun : n < x.calls) {w : Work P} {rest : List (Work P)}
    (agenda : x.agenda = w :: rest)
    (sober : w.Sober (x.Others n)) :
    ∃ ws, y.agenda = ws ++ rest ∧ ∀ w ∈ ws, w.Sober (y.Others n) := by
  have more := move.suffix.subset
  cases move with
  | work agenda' =>
      rw [agenda] at agenda'
      cases agenda'
      have sound := Run.sound run (sound_ofStreams P kinds)
      have taken : Sound _ { x with agenda := rest } := sound.of_same rfl rfl
      have pushes := Pushes.work taken (others_mono more sober) (run.sober.rest agenda).1
        fun emitted => ⟨emitted, begun.ne'⟩
      obtain ⟨ws, after, new⟩ := pushes.agenda
      exact ⟨ws, after, fun w mem => (new w mem).1⟩
  | resume quiet | command quiet => exact absurd (agenda.symm.trans quiet) (List.cons_ne_nil _ _)

theorem Spared.move (spared : Spared n x) (run : Run (fun _ => True) (ofStreams P kinds) x)
    (move : Move (fun _ => True) x y) : Spared n y where
  begun := Nat.lt_of_lt_of_le spared.begun (move.calls_le run)
  agenda := by
    cases agenda : x.agenda with
    | cons w rest =>
        have sober := spared.agenda
        rw [agenda, List.forall_mem_cons] at sober
        obtain ⟨ws, after, new⟩ := move.others run spared.begun agenda sober.1
        rw [after]
        exact List.forall_mem_append.mpr
          ⟨new, fun w mem => others_mono move.suffix.subset (sober.2 w mem)⟩
    | nil =>
        cases move with
        | work agenda' => exact absurd (agenda'.symm.trans agenda) (List.cons_ne_nil _ _)
        | resume quiet lt =>
            unfold Exchange.resume
            rw [List.getElem?_eq_getElem lt]
            exact List.forall_mem_singleton.mpr trivial
        | @command c =>
            obtain ⟨ws, after, new⟩ := (others_command spared.begun c).agenda
            rw [after, agenda, List.append_nil]
            exact fun w mem => (new w mem).1

/-! ## An emission that is under way -/

/-- Whether the emission of an awaited call called some of the listeners that it was given. -/
structure Underway (n : Nat) (v : Value) (ls done : List Listener) (x : Exchange P) : Prop where
  begun : n < x.calls
  vacant : ∃ ts, (x.scene ts).Vacant n
  agenda : ∃ before e after, x.agenda = before ++ .emit e :: after ∧ e.purpose = .awaited n ∧
    e.argument = v ∧ e.Reaches ls done ∧ ∀ w ∈ before ++ after, w.Sober (x.Others n)

/-- Whether a call that began has neither work, nor a thread, nor settled. -/
structure Absent (n : Nat) (x : Exchange P) : Prop extends Spared n x where
  vacant : ∃ ts, (x.scene ts).Vacant n
  guarded : ∀ h, (x.half h).Guarded

/-- How the emission of an awaited call ends: a listener threw, or all returned. -/
inductive Concludes (n : Nat) (ls : List Listener) (x : Exchange P) : Exchange P → Prop where
  | throws {v : Value} : ls.findSome? Listener.thrown? = some v →
    Concludes n ls x (x.wake (.returned (.error v) ⟨[], .call n⟩))
  | completes : (∀ l ∈ ls, l.Returns) →
      Concludes n ls x (x.awaitReplies (ls.map Listener.reply) ⟨[], .call n⟩)

theorem Underway.emits (underway : Underway n v ls done x) : x.Emits n := by
  obtain ⟨before, e, after, agenda, purpose, -⟩ := underway.agenda
  exact ⟨.emit e, agenda ▸ List.mem_append_right _ List.mem_cons_self, purpose⟩

theorem Underway.prefix (underway : Underway n v ls done x) : done <+: Listener.reached ls := by
  obtain ⟨before, e, after, -, -, -, reaches, -⟩ := underway.agenda
  exact reaches.prefix

theorem Underway.start {ts} (numbered : (x.scene ts).Numbered)
    (sober : ∀ w ∈ x.agenda, w.Sober (Event.Emitted x.journal)) (event : String) (v : Value) :
    Underway x.calls v (x.emitter.listeners event) []
      (x.command (.call (.emitter event (.emitAndWait v)))) where
  begun := Nat.lt_succ_self _
  vacant := by
    obtain ⟨tally, unsettled⟩ := numbered.fresh
    have emission : (Purpose.awaited x.calls : Purpose (Work P)).Sober fun _ => True := trivial
    have pushed : x.command (.call (.emitter event (.emitAndWait v))) =
        (x.took (.emitter event (.emitAndWait v)) x.sources).push
          (.emit ⟨none, [], (x.emitter.listeners event).map .direct, v, .awaited x.calls⟩) :=
      startEmitter_emitAndWait x.calls event v (x.took (.emitter event (.emitAndWait v)) x.sources)
    refine ⟨ts, ?_⟩
    rw [pushed, scene_push_emit emission]
    exact ⟨tally, fun so mem => unsettled so ((List.mem_cons.mp mem).resolve_left (by rintro ⟨⟩))⟩
  agenda := by
    refine ⟨[], _, x.agenda, rfl, rfl, rfl, .start _ v _, fun w mem => ?_⟩
    refine (sober w mem).mono fun m ⟨event', c, called⟩ => ⟨⟨event', c, ?_⟩, ?_⟩
    · exact List.mem_cons_of_mem _ called
    · exact (numbered.below ((mem_events rfl ts).mpr called)).ne

theorem Underway.command (underway : Underway n v ls done x) (guarded : ∀ h, (x.half h).Guarded)
    (c : Command) : Underway n v ls done (x.command c) where
  begun := by
    have stirs : Scene.Stirs (· ≠ n) (x.scene []) ((x.command c).scene []) :=
      stirs_command guarded c []
    exact Nat.lt_of_lt_of_le underway.begun stirs.shifts.later.calls
  vacant := by
    obtain ⟨ts, vacant⟩ := underway.vacant
    exact ⟨ts, vacant.stirs underway.begun (stirs_command guarded c ts)⟩
  agenda := by
    obtain ⟨before, e, after, agenda, purpose, argument, reaches, sober⟩ := underway.agenda
    obtain ⟨ws, after', new⟩ := (others_command underway.begun c).agenda
    refine ⟨ws ++ before, e,
      after, by rw [after', agenda, List.append_assoc], purpose, argument, reaches,
      fun w mem => ?_⟩
    rw [List.append_assoc] at mem
    exact (List.mem_append.mp mem).elim (fun inside => (new w inside).1)
      fun old => others_mono (Grows.command c x).journal.subset (sober w old)

namespace Absent

variable {e : Emission (Work P)}

theorem emits (absent : Absent n x) (purpose : e.purpose = .awaited n) (argument : e.argument = v)
    (reaches : e.Reaches ls done) : Underway n v ls done (x.push (.emit e)) where
  begun := absent.begun
  vacant := by
    obtain ⟨ts, vacant⟩ := absent.vacant
    have anyone : e.purpose.Sober fun _ => True := by
      rw [purpose]
      trivial
    exact ⟨ts, vacant.stirs absent.begun (aside_push_emit anyone x ts).stirs⟩
  agenda := ⟨[], e, x.agenda, rfl, purpose, argument, reaches, absent.agenda⟩

theorem startListener (absent : Absent n x) (l : Listener) (v : Value) :
    Absent n (x.startListener l v).1 := by
  obtain ⟨ts, vacant⟩ := absent.vacant
  have called : ∃ ts, ((x.startListener l v).1.scene ts).Vacant n :=
    ⟨ts, vacant.stirs absent.begun (aside_startHook (.direct l) v x ts).stirs⟩
  have sober : ∀ w ∈ x.agenda, w.Sober ((x.startListener l v).1.Others n) := fun w mem =>
    others_mono (Grows.startListener l v x).journal.subset (absent.agenda w mem)
  cases l with
  | script => exact ⟨⟨absent.begun, sober⟩, called, absent.guarded⟩
  | forget => exact ⟨⟨absent.begun, sober⟩, called, absent.guarded⟩

end Absent

theorem hearing_startListener (l : Listener) (v : Value) (w : Work P) (x : Exchange P) :
    (((x.startListener l v).1.push w).eventsSince x).filterMap Event.hearing? =
      [l].filterMap (·.hearing? v) := by
  cases l with
  | script tag actions =>
      have journal : ((x.startListener (.script tag actions) v).1.push w).journal =
          [.heard tag v] ++ x.journal := rfl
      rw [eventsSince_of_append journal]
      rfl
  | forget i =>
      have journal : ((x.startListener (.forget i) v).1.push w).journal = [] ++ x.journal := rfl
      rw [eventsSince_of_append journal]
      rfl

theorem Absent.emission {e : Emission (Work P)} (absent : Absent n x)
    (purpose : e.purpose = .awaited n) (argument : e.argument = v) (reaches : e.Reaches ls done) :
    (∃ new, Underway n v ls (done ++ new) (x.emission e) ∧
      ((x.emission e).eventsSince x).filterMap Event.hearing? = new.filterMap (·.hearing? v)) ∨
      Concludes n ls x (x.emission e) ∧ done = Listener.reached ls := by
  have proceeds := proceeds (x := x) reaches
  generalize x.emission e = y at proceeds ⊢
  cases proceeds with
  | throws thrown reached =>
      refine .inr ⟨?_, reached.symm⟩
      rw [broken, purpose]
      exact .throws thrown
  | completes all return_ replies =>
      refine .inr ⟨?_, ?_⟩
      · rw [completed, purpose, replies]
        exact .completes return_
      · rw [Listener.reached_eq_self return_, all]
  | stays continues reaches =>
      refine .inl ⟨[], ?_, (Mute.push _ x).unheard⟩
      rw [List.append_nil]
      exact absent.emits (continues.purpose.trans purpose)
        (continues.argument.trans argument) reaches
  | @performs e' c continues reaches =>
      have goesOn :=
        absent.emits (continues.purpose.trans purpose) (continues.argument.trans argument) reaches
      refine .inl ⟨[], ?_, unheard_command c (x.push (.emit e'))⟩
      rw [List.append_nil]
      exact goesOn.command absent.guarded c
  | @calls e' l continues reaches =>
      refine .inl ⟨[l], ?_, ?_⟩
      · exact (absent.startListener l e.argument).emits (continues.purpose.trans purpose)
          (continues.argument.trans argument) reaches
      · rw [argument]
        exact hearing_startListener l v _ x

/-- An awaited emission begins with the listeners that are registered, whoever makes the call. -/
theorem Move.underway (run : Run (fun _ => True) (ofStreams P kinds) x)
    (move : Move (fun _ => True) x y) {event : String}
    (called : .called x.calls (.emitter event (.emitAndWait v)) ∈ y.journal) :
    Underway x.calls v (x.emitter.listeners event) [] y := by
  obtain ⟨ts, numbered⟩ := run.numbered
  obtain ⟨_, numbered'⟩ := (run.step move).numbered
  obtain ⟨u, poised, rfl⟩ := move.begins numbered' called
  obtain ⟨calls, -, emitter, journal⟩ := poised.same
  rw [← calls, ← emitter]
  refine .start (numbered.shift (.aside (poised.aside run.sober.work ts))) ?_ event v
  rw [journal]
  exact poised.sober run.sober.work

theorem Underway.others (underway : Underway n v ls done x)
    (run : Run (fun _ => True) (ofStreams P kinds) x)
    (move : Move (fun _ => True) x y) (other : ¬ x.Conducts n) : Underway n v ls done y := by
  have begun := underway.begun
  obtain ⟨ts, vacant⟩ := underway.vacant
  obtain ⟨before, e, after, agenda, purpose, argument, reaches, sober⟩ := underway.agenda
  cases before with
  | nil => exact absurd ⟨.emit e, by rw [agenda]; rfl, purpose⟩ other
  | cons w before =>
      obtain ⟨first, rest⟩ := List.forall_mem_cons.mp sober
      obtain ⟨ws, after', new⟩ := move.others run begun agenda first
      have spares (w' rest') (agenda' : x.agenda = w' :: rest') : w'.Sober (x.Others n) := by
        rw [agenda] at agenda'
        cases agenda'
        exact first
      refine ⟨Nat.lt_of_lt_of_le begun (move.calls_le run),
        ⟨_, vacant.stirs begun (move.stirs run.guarded spares ts)⟩,
        ws ++ before, e, after, ?_, purpose, argument, reaches, fun w mem => ?_⟩
      · rw [after', List.append_assoc]
        rfl
      · rw [List.append_assoc] at mem
        exact (List.mem_append.mp mem).elim (new w) fun old =>
          others_mono move.suffix.subset (rest w old)

/-- A step of the emission calls the next listener or none, or it is the last one. -/
theorem Underway.own (underway : Underway n v ls done x)
    (run : Run (fun _ => True) (ofStreams P kinds) x) (move : Move (fun _ => True) x y)
    (own : x.Conducts n) :
    (∃ new, Underway n v ls (done ++ new) y ∧
      (y.eventsSince x).filterMap Event.hearing? = new.filterMap (·.hearing? v)) ∨
    ∃ after, Absent n { x with agenda := after } ∧ Concludes n ls { x with agenda := after } y ∧
      done = Listener.reached ls := by
  obtain ⟨ts, vacant⟩ := underway.vacant
  obtain ⟨before, e, after, agenda, purpose, argument, reaches, sober⟩ := underway.agenda
  cases before with
  | cons w before =>
      obtain ⟨w', mem, conducts⟩ := own
      rw [agenda] at mem
      cases Option.some.inj mem
      exact absurd conducts (not_conducts_of_sober (sober w List.mem_cons_self))
  | nil =>
      cases move with
      | resume quiet | command quiet =>
          exact absurd (agenda.symm.trans quiet) (List.cons_ne_nil _ _)
      | work agenda' =>
          rw [agenda] at agenda'
          cases agenda'
          have taken : Exchange.push (.emit e) { x with agenda := after } = x := by
            rw [push, ← List.nil_append (_ :: after), ← agenda]
          have anyone : e.purpose.Sober fun _ => True := by
            rw [purpose]
            trivial
          have free : (({ x with agenda := after } : Exchange P).scene ts).Vacant n := by
            rw [← taken, scene_push_emit anyone] at vacant
            exact vacant.stirs underway.begun (Scene.Aside.unawait _ _).stirs
          have absent : Absent n { x with agenda := after } :=
            ⟨⟨underway.begun, sober⟩, ⟨ts, free⟩, run.guarded⟩
          exact (absent.emission purpose argument reaches).imp_right fun ends =>
            ⟨after, absent, ends⟩

/-! ## Runs -/

theorem awaitReplies_same (replies : List Reply) (t : Task P) (x : Exchange P) :
    (x.awaitReplies replies t).agenda = x.agenda ∧ (x.awaitReplies replies t).calls = x.calls ∧
      (x.awaitReplies replies t).journal = x.journal ∧
      (x.awaitReplies replies t).gates.settled = x.gates.settled := by
  simp only [awaitReplies]
  split
  · exact ⟨rfl, rfl, rfl, rfl⟩
  · simp only [awaitGates]
    split
    · exact ⟨rfl, rfl, rfl, rfl⟩
    · split <;> exact ⟨rfl, rfl, rfl, rfl⟩

theorem Concludes.spared (concludes : Concludes n ls x y) (spared : Spared n x) :
    Spared n y ∧ y.journal = x.journal ∧ y.gates.settled = x.gates.settled := by
  cases concludes with
  | throws => exact ⟨⟨spared.begun, spared.agenda⟩, rfl, rfl⟩
  | completes =>
      obtain ⟨agenda, calls, journal, gates⟩ :=
        awaitReplies_same (ls.map Listener.reply) ⟨[], .call n⟩ x
      refine ⟨⟨?_, ?_⟩, journal, gates⟩
      · rw [calls]
        exact spared.begun
      · rw [agenda]
        exact fun w mem => others_mono (fun e inside => journal ▸ inside) (spared.agenda w mem)

theorem Run.spared (spared : Spared n x) (run : Run (fun _ => True) (ofStreams P kinds) x)
    (later : Run (fun _ => True) x y) : Spared n y := by
  induction later with
  | refl => exact spared
  | step before move ih => exact ih.move (run.trans before) move

/-- The emission of an awaited call came to its end on the way from one state to another, with this
step. -/
structure Ceases (n : Nat) (x u u' y : Exchange P) : Prop where
  before : Run (fun _ => True) x u
  emits : u.Emits n
  move : Move (fun _ => True) u u'
  ended : ¬ u'.Emits n
  after : Run (fun _ => True) u' y

/-- However an exchange goes on, the emission calls the listeners that it was given, up to the first
that throws. -/
theorem Recounts.underway {heard : List (String × Value)} (first : Underway n v ls [] x)
    (run : Run (fun _ => True) (ofStreams P kinds) x) (recounts : Recounts n x heard y) :
    (∃ done, Underway n v ls done y ∧ heard = done.filterMap (·.hearing? v)) ∨
      heard = (Listener.reached ls).filterMap (·.hearing? v) ∧ ∃ u u', Ceases n x u u' y ∧
        ∃ after, Absent n { u with agenda := after } ∧
        Concludes n ls { u with agenda := after } u' := by
  induction recounts with
  | refl => exact .inl ⟨[], first, rfl⟩
  | @own heard y z before own move ih =>
      have reached := run.trans before.run
      rcases ih with ⟨done, underway, rfl⟩ | ⟨-, u, u', ceases, after, absent, concludes⟩
      · rcases underway.own reached move own with ⟨new, goesOn, new_heard⟩ |
          ⟨after, absent, concludes, rfl⟩
        · refine .inl ⟨done ++ new, goesOn, ?_⟩
          rw [new_heard, List.filterMap_append]
        · obtain ⟨spared, journal, -⟩ := concludes.spared absent.toSpared
          have ceases : Ceases n x y z z := ⟨before.run, underway.emits, move, spared.emits, .refl⟩
          refine .inr ⟨?_, y, z, ceases, after, absent, concludes⟩
          have nothing : z.journal = [] ++ y.journal := journal
          rw [eventsSince_of_append nothing]
          exact List.append_nil _
      · have earlier := (run.trans ceases.before).step ceases.move
        have spared := Run.spared (concludes.spared absent.toSpared).1 earlier ceases.after
        exact absurd own spared.conducts
  | @other heard y z before other move ih =>
      rcases ih with ⟨done, underway, rfl⟩ | ⟨all, u, u', ceases, last⟩
      · exact .inl ⟨done, underway.others (run.trans before.run) move other, rfl⟩
      · exact .inr ⟨all, u, u', { ceases with after := ceases.after.step move }, last⟩

end Exchange

end ObjectTransfer
