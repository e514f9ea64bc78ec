import ObjectTransfer.Proofs.Entries
import ObjectTransfer.Proofs.Receipts
import ObjectTransfer.Scripted.Plugin

/-! # What a response to an upload means

A response passes after the request half closed. While the handler runs, the half closes when
everything passed. A service closes it as well, and then the response half at one go, unless it has
to deliver a failure of its handler first (`Exchange.decided_of_answered`). So a response means that
everything was taken, unless a handler sent it beside the service of a handler that failed
(`Exchange.passed_all_of_fulfilled`).
-/

namespace ObjectTransfer

variable {P : Plugin}

/-- Whether a handler fails in a turn with something that is delivered to its client. -/
def HandlerTurn.Fails (turn : HandlerTurn P) : Prop :=
  ∃ v f, ((P.step turn.shared turn.state turn.outcome).2 = .fail v ∨
    (P.step turn.shared turn.state turn.outcome).2 = .refuse v) ∧
    v.isStreamClosed = false ∧ v.toFault? = .ok f

/-- Whether a thread is a service that delivers the failure of its handler. -/
inductive Thread.Reports (i : StreamId) : Thread P → Prop where
  | failed {v f} : v.isStreamClosed = false → v.toFault? = .ok f →
    Reports i ⟨.bound (.error v), [.serving i], .service i⟩
  | delivering {st} : Reports i ⟨st, [.delivering i], .service i⟩

variable {s s' : Scene P} {i : StreamId} {h : HalfId} {th th' : Thread P}

theorem Thread.Reports.owner (reports : th.Reports i) : th.owner = .service i := by
  cases reports <;> rfl

theorem Thread.Reports.before {stage : Stage} (reports : { th with stage }.Reports i)
    (proper : th.Proper s) (goes : th.stage.Goes s' stage) : th.Reports i := by
  obtain ⟨st, fs, w⟩ := th
  cases reports with
  | failed given fault =>
      cases proper with
      | starting => cases goes
      | served => cases Stage.bound_goes goes
                  exact .failed given fault
  | delivering => exact .delivering

theorem Thread.Reports.of_served {j : StreamId} {o}
    (reports : (served (P := P) j [] (.service j) o).Reports i) :
    Reports (P := P) i ⟨.bound o, [.serving j], .service j⟩ := by
  cases (served_owner j [] (.service j) o).symm.trans reports.owner
  cases o with
  | ok => cases reports
  | error v =>
      cases given : v.isStreamClosed with
      | true =>
          rw [served, if_pos given] at reports
          cases reports
      | false =>
          cases fault : v.toFault? with
          | ok f => exact .failed given fault
          | error f =>
              simp only [served, given, fault] at reports
              cases reports

theorem Act.reports {act : Act P.Local} {gates : String → Option Outcome} {i j : StreamId}
    {o : Outcome} {state : P.Local} {fs : List (Frame P)} {w : Owner} {th : Thread P}
    (mem : th ∈ act.threads gates j fs w) (reports : th.Reports i)
    (proper : Thread.Proper s ⟨.bound o, .handling j state :: fs, w⟩) :
    j = i ∧ ∃ v f, (act = .fail v ∨ act = .refuse v) ∧ v.isStreamClosed = false ∧
    v.toFault? = .ok f := by
  cases act with
  | fork child next =>
      simp only [threads, List.mem_cons, List.not_mem_nil, or_false] at mem
      rcases mem with rfl | rfl <;> cases reports
  | wait =>
      obtain rfl := List.mem_singleton.mp mem
      generalize Stage.ofGates gates _ = st at reports
      cases reports
  | call | rest | did | log =>
      obtain rfl := List.mem_singleton.mp mem
      cases reports
  | succeed =>
      obtain rfl := List.mem_singleton.mp mem
      cases reports
      cases proper
  | fail v =>
      obtain rfl := List.mem_singleton.mp mem
      cases reports with
      | failed given fault =>
          cases proper
          exact ⟨rfl, v, _, .inl rfl, given, fault⟩
      | delivering => cases proper
  | refuse v =>
      obtain rfl := List.mem_singleton.mp mem
      cases reports with
      | failed given fault =>
          cases proper
          exact ⟨rfl, v, _, .inr rfl, given, fault⟩
      | delivering => cases proper

/-- A service that closes the request half after its handler closes the response half next, unless
it reports a failure. -/
theorem Thread.Proper.closes_next {th : Thread P}
    (proper : (th.move (.closing ⟨i, .requests⟩)).Proper s)
    (owner : (th.move (.closing ⟨i, .requests⟩)).owner = .service i)
    (still : ¬ (th.move (.closing ⟨i, .requests⟩)).Runs)
    (unreported : ¬ (th.move (.closing ⟨i, .requests⟩)).Reports i) :
    ∃ o, th.stage = .closing ⟨i, .responses⟩ (.bound o) := by
  obtain ⟨st, fs, w⟩ := th
  obtain rfl : w = .service i := owner
  simp only [move] at proper still unreported
  cases proper with
  | handler => exact absurd (.inr ⟨_, _, _, rfl⟩) still
  | delivering => exact absurd .delivering unreported
  | finishing _ finishes =>
      cases finishes
      exact ⟨_, rfl⟩
  | caller _ _ owner => exact owner.elim (by rintro ⟨⟩) (by rintro ⟨⟩)

theorem Scene.Becomes.handler {es ts ths o state fs w}
    (becomes : Becomes s s' es ts ⟨.bound o, .handling i state :: fs, w⟩ ths) :
    ths = [⟨.bound o, .handling i state :: fs, w⟩] ∨
      ths = (P.step s.shared state o).2.threads s.gates i fs w ∧
      ts = [⟨i, state, o, s.shared⟩] := by
  cases becomes with
  | handle _ turns => exact .inr ⟨rfl, turns⟩
  | aside | released | gate => exact .inl rfl
  | solo solo => cases solo

namespace Scene

theorem Becomes.reports {es ts ths} (becomes : Becomes s s' es ts th ths)
    (events : s'.events = es ++ s.events) (proper : th.Proper s) (mem : th' ∈ ths)
    (reports : th'.Reports i) : th.Reports i ∨ ∃ turn ∈ ts, turn.stream = i ∧ turn.Fails := by
  rcases becomes.cases events with ⟨stage, rfl, goes⟩ | turns
  · obtain rfl := List.mem_singleton.mp mem
    exact .inl (reports.before proper goes)
  cases turns with
  | @handle o j state fs w =>
      rcases becomes.handler with same | ⟨-, rfl⟩
      · rw [same] at mem
        exact .inl (List.mem_singleton.mp mem ▸ reports)
      · obtain ⟨rfl, fails⟩ := Act.reports mem reports proper
        exact .inr ⟨_, List.mem_cons_self, rfl, fails⟩
  | @serve o =>
      obtain rfl := List.mem_singleton.mp mem
      cases proper
      exact .inl (Thread.Reports.of_served reports)
  | delivered =>
      obtain rfl := List.mem_singleton.mp mem
      cases proper
      cases reports
  | start =>
      obtain rfl := List.mem_singleton.mp mem
      cases reports
  | read =>
      obtain rfl := List.mem_singleton.mp mem
      cases proper
      exact nomatch (Reading.Next.thread_owner ..).symm.trans reports.owner
  | write =>
      obtain rfl := List.mem_singleton.mp mem
      cases proper
      exact nomatch (Writing.Turn.thread_owner ..).symm.trans reports.owner
  | follow => cases proper
  | settle => exact absurd mem List.not_mem_nil

/-- A service reports a failure only if a handler failed. -/
theorem Reachable.reported (reachable : s.Reachable) (mem : th ∈ s.threads)
    (reports : th.Reports i) : ∃ turn ∈ s.turns, turn.stream = i ∧ turn.Fails := by
  induction reachable generalizing th with
  | refl => exact absurd mem (Multiset.notMem_zero th)
  | @tail s s' steps step ih =>
      have reached : s.Reachable := steps
      obtain ⟨parts⟩ := step.parts
      have turns := parts.turns_eq
      rcases parts.origin mem with fresh | ⟨th, old, ths, becomes, mem⟩
      · rcases parts.enters.cases fresh with ⟨label, rfl⟩ | ⟨c, rfl⟩ | ⟨invocation, rfl⟩
        · cases reports
        · exact nomatch reports.owner ▸ s.firstThread_owner c
        · cases reports
      · rcases becomes.reports parts.events_eq (reached.cast th old) mem reports with
          before | ⟨turn, took, fails⟩
        · obtain ⟨turn, took, fails⟩ := ih old before
          exact ⟨turn, turns ▸ List.mem_append_right _ took, fails⟩
        · exact ⟨turn, turns ▸ List.mem_append_left _ took, fails⟩

theorem Step.closed_event (step : Step s s') (lt : h.stream < s.kinds.length)
    (before : s.closed h = true → .closed h ∈ s.events) (closed : s'.closed h = true) :
    .closed h ∈ s'.events := by
  cases step with
  | @close h' =>
      by_cases same : h = h'
      · exact same ▸ List.mem_cons_self
      · exact List.mem_cons_of_mem _ (before ((Function.update_of_ne same ..).symm.trans closed))
  | opening =>
      have old := before ((if_neg (Nat.ne_of_lt lt)).symm.trans closed)
      exact List.mem_cons_of_mem _ (List.mem_cons_of_mem _ old)
  | solo | handle => exact List.mem_append_right _ (before closed)
  | meet | call => exact List.mem_cons_of_mem _ (before closed)
  | start | gate | strike | count | notice => exact before closed

theorem Steps.handed (steps : Steps s s') (lt : h.stream < s.kinds.length)
    (closed : s.closed h = true) {m}
    (handed : .handed h m ∈ s'.events) : .handed h m ∈ s.events := by
  induction steps with
  | refl => exact handed
  | @tail t t' steps step ih =>
      have closed := (Steps.later steps).closed h lt closed
      rcases step.handed handed with old | ⟨isOpen, -⟩
      · exact ih old
      · exact nomatch isOpen.symm.trans closed

end Scene

namespace Upload

variable {s s' : Scene P} {u : Upload}

theorem closed_event (reachable : s.Reachable) (known : u.Known s.events)
    (closed : s.closed u.half = true) : .closed u.half ∈ s.events := by
  induction reachable with
  | refl => exact absurd known.opened List.not_mem_nil
  | @tail s s' steps step ih =>
      have reached : s.Reachable := steps
      rcases step.openedBefore reached.orderly known.opened known.called with
        ⟨opened, called⟩ | ⟨call, stream, kind, invocation, opens, rfl⟩
      · exact step.closed_event (reached.orderly.opened opened).2 (ih ⟨called, opened⟩) closed
      · cases opens
        exact nomatch (if_pos stream).symm.trans closed

/-- Only the writer of an upload waits for the response, after it closed the request half. -/
theorem waiter (reachable : s.Reachable) (known : u.Known s.events) {fs w}
    (mem : ⟨.wanting u.back, fs, w⟩ ∈ s.threads) : s.closed u.half = true ∧ ∃ k v,
      (⟨.wanting u.back, fs, w⟩ : Thread P) = u.thread k v (.wanting u.back) ∧
        ((∃ f, v.phase = .discarding f) ∨ v.phase = .acknowledging) := by
  obtain ⟨i, role, m', -, calls, inCall⟩ := (reachable.cast _ mem).calls trivial
  have same := (inCall.hears (.inr (.inl rfl))).1
  have kind := known.kind reachable.orderly
  cases role with
  | server => exact nomatch congrArg HalfId.side same
  | client =>
      obtain rfl : u.stream = i := congrArg HalfId.stream same
      rcases u.client known reachable.orderly calls with ⟨k, w', same⟩ | rfl
      · rw [same] at mem
        obtain ⟨-, -, waits⟩ := writer_waits reachable.cast mem
        cases waits.calls nofun with
        | discarding closed => exact ⟨closed, k, _, same, .inl ⟨_, rfl⟩⟩
        | acknowledging inCall =>
            exact ⟨(wanting_of_parked kind inCall trivial).2, k, _, same, .inr rfl⟩
        | sending inCall =>
            exact nomatch offering_of_parked inCall (kind ▸ Method.entry_send _ _) trivial
        | aborting inCall => exact nomatch offering_of_parked inCall (entry_abort kind _) trivial
      · have hasStage := inCall.resolve_left nofun
        rw [kind] at hasStage
        cases hasStage

theorem answered (reachable : s.Reachable) (known : u.Known s.events) {m}
    (handed : .handed u.back m ∈ s.events) : s.closed u.half = true := by
  induction reachable with
  | refl => exact absurd handed List.not_mem_nil
  | @tail s s' steps step ih =>
      have reached : s.Reachable := steps
      rcases step.handed handed with old | ⟨-, fs, w, -, -, -, wants, -⟩
      · have lt := (reached.seals _ _ old).1
        have known := known.before step.later reached.orderly (reached.orderly.step step) lt
        exact step.later.closed _ lt (ih known old)
      · have lt : u.stream < s.kinds.length := (reached.cast.hears wants rfl).1
        have known := known.before step.later reached.orderly (reached.orderly.step step) lt
        exact step.later.closed _ lt (u.waiter reached known wants).1

/-- A response of a handler that waits for each of its calls comes after everything passed. -/
theorem decided_of_unforked (reachable : s.Reachable) (known : u.Known s.events)
    (unforked : s.Unforked u.stream) {v} (handed : .handed u.back (.payload v) ∈ s.events) :
    u.Decided s := by
  induction reachable with
  | refl => exact absurd handed List.not_mem_nil
  | @tail s s' steps step ih =>
      have reached : s.Reachable := steps
      have unforked := unforked.before step.later
      rcases step.handed handed with old | ⟨-, fs, w, terminal, fs', w', wants, offers, -⟩
      · have lt := (reached.seals _ _ old).1
        have known := known.before step.later reached.orderly (reached.orderly.step step) lt
        exact (ih known unforked old).later step.later
      · have lt : u.stream < s.kinds.length := (reached.cast.hears wants rfl).1
        have known := known.before step.later reached.orderly (reached.orderly.step step) lt
        obtain ⟨owner, runs⟩ := reached.speaker unforked offers rfl
        have doomed : s.Doomed u.half := ⟨lt, .inl (u.waiter reached known wants).1⟩
        exact (u.decided reached known doomed ⟨_, offers, owner, runs⟩).later step.later

end Upload

namespace Exchange

variable {x y : Exchange P} {turns : List (HandlerTurn P)} {u : Upload}

theorem closed_lt (history : History Command.Hosted (.empty P) x turns) {h : HalfId}
    (closed : .closed h ∈ x.journal) : h.stream < (x.scene turns).kinds.length := by
  induction history with
  | refl => exact absurd closed List.not_mem_nil
  | @step x y turns history move ih =>
      have calm := history.run.calm calm_empty
      have later := Scene.Steps.later (move.steps calm turns)
      rcases move.closes (fun h => (calm.halves h).toGuarded) closed with old | ⟨next, rest, agenda⟩
      · exact later.lt (ih old)
      · obtain ⟨-, -, th, threads⟩ := (calm.next agenda).2
        have inside : th.move (.closing h) ∈ (Work.close h next).threads := by
          rw [Work.threads, threads]
          exact List.mem_cons_self
        have mem := mem_threads_agenda (agenda ▸ List.mem_cons_self) inside
        exact later.lt ((history.reachable.cast _ mem).closes_lt (.inl rfl))

/-- When the request half of an upload closes before everything passed, the response half is closed
next, unless its service reports a failure. -/
theorem closing_of_closed (history : History Command.Hosted (.empty P) x turns)
    (known : u.Known (x.scene turns).events)
    (sound : ∀ turn ∈ turns, turn.stream = u.stream → ¬ turn.Fails)
    (closed : .closed u.half ∈ x.journal) :
    u.Decided (x.scene turns) ∨ (x.half u.back).closed = true ∨ x.Closing u.back := by
  induction history with
  | refl => exact absurd closed List.not_mem_nil
  | @step x y turns history move ih =>
      have calm := history.run.calm calm_empty
      have reachable := history.reachable
      have steps := move.steps calm turns
      have later := Scene.Steps.later steps
      have orderly := (History.step history move).reachable.orderly
      have sound : ∀ turn ∈ turns, turn.stream = u.stream → ¬ turn.Fails :=
        fun turn mem => sound turn (List.mem_append_right _ mem)
      by_cases old : .closed u.half ∈ x.journal
      · have lt := closed_lt history old
        have known := known.before later reachable.orderly orderly lt
        rcases ih known sound old with decided | shut | closing
        · exact .inl (decided.later later)
        · exact .inr (.inl (later.closed u.back lt shut))
        · exact .inr (closing.move calm move)
      have guarded (h : HalfId) : (x.half h).Guarded := (calm.halves h).toGuarded
      obtain ⟨next, rest, agenda⟩ := (move.closes guarded closed).resolve_left old
      obtain ⟨idle, -, -, th, threads⟩ := calm.next agenda
      have inside : th.move (.closing u.half) ∈ (Work.close u.half next).threads := by
        rw [Work.threads, threads]
        exact List.mem_cons_self
      have mem : th.move (.closing u.half) ∈ x.threads :=
        mem_threads_agenda (agenda ▸ List.mem_cons_self) inside
      have proper := reachable.cast _ mem
      have lt : u.stream < (x.scene turns).kinds.length := proper.closes_lt (.inl rfl)
      have known := known.before later reachable.orderly orderly lt
      rcases u.closer reachable known mem (.inl rfl) with shut | decided | ⟨owner, still⟩
      · exact absurd ((mem_events rfl turns).mp (u.closed_event reachable known shut)) old
      · exact .inl (decided.later later)
      · refine .inr (.inr ?_)
        have unreported : ¬ (th.move (.closing u.half)).Reports u.stream := by
          intro reports
          obtain ⟨turn, took, same, fails⟩ := reachable.reported mem reports
          exact sound turn took same fails
        obtain ⟨o, stage⟩ := proper.closes_next owner still unreported
        have first : ∃ th ∈ next.threads, ∃ next, th.stage = .closing u.back next :=
          ⟨th, threads ▸ List.mem_cons_self, _, stage⟩
        exact ⟨next, rest, move.after_close calm agenda, first⟩

/-- A response comes after everything passed, unless a failure of the handler is reported. -/
theorem decided_of_answered (history : History Command.Hosted (.empty P) x turns)
    (known : u.Known (x.scene turns).events)
    (sound : ∀ turn ∈ turns, turn.stream = u.stream → ¬ turn.Fails) {v}
    (handed : .handed u.back (.payload v) ∈ x.journal) : u.Decided (x.scene turns) := by
  induction history with
  | refl => exact absurd handed List.not_mem_nil
  | @step x y turns history move ih =>
      have calm := history.run.calm calm_empty
      have reachable := history.reachable
      have reached := (History.step history move).reachable
      have steps := move.steps calm turns
      have later := Scene.Steps.later steps
      have sound : ∀ turn ∈ turns, turn.stream = u.stream → ¬ turn.Fails :=
        fun turn mem => sound turn (List.mem_append_right _ mem)
      by_cases old : .handed u.back (.payload v) ∈ x.journal
      · have lt := (reachable.seals _ _ ((mem_events rfl turns).mpr old)).1
        have known := known.before later reachable.orderly reached.orderly lt
        exact (ih known sound old).later later
      have busy := (move.hands calm handed).resolve_left old
      have closed :=
        u.closed_event reached known (u.answered reached known ((mem_events rfl _).mpr handed))
      have guarded (h : HalfId) : (x.half h).Guarded := (calm.halves h).toGuarded
      rcases move.closes guarded ((mem_events rfl _).mp closed) with before | ⟨next, rest, agenda⟩
      · have lt := closed_lt history before
        have known := known.before later reachable.orderly reached.orderly lt
        rcases closing_of_closed history known sound before with decided | shut | closing
        · exact decided.later later
        · have early :=
            Scene.Steps.handed (h := u.back) steps lt shut ((mem_events rfl _).mpr handed)
          exact absurd ((mem_events rfl turns).mp early) old
        · exact absurd (closing.silent calm move handed) old
      · rcases busy _ _ agenda with ⟨h, t, same⟩ | ⟨i, role, m, t, same⟩ <;> exact nomatch same

/-- If a call that writes an object resolves, then its source was exhausted and everything that it
yielded was taken in order, provided that the handler waits for each of its calls or does not fail.
-/
theorem passed_all_of_fulfilled (history : History Command.Hosted (.empty P) x turns)
    (called : .called u.call (.plugin u.pluginCall) ∈ x.journal)
    (opened : .opened u.call u.stream ∈ x.journal)
    (sound : (∀ turn ∈ turns, turn.stream = u.stream → ¬ turn.Forks) ∨
      ∀ turn ∈ turns, turn.stream = u.stream → ¬ turn.Fails)
    {v} (settled : .settled u.call (.fulfilled v) ∈ x.journal) :
    u.source.ending x.gates.outcome? = .exhausted ∧
      x.passed u.half = u.requests (u.source.yields x.gates.outcome?) := by
  have reachable := history.reachable
  have known : u.Known (x.scene turns).events :=
    ⟨(mem_events rfl turns).mpr called, (mem_events rfl turns).mpr opened⟩
  have settled : .settled u.call (.fulfilled v) ∈ (x.scene turns).events :=
    (mem_events rfl turns).mpr settled
  rw [← passed_scene x u.half turns]
  cases u.account reachable known with
  | writing mem =>
      exact absurd (Scene.mem_names.mpr ⟨_, mem, rfl⟩) (reachable.owned.settled settled).1
  | @finished o finished _ _ acked =>
      obtain rfl : o = .ok v := by
        have same := finished.settled _ settled
        cases o with
        | ok => exact congrArg _ (Settlement.fulfilled.inj same).symm
        | error => exact nomatch same
      obtain ⟨⟨chunks, rest, sent⟩, handed⟩ := acked v rfl
      have decided : u.Decided (x.scene turns) := by
        rcases sound with unforked | sound
        · exact u.decided_of_unforked reachable known unforked handed
        · exact decided_of_answered history known sound ((mem_events rfl turns).mp handed)
      obtain ⟨yields, ending⟩ := sent.whole decided
      exact ⟨ending, sent.passed.trans (congrArg _ yields.symm)⟩

def shortUpload : Upload := ⟨0, 0, "b", "k", ⟨false, [.chunk (.bytes [1])]⟩⟩

def shortTaken : Exchange (Loopback.plugin .default) :=
  ((empty _).command (.call (.plugin shortUpload.pluginCall))).advance 120

theorem shortTaken_passed : (∃ v, .settled 0 (.fulfilled v) ∈ shortTaken.journal) ∧
    shortTaken.passed shortUpload.half = shortUpload.requests [.bytes [1]] := by
  have run : Run Command.Hosted (.empty _) shortTaken :=
    (Move.command rfl trivial).run.trans (run_advance _ _)
  obtain ⟨turns, history⟩ := run.history
  have settled : ∃ v, .settled 0 (.fulfilled v) ∈ shortTaken.journal :=
    ⟨_, List.mem_of_getElem? (i := 0) rfl⟩
  obtain ⟨v, settled⟩ := settled
  refine ⟨⟨v, settled⟩, ?_⟩
  exact (passed_all_of_fulfilled (u := shortUpload) history
    (List.mem_of_getElem? (i := 11) rfl) (List.mem_of_getElem? (i := 10) rfl)
    (.inl fun turn _ _ => Loopback.not_forks turn) settled).2

/-- What is left of it when a handler starts to respond, does not wait for that, and fails. -/
def hastyResponse : Exchange (Scripted.plugin
    ⟨[], [[.spawns (.calls (.respond (.object []))), .throws (.text "boom")]]⟩) :=
  ((empty _).command (.call (.plugin shortUpload.pluginCall))).advance 120

/-- The call resolves though its chunk was not taken. -/
theorem hastyResponse_untaken : (∃ v, .settled 0 (.fulfilled v) ∈ hastyResponse.journal) ∧
    hastyResponse.passed shortUpload.half = [] :=
  ⟨⟨_, List.mem_of_getElem? (i := 2) rfl⟩, rfl⟩

end Exchange

end ObjectTransfer
