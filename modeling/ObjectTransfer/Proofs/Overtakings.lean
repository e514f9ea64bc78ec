import ObjectTransfer.Proofs.Acknowledgements
import ObjectTransfer.Proofs.Failures
import ObjectTransfer.Proofs.Leaks
import ObjectTransfer.Proofs.Pulls

/-! # How the failure of a handler overtakes an upload

A handler of an upload may fail at any moment, whatever the call that writes the object waits for.
From then on nobody takes its chunks, so it stops to pull them. The service closes the request half,
so the call turns to the response half. Nobody but the service closes that half before a response
passed (`Reachable.closer_back`), and so the failure passes there and the call rejects with it
(`Exchange.failure_overtakes`).
-/

namespace ObjectTransfer

variable {P : Plugin} {s s' : Scene P} {i : StreamId} {th : Thread P} {f : Fault}

theorem Method.closesOpen_upload {m : Method} {side : Side}
    (entry : m.entry .upload .client = .closesOpen side) : side = .requests := by
  have payload {parameter terminal relayed v} :
      Entry.ofPayload .requests parameter terminal relayed v ≠ .closesOpen side := by
    unfold Entry.ofPayload
    split <;> rintro ⟨⟩
  have error {complaint relayed v} :
      Entry.ofError .requests complaint relayed v ≠ .closesOpen side := by
    cases v <;> rintro ⟨⟩
  cases m with
  | halfClose =>
      cases entry
      rfl
  | send => exact absurd entry payload
  | sendRaw v =>
      simp only [Method.entry, Entry.ofRaw] at entry
      split at entry
      · cases entry
      · split at entry
        · exact absurd entry payload
        · exact absurd entry error
        · split at entry <;> cases entry
  | _ => cases entry

namespace Scene

/-- Whoever leads to the closing of the response half of an upload is its service, or a response
passed. -/
theorem Reachable.closer_back (reachable : s.Reachable) (kind : s.kindOf i = .upload)
    (unforked : s.Unforked i) (mem : th ∈ s.threads) (closes : th.stage.Closes ⟨i, .responses⟩) :
    th.owner = .service i ∨ ∃ m, .handed ⟨i, .responses⟩ m ∈ s.events := by
  obtain ⟨-, owner | beside | ⟨-, m, -, -, entering | hasStage⟩⟩ :=
    (reachable.cast th mem).closer closes
  · exact .inl owner
  · exact absurd beside (reachable.not_beside unforked th mem)
  · rw [entering] at closes
    exact closes.elim
  refine .inr ?_
  have fits := m.entry_fits (s.kindOf i) .client
  have requests := @Method.closesOpen_upload m
  rw [kind] at hasStage fits
  generalize th.stage = st at hasStage closes
  generalize m.entry .upload .client = e at hasStage fits requests
  cases hasStage with
  | receives receives =>
      obtain rfl : _ = Side.responses := fits
      obtain ⟨-, f, handed⟩ := receives.closes closes
      exact ⟨_, handed⟩
  | thenReceives _ receives =>
      obtain ⟨-, f, handed⟩ := receives.closes closes
      exact ⟨_, handed⟩
  | sends sends =>
      obtain ⟨rfl, -⟩ := fits
      cases sends with
      | closing => exact closes.elim nofun False.elim
      | _ => exact closes.elim
  | closing => exact nomatch fits.2
  | closingOpen =>
      obtain rfl := requests rfl
      exact closes.elim nofun False.elim
  | closingFirst => exact closes.elim nofun False.elim
  | _ => exact closes.elim

theorem Reachable.closed_of_answered (reachable : s.Reachable) (kind : s.kindOf i = .upload)
    (unforked : s.Unforked i) {m} (handed : .handed ⟨i, .responses⟩ m ∈ s.events) :
    s.closed ⟨i, .responses⟩ = true ∨
      ∃ th ∈ s.threads, th.owner = .service i ∧ th.stage.Closes ⟨i, .responses⟩ := by
  induction reachable with
  | refl => exact absurd handed List.not_mem_nil
  | @tail s s' steps step ih =>
      have reached : s.Reachable := steps
      have later := step.later
      have unforked := unforked.before later
      rcases step.handed handed with old | ⟨-, fs, w, terminal, fs', w', wants, offers, -, sent⟩
      · have lt : i < s.kinds.length := (reached.seals _ _ old).1
        rcases ih ((later.kindOf lt).symm.trans kind) unforked old with
          closed | ⟨th, mem, owner, closes⟩
        · exact .inl (later.closed _ lt closed)
        · exact (step.closes mem closes).imp_right fun ⟨st, mem, closes⟩ => ⟨_, mem, owner, closes⟩
      · have lt : i < s.kinds.length := (reached.cast.hears wants rfl).1
        obtain ⟨owner, -⟩ := reached.voice unforked offers rfl
        obtain ⟨j, role, m', -, calls, inCall⟩ := (reached.cast _ offers).calls trivial
        obtain ⟨rfl, rfl⟩ := calls.of_service owner
        have final : m.Final (s.kindOf j) .server := by
          rw [(later.kindOf lt).symm.trans kind]
          cases m with
          | payload => exact ⟨rfl, rfl⟩
          | failure => trivial
        rw [inCall.offering.2.1.mpr final] at sent
        exact .inr ⟨_, sent, owner, .inl rfl⟩

theorem Step.untaken (step : Step s s') (reachable : s.Reachable) (unforked : s.Unforked i)
    (still : ¬ s.Running i) : s'.passed ⟨i, .requests⟩ = s.passed ⟨i, .requests⟩ := by
  obtain ⟨es, events, calm | ⟨h, m, fs, w, terminal, fs', w', rfl, -, wants, -⟩⟩ := step.news
  · exact passed_eq es events (calm _)
  · refine passed_eq _ events fun m' mem => ?_
    obtain ⟨rfl, rfl⟩ : ⟨i, .requests⟩ = h ∧ m' = m := by simpa using mem
    obtain ⟨owner, runs⟩ := reachable.hearer unforked wants rfl
    exact still ⟨_, wants, owner, runs⟩

end Scene

namespace Upload

variable {u : Upload} {k n : Nat} {w : Writing} {st : Stage}

theorem Shape.unaborted (shape : u.Shape s) (unfailing : ∀ v, u.source.ending s.gates ≠ .failed v) :
    .handed u.half (.failure f) ∉ s.events := by
  intro handed
  cases shape with
  | sent sent =>
      have mem := Scene.mem_passed.mpr handed
      rw [sent.passed] at mem
      simp [requests] at mem
  | @aborted _ _ v _ passes fails =>
      refine unfailing v ?_
      rw [Source.ending, passes.yield, fails.yield]

/-- A writer whose source does not fail learns how its handler ended before it ends. -/
theorem Ended.known (ended : u.Ended s) (shape : u.Shape s)
    (unfailing : ∀ v, u.source.ending s.gates ≠ .failed v) :
    s.closed u.half = true ∧ s.Answered u.stream := by
  cases ended with
  | aborted handed => exact absurd handed (shape.unaborted unfailing)
  | @textless _ _ v _ passes fails =>
      refine absurd ?_ (unfailing v)
      rw [Source.ending, passes.yield, fails.yield]
  | answered closed answered => exact ⟨closed, answered⟩

/-- How far the failure of the handler of an upload got: its service is to deliver it over a half
that is still open, the writer was given it, or the call rejects with it. -/
inductive Reporting (s : Scene P) (u : Upload) (f : Fault) : Prop where
  | pledged {service} : service ∈ s.threads → service.Pledges u.stream f → s.closed u.back = false →
    (∀ m, .handed u.back m ∉ s.events) → Reporting s u f
  | told {number writer stage} : u.thread number writer stage ∈ s.threads →
    writer.phase = .acknowledging → stage.outcome? = some (.error (.fault f)) → Reporting s u f
  | rejected : s.Over u.call (.error (.fault f)) → Reporting s u f

/-- A service that is to deliver a failure does so, to the writer. -/
theorem Reporting.pledge {service : Thread P} (mem : service ∈ s.threads)
    (pledges : service.Pledges u.stream f) (isOpen : s.closed u.back = false)
    (unanswered : ∀ m, .handed u.back m ∉ s.events) (reachable : s.Reachable)
    (known : u.Known s.events) (unforked : s.Unforked u.stream)
    (unfailing : ∀ v, u.source.ending s.gates ≠ .failed v) (step : Scene.Step s s') :
    u.Reporting s' f := by
  have owned := reachable.owned
  have kind := known.kind reachable.orderly
  have lt : u.back.stream < s.kinds.length := (reachable.orderly.opened known.opened).2
  have isOpen' : s'.closed u.back = false := by
    rw [← Bool.not_eq_true]
    intro closed
    rcases (step.doomed lt closed).2 with closed | ⟨th, inside, closes⟩
    · exact nomatch isOpen.symm.trans closed
    · rcases reachable.closer_back kind unforked inside closes with owner | ⟨m, handed⟩
      · obtain rfl := owned.eq_service inside mem owner pledges.owner
        exact pledges.not_closes closes
      · exact unanswered m handed
  by_cases answered : ∃ m, .handed u.back m ∈ s'.events
  · obtain ⟨m, handed⟩ := answered
    obtain ⟨-, fs, w, terminal, fs', w', wants, offers, received, -⟩ :=
      (step.handed handed).resolve_left (unanswered m)
    obtain ⟨owner, -⟩ := reachable.voice unforked offers rfl
    obtain rfl := owned.eq_service offers mem owner pledges.owner
    cases pledges
    obtain ⟨-, k, v, same, phase⟩ := u.waiter reachable known wants
    have sound := (u.drawn reachable known (same ▸ wants)).sound unfailing
    cases same
    refine .told received (phase.resolve_left ?_) rfl
    rintro ⟨f', discarding⟩
    rw [discarding] at sound
    exact sound
  · rcases pledges.step mem step isOpen' with ⟨th, mem, pledges⟩ | handed
    · exact .pledged mem pledges isOpen' fun m handed => answered ⟨m, handed⟩
    · exact absurd ⟨_, handed⟩ answered

theorem Reporting.step (reporting : u.Reporting s f) (reachable : s.Reachable)
    (known : u.Known s.events) (unforked : s.Unforked u.stream)
    (unfailing : ∀ v, u.source.ending s.gates ≠ .failed v)
    (step : Scene.Step s s') : u.Reporting s' f := by
  cases reporting with
  | pledged mem pledges isOpen unanswered =>
      exact .pledge mem pledges isOpen unanswered reachable known unforked unfailing step
  | @told k w st mem phase outcome =>
      obtain ⟨parts⟩ := step.parts
      obtain ⟨ths, becomes, results⟩ := parts.fate mem
      rcases becomes.cases parts.events_eq with ⟨stage, rfl, goes⟩ | turns
      · exact .told (results _ List.mem_cons_self) phase (goes.outcome outcome)
      · generalize parts.events = es at turns
        obtain ⟨bucket, key, source, phase⟩ := w
        cases phase
        cases turns
        cases outcome
        exact .rejected (.of_thread (reachable.owned.step step) (results _ List.mem_cons_self))
  | rejected finished =>
      exact .rejected (finished.step (reachable.orderly.opened known.opened).1 step)

/-- What holds from the failure of the handler of an upload on, when so many chunks were pulled
before. -/
structure Overtaken (s : Scene P) (u : Upload) (f : Fault) (k n : Nat) : Prop where
  reporting : u.Reporting s f
  still : ¬ s.Running u.stream
  spares : u.Spares s k n

theorem Overtaken.step (overtaken : u.Overtaken s f k n) (reachable : s.Reachable)
    (known : u.Known s.events) (unforked : s.Unforked u.stream)
    (unfailing : ∀ v, u.source.ending s.gates ≠ .failed v) (step : Scene.Step s s') :
    u.Overtaken s' f k n where
  reporting := overtaken.reporting.step reachable known unforked unfailing step
  still running :=
    overtaken.still (running.before (reachable.orderly.opened known.opened).2 reachable.cast step)
  spares :=
    overtaken.spares.step reachable known step (step.untaken reachable unforked overtaken.still)

theorem Overtaken.steps {t : Scene P} (overtaken : u.Overtaken t f k n) (reachable : t.Reachable)
    (known : u.Known t.events) (steps : Scene.Steps t s) (unforked : s.Unforked u.stream)
    (unfailing : ∀ v, u.source.ending s.gates ≠ .failed v) : u.Overtaken s f k n := by
  induction steps with
  | refl => exact overtaken
  | @tail s s' steps step ih =>
      have later := Scene.Steps.later steps
      have unforked := unforked.before step.later
      have unfailing := unfailing_before step.later unfailing
      exact (ih unforked unfailing).step (reachable.trans steps)
        ⟨later.mem known.called, later.mem known.opened⟩
        unforked unfailing step

/-- The moment when the service learns that the handler failed. -/
theorem overtaken {v : Value} (reachable : s.Reachable) (known : u.Known s.events)
    (unforked : s.Unforked u.stream) (unfailing : ∀ v, u.source.ending s.gates ≠ .failed v)
    (failed : ⟨.bound (.error v), [.serving u.stream], .service u.stream⟩ ∈ s.threads)
    (isOpen : s.closed u.back = false) (apart : v.isStreamClosed = false)
    (fault : v.toFault? = .ok f) :
    ∃ k w st, u.thread k w st ∈ s.threads ∧ u.Overtaken s f k (Event.pulls s.events k) := by
  have unanswered (m) : .handed u.back m ∉ s.events := by
    intro handed
    rcases reachable.closed_of_answered (known.kind reachable.orderly) unforked handed with
      closed | ⟨th, mem, owner, closes⟩
    · exact nomatch isOpen.symm.trans closed
    · cases reachable.owned.eq_service mem failed owner rfl
      exact closes
  have still : ¬ s.Running u.stream := by
    rintro ⟨th, mem, owner, runs⟩
    cases reachable.owned.eq_service mem failed owner rfl
    exact Thread.bound_not_runs runs
  cases u.account reachable known with
  | writing mem =>
      exact ⟨_, _, _, mem, .pledged failed (.told apart fault) isOpen unanswered, still,
        .writing mem (.inl le_rfl)⟩
  | finished _ shape ended =>
      rcases (ended.known shape unfailing).2 with closed | ⟨m, handed⟩
      · exact nomatch isOpen.symm.trans closed
      · exact absurd handed (unanswered m)

/-- When the call ends, it rejects with the failure, and its source was told to end. -/
theorem Overtaken.settled (overtaken : u.Overtaken s f k n) (reachable : s.Reachable)
    (known : u.Known s.events) (unfailing : ∀ v, u.source.ending s.gates ≠ .failed v) {so}
    (settled : .settled u.call so ∈ s.events) :
    so = .rejected (.fault f) ∧ .sourceEnded k ∈ s.events := by
  have gone {th : Thread P} (mem : th ∈ s.threads) (named : th.owner.name? = some (.inl u.call)) :
      False :=
    (reachable.owned.settled settled).1 (Scene.mem_names.mpr ⟨th, mem, named⟩)
  refine ⟨?_, ?_⟩
  · cases overtaken.reporting with
    | pledged _ _ isOpen unanswered =>
        cases u.account reachable known with
        | writing mem => exact (gone mem rfl).elim
        | finished _ shape ended =>
            rcases (ended.known shape unfailing).2 with closed | ⟨m, handed⟩
            · exact nomatch isOpen.symm.trans closed
            · exact absurd handed (unanswered m)
    | told mem => exact (gone mem rfl).elim
    | rejected finished => exact finished.settled _ settled
  · cases overtaken.spares with
    | writing mem => exact (gone mem rfl).elim
    | ended _ _ _ _ ended => exact ended

end Upload

namespace Exchange

variable {x y : Exchange P} {before after : List (HandlerTurn P)} {u : Upload}

theorem pulls_scene (x : Exchange P) (turns : List (HandlerTurn P)) (k : Nat) :
    Event.pulls (x.scene turns).events k = Event.pulls x.journal k := by
  rw [Event.pulls, Event.pulls, scene, List.countP_filter]
  congr 1
  funext e
  cases e <;> simp [Event.isPull, Event.isLogged]

/-- When nothing can go on, the call does not wait any more. -/
theorem over_of_overtaken {k n : Nat} (history : History Command.Hosted (.empty P) x after)
    (overtaken : u.Overtaken (x.scene after) f k n) (known : u.Known (x.scene after).events)
    (quiet : x.isQuiet = true) (exhausted : u.source.ending (x.scene after).gates = .exhausted) :
    (x.scene after).Over u.call (.error (.fault f)) := by
  have reachable := history.reachable
  have still := quiet_scene quiet after
  cases overtaken.reporting with
  | @pledged service mem pledges isOpen unanswered =>
      have parked := still.parked service mem
      cases pledges with
      | offering =>
          have ended : (x.scene after).closed u.half = true := by
            cases reachable.cast _ mem with
            | delivering _ delivers =>
                cases delivers with
                | calling closed => exact closed
          have told : (u.source.ending (x.scene after).gates).IsTold := exhausted ▸ trivial
          rcases u.rests reachable known still told with
            ⟨k, w, m, terminal, offers⟩ | ⟨-, k, w, wants⟩ | ⟨-, answered⟩
          · have isOpen := Half.channel_open (history.run.calm calm_empty |>.halves _).toGuarded
              (mem_half_threads (h := u.half) offers rfl)
            exact nomatch isOpen.symm.trans ended
          · exact (Half.not_both (mem_half_threads (h := u.back) wants rfl)
              (mem_half_threads mem rfl)).elim
          · have unfailing (v) : u.source.ending (x.scene after).gates ≠ .failed v :=
              exhausted ▸ nofun
            rcases (answered.known (u.account reachable known).shape unfailing).2 with
              closed | ⟨m, handed⟩
            · exact nomatch isOpen.symm.trans closed
            · exact absurd handed (unanswered m)
      | _ => exact parked.elim
  | @told _ _ st mem _ outcome =>
      have parked : st.IsParked := still.parked _ mem
      cases st with
      | wanting | offering | waiting => exact nomatch outcome
      | _ => exact parked.elim
  | rejected finished => exact finished

/-- A handler of an upload that waits for each of its calls fails with something that has a text and
is no closure of a stream, while the response half is open. Whatever the call that writes the object
waits for, unless its source fails it pulls one chunk more at most and settles with nothing but a
rejection with that failure. It rejected when nothing can go on, unless the source waits. Then both
halves are closed and the stream is not active any more. -/
theorem failure_overtakes (first : History Command.Hosted (.empty P) y before)
    (second : History Command.Hosted y x after) {v : Value}
    (called : .called u.call (.plugin u.pluginCall) ∈ x.journal)
    (opened : .opened u.call u.stream ∈ x.journal)
    (awaits : ∀ turn ∈ after ++ before, turn.stream = u.stream → ¬ turn.Forks)
    (unfailing : ∀ v, u.source.ending x.gates.outcome? ≠ .failed v)
    (failed : ⟨.bound (.error v), [.serving u.stream], .service u.stream⟩ ∈ y.threads)
    (isOpen : (y.half u.back).closed = false) (apart : v.isStreamClosed = false)
    (fault : v.toFault? = .ok f) :
    (∃ k w st, u.thread k w st ∈ y.threads ∧ Event.pulls x.journal k ≤ Event.pulls y.journal k + 1 ∧
      ∀ so, .settled u.call so ∈ x.journal → so = .rejected (.fault f) ∧
      .sourceEnded k ∈ x.journal) ∧
    (x.isQuiet = true → u.source.ending x.gates.outcome? = .exhausted →
      .settled u.call (.rejected (.fault f)) ∈ x.journal) ∧
    (x.isQuiet = true → ∀ so, .settled u.call so ∈ x.journal →
      (x.half u.half).closed = true ∧ (x.half u.back).closed = true ∧ u.stream ∉ x.active) := by
  have history := first.trans second
  have started := first.reachable
  have reachable := history.reachable
  have steps := second.steps (first.run.calm calm_empty) before
  have later := Scene.Steps.later steps
  have known : u.Known (x.scene (after ++ before)).events :=
    ⟨(mem_events rfl _).mpr called, (mem_events rfl _).mpr opened⟩
  have knownBefore : u.Known (y.scene before).events :=
    known.before later started.orderly reachable.orderly ((started.cast _ failed).service_lt rfl)
  have unforked : (x.scene (after ++ before)).Unforked u.stream := awaits
  obtain ⟨k, w, st, mem, begun⟩ := u.overtaken started knownBefore (unforked.before later)
    (Upload.unfailing_before later unfailing) failed isOpen apart fault
  have overtaken := begun.steps started knownBefore steps unforked unfailing
  refine ⟨⟨k, w, st, mem, ?_, fun so settled => ?_⟩, fun quiet exhausted => ?_,
    fun quiet so settled => ?_⟩
  · rw [← pulls_scene x (after ++ before), ← pulls_scene y before]
    exact overtaken.spares.le
  · obtain ⟨rejected, ended⟩ :=
      overtaken.settled reachable known unfailing ((mem_events rfl _).mpr settled)
    exact ⟨rejected, (mem_events rfl _).mp ended⟩
  · have finished := over_of_overtaken history overtaken known quiet exhausted
    rcases reachable.owned.kept (reachable.orderly.opened known.opened).1 with named | ⟨so, settled⟩
    · obtain ⟨th, mem, named⟩ := Scene.mem_names.mp named
      have parked := (quiet_scene quiet (after ++ before)).parked th mem
      rw [finished.threads th mem named] at parked
      exact parked.elim
    · rw [finished.settled so settled] at settled
      exact (mem_events rfl _).mp settled
  · have still := quiet_scene quiet (after ++ before)
    have settled := (mem_events rfl (after ++ before)).mpr settled
    have shape := (u.account reachable known).shape
    rcases reachable.write_ended known.called known.opened settled with
      ⟨requests, responses⟩ | ⟨f, handed⟩ | ⟨v, f, ending, -⟩
    · have closed := still.closed requests
      have closed' := still.closed responses
      refine ⟨closed, closed', fun active => ?_⟩
      have lt := (reachable.orderly.opened known.opened).2
      have isOpen := (reachable.listed.mem_active still.pending lt).mp active
      simp [closed, closed'] at isOpen
    · exact absurd handed (shape.unaborted unfailing)
    · exact absurd ending (unfailing v)

def longUpload : Upload :=
  ⟨0, 0, "b", "k", ⟨false, [.chunk (.bytes [1]), .chunk (.bytes [2]), .chunk (.bytes [3])]⟩⟩

/-- A call that writes them to a handler that receives once and fails. -/
def brokenWrite : Exchange (Scripted.plugin ⟨[], [[.calls .receive, .throws (.text "boom")]]⟩) :=
  (empty _).command (.call (.plugin longUpload.pluginCall))

/-- Its handler fails, and the service is about to learn of it. -/
theorem brokenWrite_told : ⟨.bound (.error (.text "boom")), [.serving 0], .service 0⟩ ∈
    (brokenWrite.advance 27).threads := by
  have agenda : (brokenWrite.advance 27).agenda =
    [.give (.error (.text "boom")) ⟨[.serving 0], .service 0⟩] := rfl
  have mem : ⟨.bound (.error (.text "boom")), [.serving 0], .service 0⟩ ∈
      (brokenWrite.advance 27).agenda.flatMap Work.threads := by
    rw [agenda]
    exact List.mem_cons_self
  simp only [threads, Multiset.mem_add, Multiset.mem_coe]
  exact Or.inl (Or.inl (Or.inl mem))

theorem brokenWrite_rejects : ∃ f, Value.toFault? (.text "boom") = .ok f ∧
    .settled 0 (.rejected (.fault f)) ∈ ((brokenWrite.advance 27).advance 67).journal ∧
    (((brokenWrite.advance 27).advance 67).half longUpload.half).closed = true ∧
    (((brokenWrite.advance 27).advance 67).half longUpload.back).closed = true ∧
    0 ∉ ((brokenWrite.advance 27).advance 67).active := by
  have begun : Move Command.Hosted (empty _) brokenWrite := .command rfl trivial
  have first := (History.refl.step begun).trans (history_advance 27 _)
  have second : History Command.Hosted (brokenWrite.advance 27) _ _ := history_advance 67 _
  have quiet : ((brokenWrite.advance 27).advance 67).isQuiet = true := rfl
  obtain ⟨-, rejects, closes⟩ := failure_overtakes (u := longUpload) first second
    (List.mem_of_getElem? (i := 15) rfl) (List.mem_of_getElem? (i := 14) rfl) (by decide) nofun
    brokenWrite_told rfl rfl rfl
  have settled := rejects quiet rfl
  exact ⟨_, rfl, settled, closes quiet _ settled⟩

end Exchange

end ObjectTransfer
