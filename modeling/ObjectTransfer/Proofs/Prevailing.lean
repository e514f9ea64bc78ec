import ObjectTransfer.Proofs.Precedence

/-! # The failure of a source prevails

A writer whose source failed fails with that failure, however the other side behaves
(`Exchange.failures_prevail`).
-/

namespace ObjectTransfer

variable {P : Plugin}

theorem Stage.outcome_of_succeeds {st : Stage} (ok : st.succeeds = true) :
    ∃ v, st.outcome? = some (.ok v) := by
  rw [succeeds] at ok
  split at ok
  next v outcome => exact ⟨v, outcome⟩
  next => cases ok

namespace Exchange

variable {x y : Exchange P} {kinds : List StreamKind} {ts ts' : List (HandlerTurn P)}
  {p : WriterCall} {f : Fault}
  {w : Writing} {st : Stage} {s₀ : Scene P} {h : HalfId} {m : Option Message}

def Since (x y : Exchange P) (e : Event) : Prop := ∃ es, y.journal = es ++ x.journal ∧ e ∈ es

theorem mem_of_since {e : Event} {es : List Event} (journal : y.journal = es ++ x.journal)
    (since : (x.scene ts).Since (y.scene ts') e) : e ∈ es := by
  obtain ⟨es', events, mem⟩ := since
  have grown : (y.scene ts').events = es.filter (!·.isLogged) ++ (x.scene ts).events := by
    simp [scene, journal]
  obtain rfl := List.append_cancel_right (events.symm.trans grown)
  exact List.mem_of_mem_filter mem

theorem since_of_scene {e : Event} (grown : x.journal <:+ y.journal)
    (since : (x.scene ts).Since (y.scene ts') e) : Since x y e := by
  obtain ⟨es, journal⟩ := grown
  exact ⟨es, journal.symm, mem_of_since journal.symm since⟩

/-- A half over which a message passes is not closed at once. -/
theorem Run.open_of_reached (run : Run (fun _ => True) (ofStreams P kinds) x)
    (move : Move (fun _ => True) x y)
    (reached : p.Reached (x.scene ts) (y.scene ts') f) : (y.half p.requests).closed = false := by
  refine Bool.eq_false_iff.mpr fun closed => ?_
  obtain ⟨next, rest, -, rfl⟩ := run.closing move reached.wasOpen closed
  have aside (e : Event) (shown : e.IsAside) : ∀ h m, e ≠ .handed h m := by
    rintro h m rfl
    exact shown
  obtain ⟨es, journal, none⟩ :=
    Adds.closeHalf (x := { x with agenda := rest }) aside (run.guarded p.requests)
    (by rintro _ _ ⟨⟩) next
  exact none _ (mem_of_since (x := x) journal reached.handed) _ _ rfl

/-! ## Who goes on with the call of a writer -/

theorem writer_returns (facts : (y.scene ts).WriterFacts) (mem : p.thread w st ∈ y.threads)
    {o : Outcome} {t : Task P} (inside : t.thread (.bound o) ∈ y.threads)
    (owner : t.owner = .call p.call) :
    st = .bound o ∧ t.frames.filter (!·.isRelaying) = [.writing p.stream p.source w] := by
  have same := facts.eq_writer mem inside owner
  exact ⟨(congrArg Thread.stage same).symm, congrArg Thread.frames same⟩

/-- A writer that is not told of a failure waits for its turn. -/
theorem writer_idle (facts : (y.scene ts).WriterFacts) (mem : p.thread w st ∈ y.threads)
    (started : w.phase ≠ .starting) (ok : st.succeeds = true) {wake : Wake P}
    (inside : .run wake ∈ y.agenda) (instant : (Work.run wake).Instant) :
    ¬ wake.Returns (.call p.call) := by
  intro returns
  cases wake with
  | returned o t =>
      have here := mem_threads_agenda inside (List.mem_singleton_self _)
      obtain ⟨rfl, frames⟩ := writer_returns facts mem here returns
      cases o with
      | error => cases ok
      | ok v =>
          simp only [Work.Instant] at instant
          split at instant
          next same =>
            rw [same] at frames
            cases frames
          next same =>
            rw [same] at frames
            cases frames
            exact started instant
          next => exact instant
  | sent | received | late => exact returns

/-- Whoever was given a message takes note of it before a writer that is not told yet. -/
theorem writer_precedes (facts : (y.scene ts).WriterFacts) (sober : y.Sober)
    (mem : p.thread w st ∈ y.threads) (untold : ∀ o, st ≠ .bound o) {th : Thread P}
    (given : th ∈ y.threads) (stage : th.stage = .received h m) :
    y.Precedes h m (.call p.call) := by
  have waits {wake : Wake P} (inside : ∀ th ∈ wake.threads, th ∈ y.threads) :
      ¬ wake.Returns (.call p.call) := by
    intro returns
    cases wake with
    | returned o t =>
        exact untold o (writer_returns facts mem (inside _ (List.mem_singleton_self _)) returns).1
    | sent | received | late => exact returns
  obtain ⟨t, ready | next⟩ := sober.received_mem given stage
  · obtain ⟨before, after, ready⟩ := List.append_of_mem ready
    refine .queued ready (fun wake mem => waits fun th here => ?_) fun wake inside =>
      waits fun th here => ?_
    · exact Wake.mem_threads (ready ▸ List.mem_append_left _ mem) here
    · exact mem_threads_agenda inside here
  · exact .next next

/-! ## Runs in which tasks go on in turn -/

/-- Since the source of a writer failed, a receive that took the failure was rejected with it, or is
before the writer goes on. -/
inductive Hears (s₀ : Scene P) (p : WriterCall) (f : Fault) (ts : List (HandlerTurn P))
    (x : Exchange P) : Prop where
  | noted :
    p.Aborts (s₀.Since (x.scene ts) (.received p.requests (.error (.fault f)))) s₀ (x.scene ts) f →
    Hears s₀ p f ts x
  | ahead {w : Writing} {st : Stage} : p.thread w st ∈ x.threads → w.phase ≠ .starting →
    st.succeeds = true →
    p.Tells True s₀ (x.scene ts) f w st → x.Precedes p.requests (some (.failure f)) (.call p.call) →
    Hears s₀ p f ts x

theorem Precedes.idle {owner : Owner} (precedes : x.Precedes h m owner) {wake : Wake P}
    (inside : .run wake ∈ x.agenda) : ¬ wake.Returns owner := by
  cases precedes with
  | next agenda =>
      rw [agenda] at inside
      cases List.mem_singleton.mp inside
      exact id
  | queued _ _ idle => exact idle wake inside

theorem Hears.serves (hears : Hears s₀ p f ts x) (run : Run (fun _ => True) (ofStreams P kinds) x)
    (known : p.Known (x.scene ts)) (before : Scene.Shifts s₀ (x.scene ts)) (serves : Serves x y)
    (shifts : Scene.Shifts (x.scene ts) (y.scene ts')) : Hears s₀ p f ts' y := by
  have later := Scene.Shifts.later shifts
  have facts := run.facts ts
  have facts' := facts.shifts shifts
  have sober' := (run.step serves.move).sober
  have sound := run.sound (sound_ofStreams P kinds)
  cases hears with
  | noted aborts =>
      have since {e} (old : s₀.Since (x.scene ts) e) : s₀.Since (y.scene ts') e := old.later later
      have after := aborts.shifts facts known before shifts
      by_cases reached : p.Reached (x.scene ts) (y.scene ts') f
      · have isOpen := run.open_of_reached serves.move reached
        cases after with
        | finished _ closed => exact absurd (isOpen.symm.trans closed) Bool.false_ne_true
        | @writing w st mem tells =>
            by_cases told : ∃ g, w.phase = .aborting g ∧ st.succeeds = true
            · obtain ⟨g, phase, ok⟩ := told
              rcases reached.received with noted | ⟨th, given, stage⟩
              · exact .noted
                  (.writing mem
                    (tells.mono fun _ _ _ _ => noted.earlier (Scene.Shifts.later before)))
              · -- The half is open still, so the writer is to close it first.
                have untold (o) : st ≠ .bound o := by
                  rintro rfl
                  exact Bool.false_ne_true
                    (isOpen.symm.trans (tells.closed (known.later later) phase))
                refine .ahead mem (by rw [phase]; rintro ⟨⟩) ok
                  (tells.mono fun _ _ _ _ => trivial) ?_
                exact writer_precedes facts' sober' mem untold given stage
            · exact .noted
                (.writing mem (tells.mono fun g phase ok _ => absurd ⟨g, phase, ok⟩ told))
      · exact .noted (after.mono fun took => took.elim since fun here => absurd here reached)
  | @ahead w st mem started ok tells precedes =>
      obtain ⟨v, outcome⟩ := st.outcome_of_succeeds ok
      obtain ⟨st', outcome', mem'⟩ :=
        run.sober.keeps sound run.guarded mem outcome (by rintro ⟨⟩)
        (fun _ => precedes.idle) serves.move
      have ok' : st'.succeeds = true := by rw [Stage.succeeds, outcome']
      have tells' : p.Tells True s₀ (y.scene ts') f w st' := by
        cases (WriterCall.Aborts.writing mem tells).shifts facts known before shifts with
        | writing inside tells =>
            cases facts'.eq_writer mem' inside rfl
            exact tells.mono fun _ _ _ _ => trivial
        | finished due => cases (due.threads _ mem' rfl).2.1
      rcases precedes.serves run.sober sound serves fun _ =>
        writer_idle facts' mem' started ok' with noted | ahead
      · have since : s₀.Since (y.scene ts') (.received p.requests (.error (.fault f))) := by
          refine Scene.Since.earlier ⟨[_], ?_, List.mem_singleton_self _⟩
            (Scene.Shifts.later before)
          exact congrArg (List.filter (!·.isLogged)) noted
        exact .noted (.writing mem' (tells'.mono fun _ _ _ _ => since))
      · exact .ahead mem' started ok' tells' ahead

theorem FirstCome.hears (firstCome : FirstCome x y)
    (run : Run (fun _ => True) (ofStreams P kinds) x) (known : p.Known (x.scene ts))
    (hears : Hears (x.scene ts) p f ts x) :
    ∃ ts', Scene.Shifts (x.scene ts) (y.scene ts') ∧ Hears (x.scene ts) p f ts' y := by
  induction firstCome with
  | refl => exact ⟨ts, .refl, hears⟩
  | @tail y z before serves ih =>
      obtain ⟨ts₁, shifts, hears⟩ := ih
      have run' := run.trans (FirstCome.run before)
      obtain ⟨ts₂, shifts'⟩ := run'.shifts serves.move.run ts₁
      have known' := known.later (Scene.Shifts.later shifts)
      exact ⟨ts₂, shifts.trans shifts', hears.serves run' known' shifts serves shifts'⟩

/-- A writer of an upload was just told that its source failed with this value. -/
structure SourceFails (x : Exchange P) (p : WriterCall) (v : Value) : Prop where
  upload : x.kindOf p.stream = .upload
  writer : ∃ w turns, w.phase = .asking (.failed v) turns ∧
    p.thread w (.bound (.ok .undefined)) ∈ x.threads

theorem SourceFails.aborts {v : Value} (fails : x.SourceFails p v)
    (facts : (x.scene ts).WriterFacts) (fault : v.toFault? = .ok f) :
    p.Known (x.scene ts) ∧ ∀ took, p.Aborts took (x.scene ts) (x.scene ts) f := by
  obtain ⟨w, turns, phase, mem⟩ := fails.writer
  refine ⟨facts.known mem ((kindOf_scene x ts p.stream).trans fails.upload),
    fun took => .writing mem ?_⟩
  rw [WriterCall.Tells, phase]
  exact ⟨fault, rfl⟩

/-- What became of the failure of a source, now that its writer settled. -/
structure Prevails (x y : Exchange P) (p : WriterCall) (f : Fault) (so : Settlement) : Prop where
  rejected : so = .rejected (.fault f)
  closed : (y.half p.requests).closed = true
  why : ∃ ts ts', Since x y (.handed p.requests (.failure f)) ∧
      (FirstCome x y → Since x y (.received p.requests (.error (.fault f)))) ∨
    p.Dropped (x.scene ts) (y.scene ts') f

/-- Once the source of a writer failed, whatever else is called and in whatever order tasks go on,
the writer settles with nothing but this failure, and the request half is closed then. Either a
receive took the failure, and was rejected with it by then if tasks go on in the order in which they
became ready; or the half was closed before, and the writer was given an outcome of the response
half first and dropped it. -/
theorem failures_prevail (run : Run (fun _ => True) (ofStreams P kinds) x) {v : Value}
    (fails : x.SourceFails p v) (fault : v.toFault? = .ok f) (later : Run (fun _ => True) x y)
    {so : Settlement}
    (settled : .settled p.call so ∈ y.journal) : Prevails x y p f so := by
  have facts := run.facts []
  obtain ⟨known, aborts⟩ := fails.aborts facts fault
  have settled' (ts) : .settled p.call so ∈ (y.scene ts).events := (mem_events rfl ts).mpr settled
  have since {ts e} (new : (x.scene []).Since (y.scene ts) e) : Since x y e :=
    since_of_scene (run.grown later) new
  have finished {ts} (shifts : Scene.Shifts (x.scene []) (y.scene ts)) :
      so = .rejected (.fault f) ∧ (y.scene ts).closed p.requests = true ∧
        (p.Reached (x.scene []) (y.scene ts) f ∨ p.Dropped (x.scene []) (y.scene ts) f) := by
    obtain ⟨rejected, closed, why⟩ :=
      ((aborts False).shifts facts known .refl shifts).settled (facts.shifts shifts) (settled' ts)
    exact ⟨rejected, closed, why.imp_left fun reached => reached.resolve_left id⟩
  by_cases firstCome : FirstCome x y
  · obtain ⟨ts, shifts, hears⟩ := firstCome.hears run known (.noted (aborts _))
    obtain ⟨rejected, closed, why⟩ := finished shifts
    refine ⟨rejected, closed, [], ts, ?_⟩
    rcases why with reached | dropped
    · cases hears with
      | noted aborts =>
          obtain ⟨-, -, noted⟩ := aborts.settled (facts.shifts shifts) (settled' ts)
          exact noted.imp_left fun noted => ⟨since reached.handed, fun _ => since noted⟩
      | ahead mem => exact absurd (settled' ts) ((facts.shifts shifts).unsettled mem so)
    · exact .inr dropped
  · obtain ⟨ts, shifts⟩ := run.shifts later []
    obtain ⟨rejected, closed, why⟩ := finished shifts
    refine ⟨rejected, closed, [], ts, why.imp_left fun reached => ⟨since reached.handed, ?_⟩⟩
    exact fun inTurn => absurd inTurn firstCome

/-- A client writes an object while a receive waits on the other side, and its source fails at once.
-/
def heardFailure : Exchange .idle :=
  let x :=
    ((ofStreams .idle [.upload]).command (.call (.stream 0 (.method .server .receive)))).advance 20
  (x.command (.call (.stream 0 (.write "bucket" "key" ⟨false, [.fails (.text "boom")]⟩)))).advance 1

/-- The receive is rejected with the failure, and so is the call. -/
theorem heardFailure_prevails : .settled 1 (.rejected (.fault (.error "boom"))) ∈
      (heardFailure.advance 40).journal ∧
    FirstCome heardFailure (heardFailure.advance 40) ∧
    Prevails heardFailure (heardFailure.advance 40) ⟨1, 0, 1⟩ (.error "boom")
      (.rejected (.fault (.error "boom"))) := by
  have run : Run (fun _ => True) (ofStreams .idle [.upload]) heardFailure := by
    rw [heardFailure]
    exact (Run.refl.command rfl trivial 20).command rfl trivial 1
  have fails : heardFailure.SourceFails ⟨1, 0, 1⟩ (.text "boom") := by
    refine ⟨rfl, _, 1, rfl,
      Wake.mem_threads (List.mem_of_getElem? (i := 0) rfl) (List.mem_singleton_self _)⟩
  have settled : .settled 1 (.rejected (.fault (.error "boom"))) ∈
      (heardFailure.advance 40).journal :=
    List.mem_of_getElem? (i := 0) rfl
  exact ⟨settled, firstCome_advance 40 _, failures_prevail run fails rfl (run_advance 40 _) settled⟩

end Exchange

end ObjectTransfer
