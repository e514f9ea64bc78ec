import ObjectTransfer.Proofs.WriterCalls

/-! # Uploads that are aborted

Once its source failed, a writer offers the failure on the request half. It fails with it in the
end, whatever the other side does: either a receive took the failure (`WriterCall.Reached`), or the
half was closed before, and then the writer was given one outcome of the response half and dropped
it (`WriterCall.Dropped`).
-/

namespace ObjectTransfer

variable {P : Plugin}

/-- Whether a stage is past the receipt of what a receive came to. -/
def Stage.Noted : Stage → Prop
  | bound _ => True
  | closing _ next => next.Noted
  | _ => False

namespace Scene

def Since (s₀ s : Scene P) (e : Event) : Prop := ∃ es, s.events = es ++ s₀.events ∧ e ∈ es

variable {s₀ s s' : Scene P} {e : Event}

theorem Since.later (since : s₀.Since s e) (later : Later s s') : s₀.Since s' e := by
  obtain ⟨es, events, mem⟩ := since
  obtain ⟨es', events'⟩ := later.events
  refine ⟨es' ++ es, ?_, List.mem_append_right _ mem⟩
  rw [← events', events, List.append_assoc]

theorem Since.earlier {t : Scene P} (since : t.Since s e) (later : Later s₀ t) : s₀.Since s e := by
  obtain ⟨es, events, mem⟩ := since
  obtain ⟨es', events'⟩ := later.events
  refine ⟨es ++ es', ?_, List.mem_append_left _ mem⟩
  rw [events, ← events', List.append_assoc]

theorem Shift.notes (shift : Shift s s') {th : Thread P} (mem : th ∈ s.threads) {h : HalfId}
    {m : Option Message} (stage : th.stage = .received h m) :
      (∃ es, s'.events = es ++ s.events ∧ .received h (Stage.receipt m) ∈ es) ∨
      ∃ th' ∈ s'.threads, th'.stage = .received h m := by
  obtain ⟨st, frames, owner⟩ := th
  cases stage
  cases shift with
  | step step =>
      obtain ⟨parts⟩ := step.parts
      obtain ⟨ths, becomes, results⟩ := parts.fate mem
      have events := parts.events_eq
      generalize parts.events = es at becomes events
      cases becomes with
      | solo solo =>
          cases solo
          exact .inl ⟨_, events, List.mem_singleton_self _⟩
      | aside | released | gate => exact .inr ⟨_, results _ (List.mem_singleton_self _), rfl⟩
  | aside aside => exact .inr ⟨_, by rw [aside.rest]; exact mem, rfl⟩
  | call => exact .inr ⟨_, Multiset.mem_add.mpr (.inr mem), rfl⟩
  | join => exact .inr ⟨_, Multiset.mem_cons_of_mem mem, rfl⟩

end Scene

namespace WriterCall

def requests (p : WriterCall) : HalfId := ⟨p.stream, .requests⟩

def responses (p : WriterCall) : HalfId := ⟨p.stream, .responses⟩

structure Known (s : Scene P) (p : WriterCall) : Prop where
  lt : p.stream < s.kinds.length
  kind : s.kindOf p.stream = .upload
  called : ∃ c, c.Writes ∧ .called p.call c ∈ s.events

/-- A receive took the failure: it was rejected with it, or is still to note it. -/
structure Reached (s₀ s : Scene P) (p : WriterCall) (f : Fault) : Prop where
  wasOpen : s₀.closed p.requests = false
  handed : s₀.Since s (.handed p.requests (.failure f))
  received : s₀.Since s (.received p.requests (.error (.fault f))) ∨
    ∃ th ∈ s.threads, th.stage = .received p.requests (some (.failure f))

/-- The request half was closed when the writer was given an outcome of the response half, which it
drops. -/
structure Dropped (s₀ s : Scene P) (p : WriterCall) (f : Fault) : Prop where
  closed : s.closed p.requests = true
  read : ∃ (t : Scene P) (w : Writing) (m : Option Message), Scene.Shifts s₀ t ∧ Scene.Shifts t s ∧
    t.closed p.requests = true ∧ w.phase = .discarding f ∧
    p.thread w (.received p.responses m) ∈ t.threads ∧
    t.Since s (.received p.responses (Stage.receipt m))

/-- What is known of a writer in its phase since its source failed, where its failure was taken only
if this holds. -/
def Tells (took : Prop) (s₀ s : Scene P) (p : WriterCall) (f : Fault) (w : Writing)
    (st : Stage) : Prop :=
  match w.phase with
  | .asking (.failed v) _ => v.toFault? = .ok f ∧ st = .bound (.ok .undefined)
  | .aborting g => g = f ∧ st.InCall s p.stream .client (.sendRaw (.rawError (.fault f))) ∧
    (st.succeeds = true → took)
  | .discarding g => g = f ∧ s.closed p.requests = true ∧
    st.InCall s p.stream .client .awaitResponse ∧
    (st.Noted → p.Dropped s₀ s f)
  | .failing g => g = f ∧ st = .bound (.ok .undefined) ∧ p.Dropped s₀ s f
  | _ => False

/-- What became of a call that writes since its source failed, where its failure was taken only if
this holds. -/
inductive Aborts (took : Prop) (s₀ s : Scene P) (p : WriterCall) (f : Fault) : Prop where
  | writing {w st} : p.thread w st ∈ s.threads → p.Tells took s₀ s f w st → Aborts took s₀ s p f
  | finished : s.Due p.call (.error (.fault f)) → s.closed p.requests = true →
    took ∨ p.Dropped s₀ s f → Aborts took s₀ s p f

variable {s₀ s₁ s s' : Scene P} {p : WriterCall} {f : Fault} {w : Writing} {st st' : Stage}
  {took : Prop}

theorem Known.later (known : p.Known s) (later : Scene.Later s s') : p.Known s' where
  lt := later.lt known.lt
  kind := (later.kindOf known.lt).trans known.kind
  called := known.called.imp fun _ => And.imp_right later.mem

theorem Known.entry_abort (known : p.Known s) (f : Fault) :
    (Method.sendRaw (.rawError (.fault f))).entry (s.kindOf p.stream) .client =
      .sends .requests (.failure f) true true := by
  rw [known.kind, Method.entry_abort]

theorem Known.entry_await (known : p.Known s) :
    Method.awaitResponse.entry (s.kindOf p.stream) .client = .closesAndReceives := by
  rw [known.kind]
  rfl

theorem Reached.shift (reached : p.Reached s₀ s f) (before : Scene.Later s₀ s)
    (shift : Scene.Shift s s') : p.Reached s₀ s' f where
  wasOpen := reached.wasOpen
  handed := reached.handed.later shift.later
  received := by
    rcases reached.received with known | ⟨th, mem, stage⟩
    · exact .inl (known.later shift.later)
    · rcases shift.notes mem stage with ⟨es, events, noted⟩ | goesOn
      · exact .inl (Scene.Since.earlier ⟨es, events, noted⟩ before)
      · exact .inr goesOn

theorem Dropped.shift (dropped : p.Dropped s₀ s f) (lt : p.stream < s.kinds.length)
    (shift : Scene.Shift s s') : p.Dropped s₀ s' f where
  closed := shift.later.closed _ lt dropped.closed
  read := by
    obtain ⟨t, w, m, before, after, closed, phase, mem, noted⟩ := dropped.read
    exact ⟨t, w, m, before, after.tail shift, closed, phase, mem, noted.later shift.later⟩

end WriterCall

theorem Scene.lt_of_upload {s : Scene P} {i : StreamId} (kind : s.kindOf i = .upload) :
    i < s.kinds.length := by
  refine Nat.lt_of_not_le fun le => ?_
  rw [Scene.kindOf, List.getElem?_eq_none le] at kind
  cases kind

theorem Scene.WriterFacts.known {s : Scene P} (facts : s.WriterFacts) {p : WriterCall} {w : Writing}
    {st : Stage}
    (mem : p.thread w st ∈ s.threads) (kind : s.kindOf p.stream = .upload) : p.Known s := by
  obtain ⟨n, c, owner, writes, called⟩ := facts.called mem rfl
  cases owner
  exact ⟨lt_of_upload kind, kind, c, writes, called⟩

namespace Stage

variable {s s' : Scene P} {h : HalfId} {i : StreamId} {st st' : Stage}

theorem Receives.noted_goes (receives : st.Receives s h) (goes : st.Goes s' st')
    (noted : st'.Noted) : st.Noted ∨ ∃ m, st = .received h m := by
  cases receives with
  | asking => cases goes <;> exact noted.elim
  | wanting =>
      cases goes with
      | @release h' =>
          simp only [release] at noted
          split at noted <;> exact noted.elim
      | _ => exact noted.elim
  | ended | taken => exact .inr ⟨_, rfl⟩
  | closing | eof | payload | failure => exact .inl trivial

theorem InCall.noted_goes (inCall : st.InCall s i .client .awaitResponse)
    (entry : Method.awaitResponse.entry (s.kindOf i) .client = .closesAndReceives)
    (kind : s'.kindOf i = s.kindOf i)
    (goes : st.Goes s' st') (noted : st'.Noted) :
    st.Noted ∨ ∃ m, st = .received ⟨i, .responses⟩ m := by
  rcases inCall with rfl | hasStage
  · cases goes with
    | enter =>
        rw [kind, entry] at noted
        exact noted.elim
    | stay | release | gate => exact noted.elim
  · rw [entry] at hasStage
    cases hasStage with
    | closingFirst => cases goes <;> exact noted.elim
    | thenReceives _ receives => exact receives.noted_goes goes noted

end Stage

namespace WriterCall

variable {s₀ s₁ s s' : Scene P} {p : WriterCall} {f : Fault} {w : Writing} {st st' : Stage}
  {took : Prop}

theorem Tells.shift (tells : p.Tells took s₀ s f w st) (known : p.Known s)
    (shift : Scene.Shift s s') : p.Tells took s₀ s' f w st := by
  have later := shift.later
  obtain ⟨bucket, key, source, phase⟩ := w
  cases phase with
  | asking answer turns => cases answer <;> exact tells
  | aborting g =>
      obtain ⟨same, inCall, reached⟩ := tells
      exact ⟨same, later.inCall known.lt inCall, reached⟩
  | discarding g =>
      obtain ⟨same, closed, inCall, dropped⟩ := tells
      exact ⟨same, later.closed _ known.lt closed, later.inCall known.lt inCall,
        fun noted => (dropped noted).shift known.lt shift⟩
  | failing g =>
      obtain ⟨same, stage, dropped⟩ := tells
      exact ⟨same, stage, dropped.shift known.lt shift⟩
  | _ => exact tells.elim

theorem Tells.mono {took' : Prop} (tells : p.Tells took s₀ s f w st)
    (more : ∀ g, w.phase = .aborting g → st.succeeds = true → took → took') :
    p.Tells took' s₀ s f w st := by
  obtain ⟨bucket, key, source, phase⟩ := w
  cases phase with
  | asking answer turns => cases answer <;> exact tells
  | aborting g =>
      obtain ⟨same, inCall, reached⟩ := tells
      exact ⟨same, inCall, fun ok => more g rfl ok (reached ok)⟩
  | _ => exact tells

/-- Once a writer is told what became of its failure, the request half is closed. -/
theorem Tells.closed {o : Outcome} {g : Fault} (tells : p.Tells took s₀ s f w (.bound o))
    (known : p.Known s)
    (phase : w.phase = .aborting g) : s.closed p.requests = true := by
  obtain ⟨bucket, key, source, _⟩ := w
  subst phase
  have hasStage := tells.2.1.came
  rw [known.entry_abort] at hasStage
  exact hasStage.told.2 rfl

theorem Aborts.mono {took' : Prop} (aborts : p.Aborts took s₀ s f) (more : took → took') :
    p.Aborts took' s₀ s f := by
  cases aborts with
  | writing mem tells => exact .writing mem (tells.mono fun _ _ _ => more)
  | finished due closed why => exact .finished due closed (why.imp_left more)

theorem Tells.turn {o : Outcome} (tells : p.Tells took s₀ s f w (.bound o)) (known : p.Known s)
    (gates : String → Option Outcome) :
    (∃ v st, (w.resume o).thread gates p.stream p.source [] (.call p.call) =
      (p.thread v st : Thread P) ∧
      p.Tells took s₀ s f v st) ∨
    ((w.resume o).thread gates p.stream p.source [] (.call p.call) =
        (⟨.bound (.error (.fault f)), [], .call p.call⟩ : Thread P) ∧
      s.closed p.requests = true ∧ (took ∨ p.Dropped s₀ s f)) := by
  obtain ⟨bucket, key, source, phase⟩ := w
  cases phase with
  | asking answer turns =>
      cases answer with
      | failed v =>
          obtain ⟨fault, stage⟩ := tells
          cases stage
          have aborts :
              ∃ v' st,
              ((⟨bucket, key, source, .asking (.failed v) turns⟩ : Writing).abort v).thread gates
              p.stream p.source [] (.call p.call) = (p.thread v' st : Thread P) ∧
              p.Tells took s₀ s f v' st := by
            rw [Writing.abort, fault]
            exact ⟨_, _, rfl, rfl, .inl rfl, by rintro ⟨⟩⟩
          rcases turns with _ | _ | turns
          · exact .inl aborts
          · exact .inl aborts
          · exact .inl ⟨_, _, rfl, fault, rfl⟩
      | chunk | exhausted => exact tells.elim
  | aborting g =>
      have closed := tells.closed known rfl
      obtain ⟨rfl, inCall, reached⟩ := tells
      have hasStage := inCall.came
      rw [known.entry_abort] at hasStage
      rcases hasStage.told.1 with ⟨rfl, -⟩ | ⟨rfl, -⟩
      · exact .inr ⟨rfl, closed, .inl (reached rfl)⟩
      · exact .inl ⟨_, _, rfl, rfl, closed, .inl rfl, False.elim⟩
  | discarding g =>
      obtain ⟨rfl, closed, -, dropped⟩ := tells
      cases o <;> exact .inl ⟨_, _, rfl, rfl, rfl, dropped trivial⟩
  | failing g =>
      obtain ⟨rfl, -, dropped⟩ := tells
      exact .inr ⟨rfl, dropped.closed, .inr dropped⟩
  | _ => exact tells.elim

theorem Tells.on (tells : p.Tells took s₀ s f w st) (known : p.Known s) (before : Scene.Shifts s₀ s)
    (shift : Scene.Shift s s') (mem : p.thread w st ∈ s.threads) {es : List Event}
    (events : s'.events = es ++ s.events) (goes : st.Goes s' st')
    (untaken : ∀ h m terminal, st = .offering h m terminal → st' ≠ .sent h terminal true)
    (notes : ∀ h m, st = .received h m → st' = st ∨ .received h (Stage.receipt m) ∈ es) :
    p.Tells took s₀ s' f w st' := by
  have later := shift.later
  have kind := later.kindOf known.lt
  have known' := known.later later
  have tells' := tells.shift known shift
  obtain ⟨bucket, key, source, phase⟩ := w
  cases phase with
  | asking answer turns =>
      cases answer with
      | failed v =>
          obtain ⟨fault, rfl⟩ := tells
          exact ⟨fault, Stage.bound_goes goes⟩
      | chunk | exhausted => exact tells.elim
  | aborting g =>
      obtain ⟨rfl, inCall, reached⟩ := tells'
      have same := inCall.succeeds_goes (known'.entry_abort _) goes (untaken _ _ _)
      exact ⟨rfl, inCall.goes goes, fun ok => reached (same.symm.trans ok)⟩
  | discarding g =>
      obtain ⟨rfl, closed, inCall, dropped⟩ := tells'
      refine ⟨rfl, closed, inCall.goes goes, fun noted => ?_⟩
      rcases inCall.noted_goes known'.entry_await rfl goes noted with before' | ⟨m, rfl⟩
      · exact dropped before'
      · have new := (notes _ _ rfl).resolve_left (by rintro rfl; exact noted)
        exact ⟨closed, s, _, m, before, .single shift, tells.2.1, rfl, mem, es, events, new⟩
  | failing g =>
      obtain ⟨rfl, rfl, dropped⟩ := tells'
      exact ⟨rfl, Stage.bound_goes goes, dropped⟩
  | _ => exact tells.elim

theorem Tells.taken {h : HalfId} {m : Message} {terminal : Bool}
    (tells : p.Tells took s₀ s f w (.offering h m terminal)) (known : p.Known s)
    (shift : Scene.Shift s s')
    (handed : .handed h m ∈ s'.events) :
    p.Tells (h = p.requests ∧ m = .failure f) s₀ s' f w (.sent h terminal true) := by
  have tells' := tells.shift known shift
  obtain ⟨bucket, key, source, phase⟩ := w
  cases phase with
  | asking answer turns =>
      cases answer with
      | failed v => cases tells.2
      | chunk | exhausted => exact tells.elim
  | aborting g =>
      obtain ⟨rfl, inCall, -⟩ := tells'
      refine ⟨rfl, inCall.goes (.taken handed), fun _ => ?_⟩
      have hasStage := inCall.resolve_left (by rintro ⟨⟩)
      rw [(known.later shift.later).entry_abort] at hasStage
      cases hasStage with
      | sends sends =>
          cases sends
          exact ⟨rfl, rfl⟩
  | discarding g =>
      have hasStage := tells.2.2.1.resolve_left (by rintro ⟨⟩)
      rw [known.entry_await] at hasStage
      cases hasStage with
      | thenReceives _ receives => cases receives
  | failing g => cases tells.2.1
  | _ => exact tells.elim

theorem Aborts.shift (aborts : p.Aborts (took ∨ p.Reached s₁ s f) s₀ s f) (facts : s.WriterFacts)
    (known : p.Known s) (before : Scene.Shifts s₀ s) (since : Scene.Later s₁ s)
    (lt : p.stream < s₁.kinds.length)
    (shift : Scene.Shift s s') : p.Aborts (took ∨ p.Reached s₁ s' f) s₀ s' f := by
  have later := shift.later
  replace aborts := aborts.mono (Or.imp_right (·.shift since shift))
  cases aborts with
  | writing mem tells =>
      cases facts.moves mem shift with
      | turn result events =>
          rcases tells.turn known s.gates with ⟨v, st, same, tells'⟩ | ⟨same, closed, why⟩
          · exact .writing (same ▸ result) (tells'.shift known shift)
          · refine .finished
              (.of_accounted (facts.accounted_next mem shift) (same ▸ result) rfl rfl rfl) ?_ ?_
            · exact later.closed _ known.lt closed
            · exact why.imp_right (·.shift known.lt shift)
      | taken isOpen result receiver events =>
          refine .writing result ((tells.taken known shift (events ▸ List.mem_cons_self)).mono ?_)
          rintro - - - ⟨rfl, rfl⟩
          have wasOpen : s₁.closed p.requests = false :=
            Bool.eq_false_iff.mpr fun closed =>
              Bool.false_ne_true (isOpen.symm.trans (since.closed _ lt closed))
          have handed : s.Since s' (.handed p.requests (.failure f)) :=
            ⟨[_], events, List.mem_singleton_self _⟩
          exact .inr ⟨wasOpen, handed.earlier since, .inr receiver⟩
      | on events _ result goes untaken notes =>
          exact .writing result (tells.on known before shift mem events goes untaken notes)
  | finished due closed why =>
      obtain ⟨c, writes, called⟩ := known.called
      have others := facts.numbered.not_emitted called writes.not_emitter
      refine .finished (due.stir (facts.numbered.below called) (shift.stir others)) ?_ ?_
      · exact later.closed _ known.lt closed
      · exact why.imp_right (·.shift known.lt shift)

/-- What became of a call that writes, where its failure is taken from now on. -/
theorem Aborts.shifts (aborts : p.Aborts took s₀ s f) (facts : s.WriterFacts) (known : p.Known s)
    (before : Scene.Shifts s₀ s) (shifts : Scene.Shifts s s') :
    p.Aborts (took ∨ p.Reached s s' f) s₀ s' f := by
  induction shifts with
  | refl => exact aborts.mono .inl
  | tail between shift ih =>
      have later := Scene.Shifts.later between
      exact ih.shift (facts.shifts between) (known.later later) (before.trans between) later
        known.lt shift

/-- A writer that settled since its source failed. -/
theorem Aborts.settled (aborts : p.Aborts took s₀ s f) (facts : s.WriterFacts) {so : Settlement}
    (settled : .settled p.call so ∈ s.events) :
    so = .rejected (.fault f) ∧ s.closed p.requests = true ∧ (took ∨ p.Dropped s₀ s f) := by
  cases aborts with
  | writing mem => exact absurd settled (facts.unsettled mem so)
  | finished due closed why => exact ⟨due.settled so settled, closed, why⟩

end WriterCall

end ObjectTransfer
