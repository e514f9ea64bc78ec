import ObjectTransfer.Proofs.Fates

/-! # The course of a call

While a function waits for a method of a party, the stage of its thread is a stage of that method
(`Entry.HasStage`), and what came of the method tells what happened on the half: a message was
handed over, or the half is closed.
-/

namespace ObjectTransfer

variable {P : Plugin}

def Scene.Told (s : Scene P) (h : HalfId) (m : Message) (o : Outcome) : Prop :=
  o = .ok .undefined ∧ .handed h m ∈ s.events ∨
    o = .error (.fault .streamClosed) ∧ s.closed h = true

inductive Stage.Receives (s : Scene P) (h : HalfId) : Stage → Prop where
  | asking : Receives s h (.asking h)
  | wanting : Receives s h (.wanting h)
  | ended : s.closed h = true → Receives s h (.received h none)
  | taken {m} : .handed h m ∈ s.events → Receives s h (.received h (some m))
  | closing {f} :
    .handed h (.failure f) ∈ s.events → Receives s h (.closing h (.bound (.error (.fault f))))
  | eof : s.closed h = true → Receives s h (.bound (.ok .eof))
  | payload {v} : .handed h (.payload v) ∈ s.events → Receives s h (.bound (.ok v))
  | failure {f} : .handed h (.failure f) ∈ s.events → s.closed h = true →
    Receives s h (.bound (.error (.fault f)))

inductive Stage.Sends (s : Scene P) (h : HalfId) (m : Message) (terminal : Bool) :
    Stage → Prop where
  | offering : Sends s h m terminal (.offering h m terminal)
  | closing {o} : terminal = true → s.Told h m o → Sends s h m terminal (.closing h (.bound o))
  | told {o} : s.Told h m o → (terminal = true → s.closed h = true) →
    Sends s h m terminal (.bound o)

/-- The stages of a method, by what its entry leaves to do. -/
inductive Entry.HasStage (s : Scene P) (i : StreamId) : Entry → Stage → Prop where
  | returns {v} : HasStage s i (.returns v) (.bound (.ok v))
  | throws {f} : HasStage s i (.throws f) (.bound (.error (.fault f)))
  | fulfils {v} : HasStage s i (.fulfils v) (.bound (.ok v))
  | rejects {f} : HasStage s i (.rejects f) (.bound (.error (.fault f)))
  | receives {side st} : st.Receives s ⟨i, side⟩ → HasStage s i (.receives side) st
  | sends {side m terminal relayed st} :
    st.Sends s ⟨i, side⟩ m terminal → HasStage s i (.sends side m terminal relayed) st
  | closing {side} : HasStage s i (.closes side) (.closing ⟨i, side⟩ (.bound (.ok .undefined)))
  | closed {side} :
    s.closed ⟨i, side⟩ = true → HasStage s i (.closes side) (.bound (.ok .undefined))
  | closingOpen {side} :
    HasStage s i (.closesOpen side) (.closing ⟨i, side⟩ (.bound (.ok .undefined)))
  | closedOpen {side} :
    s.closed ⟨i, side⟩ = true → HasStage s i (.closesOpen side) (.bound (.ok .undefined))
  | closedBefore {side} :
    s.closed ⟨i, side⟩ = true →
    HasStage s i (.closesOpen side) (.bound (.error (.fault .streamClosed)))
  | closingFirst :
      HasStage s i .closesAndReceives (.closing ⟨i, .requests⟩ (.asking ⟨i, .responses⟩))
  | thenReceives {st} : s.closed ⟨i, .requests⟩ = true → st.Receives s ⟨i, .responses⟩ →
    HasStage s i .closesAndReceives st

/-- The stages of a call of a method, from its start. -/
def Stage.InCall (s : Scene P) (i : StreamId) (role : Role) (m : Method) (st : Stage) : Prop :=
  st = .entering i role m ∨ (m.entry (s.kindOf i) role).HasStage s i st

variable {s s' : Scene P} {h : HalfId} {i : StreamId} {st st' : Stage}

namespace Scene.Later

theorem kindOf (later : Later s s') (lt : i < s.kinds.length) : s'.kindOf i = s.kindOf i := by
  obtain ⟨more, kinds⟩ := later.kinds
  rw [Scene.kindOf, Scene.kindOf, ← kinds, List.getElem?_append_left lt]

theorem mem (later : Later s s') {e : Event} (mem : e ∈ s.events) : e ∈ s'.events :=
  later.events.subset mem

theorem lt (later : Later s s') (lt : i < s.kinds.length) : i < s'.kinds.length :=
  Nat.lt_of_lt_of_le lt later.kinds.length_le

theorem told (later : Later s s') (lt : h.stream < s.kinds.length) {m o} (told : s.Told h m o) :
    s'.Told h m o := by
  rcases told with ⟨rfl, handed⟩ | ⟨rfl, closed⟩
  · exact .inl ⟨rfl, later.mem handed⟩
  · exact .inr ⟨rfl, later.closed h lt closed⟩

theorem receives (later : Later s s') (lt : h.stream < s.kinds.length)
    (receives : st.Receives s h) : st.Receives s' h := by
  cases receives with
  | asking => exact .asking
  | wanting => exact .wanting
  | ended closed => exact .ended (later.closed h lt closed)
  | taken handed => exact .taken (later.mem handed)
  | closing handed => exact .closing (later.mem handed)
  | eof closed => exact .eof (later.closed h lt closed)
  | payload handed => exact .payload (later.mem handed)
  | failure handed closed => exact .failure (later.mem handed) (later.closed h lt closed)

theorem sends (later : Later s s') (lt : h.stream < s.kinds.length) {m terminal}
    (sends : st.Sends s h m terminal) : st.Sends s' h m terminal := by
  cases sends with
  | offering => exact .offering
  | closing terminal told => exact .closing terminal (later.told lt told)
  | told told closed =>
      exact .told (later.told lt told) fun terminal => later.closed h lt (closed terminal)

theorem hasStage (later : Later s s') (lt : i < s.kinds.length) {e : Entry}
    (hasStage : e.HasStage s i st) : e.HasStage s' i st := by
  cases hasStage with
  | returns => exact .returns
  | throws => exact .throws
  | fulfils => exact .fulfils
  | rejects => exact .rejects
  | receives receives => exact .receives (later.receives lt receives)
  | sends sends => exact .sends (later.sends lt sends)
  | closing => exact .closing
  | closed closed => exact .closed (later.closed _ lt closed)
  | closingOpen => exact .closingOpen
  | closedOpen closed => exact .closedOpen (later.closed _ lt closed)
  | closedBefore closed => exact .closedBefore (later.closed _ lt closed)
  | closingFirst => exact .closingFirst
  | thenReceives closed receives =>
      exact .thenReceives (later.closed _ lt closed) (later.receives lt receives)

theorem inCall (later : Later s s') (lt : i < s.kinds.length) {role m}
    (inCall : st.InCall s i role m) : st.InCall s' i role m := by
  rcases inCall with rfl | hasStage
  · exact .inl rfl
  · exact .inr (later.kindOf lt ▸ later.hasStage lt hasStage)

end Scene.Later

namespace Stage

theorem Receives.goes (receives : st.Receives s h) (goes : st.Goes s st') : st'.Receives s h := by
  cases goes with
  | stay => exact receives
  | note =>
      cases receives with
      | ended closed => exact .eof closed
      | @taken m handed =>
          cases m with
          | payload v => exact .payload handed
          | failure f => exact .closing handed
  | shut closed =>
      cases receives with
      | closing handed => exact .failure handed closed
  | want =>
      cases receives
      exact .wanting
  | ended closed =>
      cases receives
      exact .ended closed
  | enter | undelivered | deliver | taken => cases receives
  | @release h' _ closed =>
      cases receives with
      | wanting =>
          simp only [release]
          split
          next same => exact same ▸ .ended (same ▸ closed)
          next => exact .wanting
      | _ => simp only [release]; constructor <;> assumption
  | take handed =>
      cases receives
      exact .taken handed
  | gate => cases receives <;> simp only [afterGate] <;> constructor <;> assumption

theorem Sends.goes {m terminal} (sends : st.Sends s h m terminal) (goes : st.Goes s st') :
    st'.Sends s h m terminal := by
  cases goes with
  | stay => exact sends
  | note | want | ended | enter | undelivered | deliver | take => cases sends
  | shut closed =>
      cases sends with
      | closing _ told => exact .told told fun _ => closed
  | @release h' _ closed =>
      cases sends with
      | offering =>
          simp only [release]
          split
          next same =>
            subst same
            cases terminal with
            | false => exact .told (.inr ⟨rfl, closed⟩) (by rintro ⟨⟩)
            | true => exact .closing rfl (.inr ⟨rfl, closed⟩)
          next => exact .offering
      | closing terminal told => exact .closing terminal told
      | told told closed => exact .told told closed
  | taken handed =>
      cases sends
      cases terminal with
      | false => exact .told (.inl ⟨rfl, handed⟩) (by rintro ⟨⟩)
      | true => exact .closing rfl (.inl ⟨rfl, handed⟩)
  | gate =>
      cases sends with
      | offering => exact .offering
      | closing terminal told => exact .closing terminal told
      | told told closed => exact .told told closed

theorem bound_goes {o : Outcome} (goes : (bound o).Goes s st) : st = bound o := by
  cases goes <;> rfl

/-- As a gate is settled, who waits for it goes on. -/
theorem waiting_goes {gate : String} (goes : (waiting [gate]).Goes s st) :
    st = waiting [gate] ∨ ∃ o, st = bound (o.map fun _ => .undefined) ∧ s.gates gate = some o := by
  cases goes with
  | stay | release => exact .inl rfl
  | @gate name o _ settled =>
      by_cases same : gate = name
      · subst same
        refine .inr ⟨o, ?_, settled⟩
        cases o <;> simp [afterGate, Except.map]
      · exact .inl (by simp [afterGate, Ne.symm same])

end Stage

def Stage.succeeds (st : Stage) : Bool :=
  match st.outcome? with
  | some (.ok _) => true
  | _ => false

theorem Stage.Sends.succeeds_goes {s' : Scene P} {m terminal} (sends : st.Sends s h m terminal)
    (goes : st.Goes s' st') :
    st'.succeeds = st.succeeds ∨ st = .offering h m terminal ∧ st' = .sent h terminal true := by
  cases goes with
  | stay | shut => exact .inl rfl
  | note | want | ended | enter | undelivered | deliver | take => cases sends
  | release =>
      cases sends with
      | offering =>
          simp only [release]
          split
          · cases terminal <;> exact .inl rfl
          · exact .inl rfl
      | closing | told => exact .inl rfl
  | taken =>
      cases sends
      exact .inr ⟨rfl, rfl⟩
  | gate => cases sends <;> exact .inl rfl

theorem Entry.HasStage.goes {e : Entry} (hasStage : e.HasStage s i st) (goes : st.Goes s st') :
    e.HasStage s i st' := by
  cases hasStage with
  | returns => exact Stage.bound_goes goes ▸ .returns
  | throws => exact Stage.bound_goes goes ▸ .throws
  | fulfils => exact Stage.bound_goes goes ▸ .fulfils
  | rejects => exact Stage.bound_goes goes ▸ .rejects
  | receives receives => exact .receives (receives.goes goes)
  | sends sends => exact .sends (sends.goes goes)
  | closing =>
      cases goes with
      | shut closed => exact .closed closed
      | _ => exact .closing
  | closed closed => exact Stage.bound_goes goes ▸ .closed closed
  | closingOpen =>
      cases goes with
      | shut closed => exact .closedOpen closed
      | _ => exact .closingOpen
  | closedOpen closed => exact Stage.bound_goes goes ▸ .closedOpen closed
  | closedBefore closed => exact Stage.bound_goes goes ▸ .closedBefore closed
  | closingFirst =>
      cases goes with
      | shut closed => exact .thenReceives closed .asking
      | _ => exact .closingFirst
  | thenReceives closed receives => exact .thenReceives closed (receives.goes goes)

theorem Entry.hasStage_start (e : Entry) : e.HasStage s i (e.stage s.closed i) := by
  cases e with
  | returns => exact .returns
  | throws => exact .throws
  | fulfils => exact .fulfils
  | rejects => exact .rejects
  | receives => exact .receives .asking
  | sends side m terminal relayed =>
      simp only [stage]
      split
      next closed => exact .sends (.told (.inr ⟨rfl, closed⟩) fun _ => closed)
      next => exact .sends .offering
  | closes => exact .closing
  | closesOpen side =>
      simp only [stage]
      split
      next closed => exact .closedBefore closed
      next => exact .closingOpen
  | closesAndReceives => exact .closingFirst

theorem Stage.InCall.goes {role m} (inCall : st.InCall s i role m) (goes : st.Goes s st') :
    st'.InCall s i role m := by
  rcases inCall with rfl | hasStage
  · cases goes with
    | enter => exact .inr (Entry.hasStage_start _)
    | _ => exact .inl rfl
  · exact .inr (hasStage.goes goes)

theorem Stage.InCall.succeeds_goes {role method side m terminal relayed}
    (inCall : st.InCall s i role method)
    (entry : method.entry (s.kindOf i) role = .sends side m terminal relayed)
    (goes : st.Goes s st')
    (untaken : st = .offering ⟨i, side⟩ m terminal → st' ≠ .sent ⟨i, side⟩ terminal true) :
    st'.succeeds = st.succeeds := by
  rcases inCall with rfl | hasStage
  · cases goes with
    | enter =>
        rw [entry]
        simp only [Entry.stage]
        split <;> rfl
    | _ => rfl
  · rw [entry] at hasStage
    cases hasStage with
    | sends sends =>
        exact (sends.succeeds_goes goes).resolve_right fun taken => untaken taken.1 taken.2

end ObjectTransfer
