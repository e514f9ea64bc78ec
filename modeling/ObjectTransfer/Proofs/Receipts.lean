import ObjectTransfer.Proofs.Endings
import ObjectTransfer.Proofs.Quiet

/-! # What the handler of an upload receives

While a call writes an object, a handler that waits for each of its calls receives the chunks of the
source in order, and it learns of an end only after all of them (`Exchange.upload_received`): the
end marker if the source is exhausted, the failure of the source if there is one.
-/

namespace ObjectTransfer

variable {P : Plugin}

/-- What a receiver hears of the end of a source. -/
inductive SourceEnd.Tells : SourceEnd → List Outcome → Prop where
  | exhausted {ends} : Tells .exhausted (List.replicate ends (.ok .eof))
  | failed {v f ends} : v.toFault? = .ok f →
    Tells (.failed v) (.error (.fault f) :: List.replicate ends (.ok .eof))

/-- Whether the receiver is told how a source ended: it is not exhausted when it fails with
something that has no text. -/
def SourceEnd.IsTold : SourceEnd → Prop
  | exhausted => True
  | failed v => ∃ f, v.toFault? = .ok f
  | blocked _ => False

namespace Upload

variable {s s' : Scene P} {u : Upload}

def outcomes (u : Upload) (chunks : List Value) : List Outcome :=
  chunks.map fun chunk => .ok (u.request chunk)

theorem outcome_requests (u : Upload) (chunks : List Value) :
    (u.requests chunks).map Message.outcome = u.outcomes chunks := by
  simp [requests, outcomes, Message.outcome]

theorem outcomes_append (u : Upload) (chunks chunks' : List Value) :
    u.outcomes (chunks ++ chunks') = u.outcomes chunks ++ u.outcomes chunks' :=
  List.map_append

theorem Known.before (known : u.Known s'.events) (later : Scene.Later s s') (orderly : s.Orderly)
    (orderly' : s'.Orderly) (lt : u.stream < s.kinds.length) : u.Known s.events := by
  obtain ⟨n, opened⟩ := orderly.streams _ lt
  obtain rfl := orderly'.openedBy known.opened (later.mem opened)
  obtain ⟨c, -, -, called, -⟩ := orderly.opens opened
  cases orderly'.calledOnce known.called (later.mem called)
  exact ⟨called, opened⟩

theorem ledger (reachable : s.Reachable) (known : u.Known s.events)
    (unforked : s.Unforked u.stream) : s.Ledger u.half (u.Decided s) := by
  have lt := (reachable.orderly.opened known.opened).2
  refine reachable.requests_ledger lt unforked fun t t' reached step steps running closed => ?_
  have later := step.later.trans steps.later
  have lt' : u.stream < t.kinds.length := by
    obtain ⟨th, mem, owner, -⟩ := running
    exact (reached.cast th mem).service_lt (owner ▸ rfl)
  have known := known.before later reached.orderly reachable.orderly lt'
  exact (u.decided reached known (step.doomed lt' closed) running).later later

/-- If it is decided how an upload ends and no failure passed, its source is exhausted and all that
it yields passed. -/
theorem Sent.whole {chunks rest} (sent : u.Sent s chunks rest) (decided : u.Decided s) :
    u.source.yields s.gates = chunks ∧ u.source.ending s.gates = .exhausted := by
  rcases decided with ⟨all, passes, passed⟩ | ⟨f, handed⟩
  · have yields := passes.yield
    rw [SourceItem.yield, List.append_nil] at yields
    have more := sent.passes.yield
    rw [yields, Prod.mk.injEq] at more
    have le : all.length ≤ chunks.length := by
      rw [sent.passed] at passed
      simpa [requests] using passed.length_le
    have same := congrArg List.length more.1
    rw [List.length_append] at same
    have nil : (SourceItem.yield s.gates rest).1 = [] := List.length_eq_zero_iff.mp (by omega)
    rw [nil, List.append_nil] at more
    rw [Source.yields, Source.ending, yields]
    exact ⟨more.1, rfl⟩
  · have mem := Scene.mem_passed.mpr handed
    rw [sent.passed] at mem
    simp [requests] at mem

/-- The handler of an upload hears of the chunks in order, and of the end after all of them. -/
theorem heard (reachable : s.Reachable) (known : u.Known s.events)
    (unforked : s.Unforked u.stream) :
    s.heard u.half <+: u.outcomes (u.source.yields s.gates) ∨
      ∃ tail, s.heard u.half = u.outcomes (u.source.yields s.gates) ++ tail ∧
        (u.source.ending s.gates).Tells tail := by
  obtain ⟨unnoted, ends, -, why, tally⟩ := u.ledger reachable known unforked
  cases (u.account reachable known).shape with
  | @sent chunks rest sent =>
      have yields : u.source.yields s.gates = chunks ++ (SourceItem.yield s.gates rest).1 := by
        rw [Source.yields, sent.passes.yield]
      rw [sent.passed, outcome_requests, List.append_eq_append_iff] at tally
      rcases tally with ⟨more, whole, -⟩ | ⟨tail, same, told⟩
      · refine .inl ?_
        rw [yields, outcomes_append, whole, List.append_assoc]
        exact List.prefix_append _ _
      obtain ⟨length, ended, -⟩ := List.append_eq_replicate_iff.mp told.symm
      cases tail with
      | nil =>
          refine .inl ?_
          rw [yields, outcomes_append, same, List.append_nil]
          exact List.prefix_append _ _
      | cons o tail =>
          have some : 0 < ends := length ▸ Nat.add_pos_left (Nat.succ_pos _) _
          obtain ⟨yields, ending⟩ := sent.whole (why some).2
          rw [yields, ending, same, ended]
          exact .inr ⟨_, rfl, .exhausted⟩
  | @aborted chunks rest v f passes fails fault passed =>
      have yields : u.source.yields s.gates = chunks := by
        rw [Source.yields, passes.yield, fails.yield, List.append_nil]
      have ending : u.source.ending s.gates = .failed v := by
        rw [Source.ending, passes.yield, fails.yield]
      rw [passed, List.map_append, outcome_requests, List.append_assoc,
        List.append_eq_append_iff] at tally
      rw [yields, ending]
      rcases tally with ⟨more, whole, -⟩ | ⟨tail, same, told⟩
      · exact .inl ⟨more, whole.symm⟩
      cases tail with
      | nil => exact .inl (by rw [same, List.append_nil])
      | cons o tail =>
          obtain ⟨rfl, after⟩ := List.cons.inj told
          obtain ⟨-, ended, -⟩ := List.append_eq_replicate_iff.mp after.symm
          rw [same, ended]
          exact .inr ⟨_, rfl, .failed fault⟩

theorem offering_of_parked {role method side m terminal relayed} {st : Stage} {i : StreamId}
    (inCall : st.InCall s i role method)
    (entry : method.entry (s.kindOf i) role = .sends side m terminal relayed)
    (parked : st.IsParked) : st = .offering ⟨i, side⟩ m terminal := by
  rcases inCall with rfl | hasStage
  · exact parked.elim
  · rw [entry] at hasStage
    cases hasStage with
    | sends sends =>
        cases sends with
        | offering => rfl
        | closing | told => exact parked.elim

theorem wanting_of_parked {st : Stage} (kind : s.kindOf u.stream = .upload)
    (inCall : st.InCall s u.stream .client .awaitResponse) (parked : st.IsParked) :
    st = .wanting u.back ∧ s.closed u.half = true := by
  rcases inCall with rfl | hasStage
  · exact parked.elim
  · rw [kind] at hasStage
    cases hasStage with
    | closingFirst => exact parked.elim
    | thenReceives closed receives =>
        cases receives with
        | wanting => exact ⟨rfl, closed⟩
        | _ => exact parked.elim

/-- When nothing can go on and the source of an upload ended, the writer offers a message, or it
waits for the response, or it is done. -/
theorem rests (reachable : s.Reachable) (known : u.Known s.events) (quiet : s.Quiet)
    (told : (u.source.ending s.gates).IsTold) :
    (∃ k w m terminal, u.thread k w (.offering u.half m terminal) ∈ s.threads) ∨
      (s.closed u.half = true ∧ ∃ k w, u.thread k w (.wanting u.back) ∈ s.threads) ∨
      (∃ o, s.Over u.call o) ∧ u.Ended s := by
  cases u.account reachable known with
  | @writing k w st mem bucket key tale =>
      obtain ⟨lt, kind, waits⟩ := writer_waits reachable.cast mem
      have parked : st.IsParked := quiet.parked _ mem
      have awaits : st.Unsettled s.gates := reachable.awaits _ mem
      obtain ⟨w, place, source, phase⟩ := w
      cases phase with
      | starting | asking =>
          cases waits
          exact parked.elim
      | stopping | leaving =>
          obtain ⟨-, rfl, -⟩ := waits
          exact parked.elim
      | failing =>
          obtain ⟨rfl, -⟩ := waits
          exact parked.elim
      | blocked =>
          obtain ⟨chunks, gate, sent, rfl | ⟨v, v', rfl, -⟩ | ⟨v, rfl, -⟩⟩ := tale
          · have unsettled : s.gates gate = none := awaits gate List.mem_cons_self
            rw [Source.ending, sent.passes.yield, SourceItem.yield, unsettled] at told
            exact told.elim
          · exact parked.elim
          · exact parked.elim
      | sending =>
          obtain ⟨chunks, v, -, inCall, -⟩ := tale
          obtain rfl := offering_of_parked inCall (entry_send kind v) parked
          exact .inl ⟨_, _, _, _, mem⟩
      | aborting f =>
          obtain rfl := offering_of_parked waits (entry_abort kind f) parked
          exact .inl ⟨_, _, _, _, mem⟩
      | discarding =>
          obtain ⟨rfl, closed⟩ := wanting_of_parked kind waits.2 parked
          exact .inr (.inl ⟨closed, _, _, mem⟩)
      | acknowledging =>
          obtain ⟨rfl, closed⟩ := wanting_of_parked kind waits parked
          exact .inr (.inl ⟨closed, _, _, mem⟩)
  | finished finished _ ended => exact .inr (.inr ⟨⟨_, finished⟩, ended⟩)

theorem offers_or_closed (reachable : s.Reachable) (known : u.Known s.events) (quiet : s.Quiet)
    (told : (u.source.ending s.gates).IsTold) :
    s.closed u.half = true ∨
      ∃ k w m terminal, u.thread k w (.offering u.half m terminal) ∈ s.threads := by
  rcases u.rests reachable known quiet told with offers | ⟨closed, -⟩ | ⟨-, ended⟩
  · exact .inr offers
  · exact .inl closed
  · cases ended with
    | aborted handed =>
        obtain ⟨-, -, role, -, final⟩ := reachable.seals _ _ handed
        exact .inl (quiet.closed (final trivial))
    | textless passes fails fault =>
        rw [Source.ending, passes.yield, fails.yield] at told
        obtain ⟨f, fault'⟩ := told
        exact nomatch fault.symm.trans fault'
    | answered closed => exact .inl closed

end Upload

namespace Exchange

variable {x : Exchange P} {turns : List (HandlerTurn P)} {u : Upload}

/-- What the handler of an upload receives, if it waits for each of its calls: the chunks of the
source in order, and the end of the source only after all of them. When nothing can go on and the
source ended, it does not wait to receive. -/
theorem upload_received (history : History Command.Hosted (.empty P) x turns)
    (called : .called u.call (.plugin u.pluginCall) ∈ x.journal)
    (opened : .opened u.call u.stream ∈ x.journal)
    (awaits : ∀ turn ∈ turns, turn.stream = u.stream → ¬ turn.Forks) :
    (x.heard u.half <+: u.outcomes (u.source.yields x.gates.outcome?) ∨
      ∃ tail, x.heard u.half = u.outcomes (u.source.yields x.gates.outcome?) ++ tail ∧
        (u.source.ending x.gates.outcome?).Tells tail) ∧
    (x.isQuiet = true → (u.source.ending x.gates.outcome?).IsTold →
      (x.half u.half).channel.receivers = []) := by
  have reachable := history.reachable
  have known : u.Known (x.scene turns).events :=
    ⟨(mem_events rfl turns).mpr called, (mem_events rfl turns).mpr opened⟩
  constructor
  · rw [← heard_scene x u.half turns]
    exact u.heard reachable known awaits
  · intro quiet told
    rw [List.eq_nil_iff_forall_not_mem]
    intro t inside
    have wants : t.thread (.wanting u.half) ∈ (x.half u.half).threads u.half :=
      List.mem_append_right _ (List.mem_map_of_mem (f := fun t : Task P =>
        t.thread (.wanting u.half)) inside)
    rcases u.offers_or_closed reachable known (quiet_scene quiet turns) told with
      closed | ⟨k, w, m, terminal, mem⟩
    · have isOpen := Half.channel_open (history.run.calm calm_empty |>.halves _).toGuarded wants
      exact nomatch isOpen.symm.trans closed
    · exact Half.not_both wants (mem_half_threads mem rfl)

/-- An upload whose source fails after one chunk. -/
def cutUpload : Upload :=
  ⟨0, 0, "b", "k", ⟨false, [.chunk (.bytes [1]), .fails (.text "boom")]⟩⟩

/-- What is left of it when the loopback storage takes it in. -/
def cutShort : Exchange (Loopback.plugin .default) :=
  ((empty _).command (.call (.plugin cutUpload.pluginCall))).advance 120

/-- The handler received the chunk and then the failure. -/
theorem cutShort_received : cutShort.isQuiet = true ∧
    cutShort.heard cutUpload.half =
      [.ok (cutUpload.request (.bytes [1])), .error (.fault (.error "boom"))] ∧
    (cutShort.heard cutUpload.half <+: cutUpload.outcomes [.bytes [1]] ∨
      ∃ tail, cutShort.heard cutUpload.half = cutUpload.outcomes [.bytes [1]] ++ tail ∧
        (SourceEnd.failed (.text "boom")).Tells tail) ∧
    (cutShort.half cutUpload.half).channel.receivers = [] := by
  have run : Run Command.Hosted (.empty _) cutShort :=
    (Move.command rfl trivial).run.trans (run_advance _ _)
  obtain ⟨turns, history⟩ := run.history
  have quiet : cutShort.isQuiet = true := rfl
  obtain ⟨received, served⟩ := upload_received (u := cutUpload) history
    (List.mem_of_getElem? (i := 11) rfl) (List.mem_of_getElem? (i := 10) rfl)
    fun turn _ _ => Loopback.not_forks turn
  exact ⟨quiet, rfl, received, served quiet ⟨_, rfl⟩⟩

end Exchange

end ObjectTransfer
