import ObjectTransfer.Proofs.Deliveries

/-! # What a writer handed over

While a call writes an object, the messages that passed on the request half of its stream are the
chunks that its source yielded so far, perhaps followed by the failure of the source
(`Upload.Shape`). The writer tells how far it is (`Upload.Tale`).

What a source yields depends on the gates that it waits for. As gates are settled once and for all,
a source that went on past some of its items yields the same chunks whatever is settled later.
-/

namespace ObjectTransfer

/-! ## What a source yields -/

section Sources

/-- How a source ends, as far as the gates tell. -/
inductive SourceEnd where
  | exhausted
  | failed (v : Value)
  /-- It waits for a gate that is not settled. -/
  | blocked (gate : String)

variable {gates gates' : String → Option Outcome}

namespace SourceItem

/-- The chunks that items yield and how they end. -/
def yield (gates : String → Option Outcome) : List SourceItem → List Value × SourceEnd
  | [] => ([], .exhausted)
  | .chunk v :: rest => (v :: (yield gates rest).1, (yield gates rest).2)
  | .fails v :: _ => ([], .failed v)
  | .waits gate :: rest =>
    match gates gate with
    | none => ([], .blocked gate)
    | some (.error v) => ([], .failed v)
    | some (.ok _) => yield gates rest

/-- From some items a source goes on to others, after it yielded these chunks. -/
inductive Passes (gates : String → Option Outcome) (items : List SourceItem) :
    List Value → List SourceItem → Prop where
  | none : Passes gates items [] items
  | chunk {chunks v rest} :
    Passes gates items chunks (.chunk v :: rest) → Passes gates items (chunks ++ [v]) rest
  | gate {chunks gate v rest} :
    Passes gates items chunks (.waits gate :: rest) → gates gate = some (.ok v) →
    Passes gates items chunks rest

/-- The next item of a source fails with this value. -/
inductive Fails (gates : String → Option Outcome) (v : Value) : List SourceItem → Prop where
  | item {rest} : Fails gates v (.fails v :: rest)
  | gate {gate rest} : gates gate = some (.error v) → Fails gates v (.waits gate :: rest)

variable {items rest : List SourceItem} {chunks : List Value}

theorem Passes.later (passes : Passes gates items chunks rest)
    (later : ∀ name o, gates name = some o → gates' name = some o) :
    Passes gates' items chunks rest := by
  induction passes with
  | none => exact .none
  | chunk _ ih => exact .chunk ih
  | gate _ settled ih => exact .gate ih (later _ _ settled)

theorem Fails.later {v : Value} (fails : Fails gates v rest)
    (later : ∀ name o, gates name = some o → gates' name = some o) : Fails gates' v rest := by
  cases fails with
  | item => exact .item
  | gate settled => exact .gate (later _ _ settled)

theorem Passes.yield (passes : Passes gates items chunks rest) :
    SourceItem.yield gates items =
      (chunks ++ (SourceItem.yield gates rest).1, (SourceItem.yield gates rest).2) := by
  induction passes with
  | none => rfl
  | chunk _ ih => simp [ih, SourceItem.yield]
  | gate _ settled ih => simp [ih, SourceItem.yield, settled]

theorem Fails.yield {v : Value} (fails : Fails gates v rest) :
    SourceItem.yield gates rest = ([], .failed v) := by
  cases fails with
  | item => rfl
  | gate settled => simp [SourceItem.yield, settled]

end SourceItem

namespace Source

def yields (gates : String → Option Outcome) (source : Source) : List Value :=
  (SourceItem.yield gates source.items).1

/-- How a source ends, as far as the gates tell. -/
def ending (gates : String → Option Outcome) (source : Source) : SourceEnd :=
  (SourceItem.yield gates source.items).2

end Source

end Sources

/-! ## What is handed over -/

variable {P : Plugin}

/-- The message of a sender that was not taken yet. -/
def Stage.unsent (m : Message) (st : Stage) : List Message := if st.succeeds then [] else [m]

/-! ## Uploads -/

structure Upload where
  call : Nat
  stream : StreamId
  bucket : String
  key : String
  source : Source

namespace Upload

def pluginCall (u : Upload) : PluginCall := .write u.bucket u.key u.source

def half (u : Upload) : HalfId := ⟨u.stream, .requests⟩

def back (u : Upload) : HalfId := ⟨u.stream, .responses⟩

def request (u : Upload) (chunk : Value) : Value :=
  .object [("bucket", .text u.bucket), ("key", .text u.key), ("fileChunk", chunk)]

/-- The requests that carry chunks, as messages. -/
def requests (u : Upload) (chunks : List Value) : List Message :=
  chunks.map fun chunk => .payload (u.request chunk)

structure Known (u : Upload) (events : List Event) : Prop where
  called : .called u.call (.plugin u.pluginCall) ∈ events
  opened : .opened u.call u.stream ∈ events

theorem Known.owns {u : Upload} {events : List Event} (known : u.Known events) :
    Event.Owns events u.call u.stream := ⟨known.opened, known.called, rfl⟩

theorem Known.kind {s : Scene P} {u : Upload} (known : u.Known s.events) (orderly : s.Orderly) :
    s.kindOf u.stream = .upload := by
  obtain ⟨c, kind, invocation, called, opens, kindOf⟩ := orderly.opens known.opened
  cases orderly.calledOnce known.called called
  cases opens
  exact kindOf

/-- These chunks passed, and the source still has the rest. -/
structure Sent (s : Scene P) (u : Upload) (chunks : List Value) (rest : List SourceItem) :
    Prop where
  passes : SourceItem.Passes s.gates u.source.items chunks rest
  passed : s.passed u.half = u.requests chunks

/-- What may have passed. -/
inductive Shape (s : Scene P) (u : Upload) : Prop where
  | sent {chunks rest} : u.Sent s chunks rest → Shape s u
  | aborted {chunks rest v f} : SourceItem.Passes s.gates u.source.items chunks rest →
    SourceItem.Fails s.gates v rest → v.toFault? = .ok f →
    s.passed u.half = u.requests chunks ++ [.failure f] → Shape s u

/-- How far a writer in its phase is. -/
def Tale (s : Scene P) (u : Upload) (w : Writing) (st : Stage) : Prop :=
  match w.phase with
  | .starting => ∃ chunks, u.Sent s chunks w.source.items
  | .blocked => ∃ chunks gate, u.Sent s chunks (.waits gate :: w.source.items) ∧
    (st = .waiting [gate] ∨ (∃ v v', st = .bound (.ok v) ∧ s.gates gate = some (.ok v')) ∨
      ∃ v, st = .bound (.error v) ∧ s.gates gate = some (.error v))
  | .asking (.chunk v) _ => ∃ chunks, u.Sent s chunks (.chunk v :: w.source.items)
  | .asking .exhausted _ => ∃ chunks, u.Sent s chunks []
  | .asking (.failed v) _ => ∃ chunks rest, u.Sent s chunks rest ∧ SourceItem.Fails s.gates v rest
  | .sending => ∃ chunks v,
    SourceItem.Passes s.gates u.source.items chunks (.chunk v :: w.source.items) ∧
    st.InCall s u.stream .client (.send (u.request v)) ∧
    s.passed u.half ++ st.unsent (.payload (u.request v)) = u.requests (chunks ++ [v])
  | .aborting f => ∃ chunks rest v, SourceItem.Passes s.gates u.source.items chunks rest ∧
    SourceItem.Fails s.gates v rest ∧ v.toFault? = .ok f ∧
    st.InCall s u.stream .client (.sendRaw (.rawError (.fault f))) ∧
    s.passed u.half ++ st.unsent (.failure f) = u.requests chunks ++ [.failure f]
  | .acknowledging => ∃ chunks rest, u.Sent s chunks rest ∧ (rest = [] ∨ s.closed u.half = true)
  | .stopping _ | .leaving _ => ∃ chunks rest, u.Sent s chunks rest
  | .discarding _ | .failing _ => u.Shape s

end Upload

variable {s s' : Scene P} {u : Upload} {w : Writing} {st st' : Stage}

theorem Stage.unsent_cases (m : Message) (st : Stage) : st.unsent m = [] ∨ st.unsent m = [m] := by
  rw [unsent]
  split
  · exact .inl rfl
  · exact .inr rfl

namespace Upload

theorem requests_append (chunks chunks' : List Value) :
    u.requests (chunks ++ chunks') = u.requests chunks ++ u.requests chunks' :=
  List.map_append

theorem Tale.shape (tale : u.Tale s w st) : u.Shape s := by
  obtain ⟨bucket, key, source, phase⟩ := w
  cases phase with
  | starting =>
      obtain ⟨chunks, sent⟩ := tale
      exact .sent sent
  | blocked =>
      obtain ⟨chunks, gate, sent, -⟩ := tale
      exact .sent sent
  | asking answer turns =>
      cases answer with
      | chunk | exhausted =>
          obtain ⟨chunks, sent⟩ := tale
          exact .sent sent
      | failed =>
          obtain ⟨chunks, rest, sent, -⟩ := tale
          exact .sent sent
  | sending =>
      obtain ⟨chunks, v, passes, -, passed⟩ := tale
      rcases st.unsent_cases (.payload (u.request v)) with taken | waits
      · rw [taken, List.append_nil] at passed
        exact .sent ⟨.chunk passes, passed⟩
      · rw [waits, requests_append] at passed
        exact .sent ⟨passes, List.append_cancel_right passed⟩
  | aborting f =>
      obtain ⟨chunks, rest, v, passes, fails, fault, -, passed⟩ := tale
      rcases st.unsent_cases (.failure f) with taken | waits
      · rw [taken, List.append_nil] at passed
        exact .aborted passes fails fault passed
      · rw [waits] at passed
        exact .sent ⟨passes, List.append_cancel_right passed⟩
  | acknowledging =>
      obtain ⟨chunks, rest, sent, -⟩ := tale
      exact .sent sent
  | stopping | leaving =>
      obtain ⟨chunks, rest, sent⟩ := tale
      exact .sent sent
  | discarding | failing => exact tale

/-! ## Later scenes in which no more passed -/

theorem Sent.later {chunks rest} (sent : u.Sent s chunks rest) (later : Scene.Later s s')
    (same : s'.passed u.half = s.passed u.half) : u.Sent s' chunks rest :=
  ⟨sent.passes.later later.gates, same.trans sent.passed⟩

theorem Shape.later (shape : u.Shape s) (later : Scene.Later s s')
    (same : s'.passed u.half = s.passed u.half) : u.Shape s' := by
  cases shape with
  | sent sent => exact .sent (sent.later later same)
  | aborted passes fails fault passed =>
      exact .aborted (passes.later later.gates) (fails.later later.gates) fault (same.trans passed)

theorem Tale.later (tale : u.Tale s w st) (lt : u.stream < s.kinds.length)
    (later : Scene.Later s s') (same : s'.passed u.half = s.passed u.half) : u.Tale s' w st := by
  obtain ⟨bucket, key, source, phase⟩ := w
  cases phase with
  | starting =>
      obtain ⟨chunks, sent⟩ := tale
      exact ⟨chunks, sent.later later same⟩
  | blocked =>
      obtain ⟨chunks, gate, sent, known⟩ := tale
      refine ⟨chunks, gate, sent.later later same, ?_⟩
      rcases known with waits | ⟨v, v', bound, settled⟩ | ⟨v, bound, settled⟩
      · exact .inl waits
      · exact .inr (.inl ⟨v, v', bound, later.gates _ _ settled⟩)
      · exact .inr (.inr ⟨v, bound, later.gates _ _ settled⟩)
  | asking answer turns =>
      cases answer with
      | chunk | exhausted =>
          obtain ⟨chunks, sent⟩ := tale
          exact ⟨chunks, sent.later later same⟩
      | failed =>
          obtain ⟨chunks, rest, sent, fails⟩ := tale
          exact ⟨chunks, rest, sent.later later same, fails.later later.gates⟩
  | sending =>
      obtain ⟨chunks, v, passes, inCall, passed⟩ := tale
      exact ⟨chunks, v, passes.later later.gates, later.inCall lt inCall, same ▸ passed⟩
  | aborting f =>
      obtain ⟨chunks, rest, v, passes, fails, fault, inCall, passed⟩ := tale
      exact ⟨chunks, rest, v, passes.later later.gates, fails.later later.gates, fault,
        later.inCall lt inCall, same ▸ passed⟩
  | acknowledging =>
      obtain ⟨chunks, rest, sent, ended⟩ := tale
      exact ⟨chunks, rest, sent.later later same, ended.imp_right (later.closed _ lt)⟩
  | stopping | leaving =>
      obtain ⟨chunks, rest, sent⟩ := tale
      exact ⟨chunks, rest, sent.later later same⟩
  | discarding | failing => exact Shape.later tale later same

end Upload

/-! ## What becomes of a writer -/

theorem Stage.ofGates_settled {gates : String → Option Outcome} {gate : String} {o : Outcome}
    (settled : gates gate = some o) :
    ofGates gates [gate] = .bound (o.map fun _ => .undefined) := by
  cases o <;> simp [ofGates, gateFailure?, settled, Except.map]

namespace Upload

variable {k : Nat}

def thread (u : Upload) (k : Nat) (w : Writing) (st : Stage) : Thread P :=
  ⟨st, [.writing u.stream k w], .call u.call⟩

/-- Only the writer of an upload calls the client of its stream. -/
theorem client (known : u.Known s.events) (orderly : s.Orderly) {th : Thread P} {m}
    (calls : th.Calls s u.stream .client m) :
    (∃ k w, th = u.thread k w th.stage) ∨ m = .receive := by
  obtain ⟨stage, frames, owner⟩ := th
  cases calls with
  | reader => exact .inr rfl
  | writer frames owner opened =>
      obtain rfl := orderly.openedBy known.opened opened
      cases frames
      cases owner
      exact .inl ⟨_, _, rfl⟩
  | caller frames owner borrows => exact absurd borrows (orderly.not_borrows known.owns)

/-- Only the writer sends on the request half of an upload. -/
theorem offers (known : u.Known s.events) (orderly : s.Orderly) {th : Thread P}
    (proper : th.Proper s) {m terminal} (stage : th.stage = .offering u.half m terminal) :
    ∃ k w, th = u.thread k w th.stage := by
  obtain ⟨i, role, m', lt, calls, inCall⟩ := proper.calls (stage ▸ trivial)
  rw [stage] at inCall
  have same := inCall.offering.1
  cases role with
  | server => exact nomatch congrArg HalfId.side same
  | client =>
      obtain rfl : u.stream = i := congrArg HalfId.stream same
      rcases u.client known orderly calls with writer | rfl
      · exact writer
      · have hasStage := inCall.resolve_left nofun
        cases kind : s.kindOf u.stream <;> rw [kind] at hasStage <;> cases hasStage
        next receives => cases receives

theorem calls {i role m} (calls : Thread.Calls s (u.thread k w st) i role m) :
    i = u.stream ∧ role = .client := by
  cases calls with
  | service owner => exact nomatch owner
  | beside frames | reader frames | caller frames => exact nomatch frames
  | writer frames =>
      cases frames
      exact ⟨rfl, rfl⟩

/-- What becomes of the thread of a writer: its stage goes on while nothing passes, its message
passes, or the writer goes on. -/
theorem becomes {es ts ths} (known : u.Known s.events) (orderly : s.Orderly) (cast : s.Cast)
    (owned : s.Owned) (mem : u.thread k w st ∈ s.threads) (events : s'.events = es ++ s.events)
    (becomes : Scene.Becomes s s' es ts (u.thread k w st) ths) :
    (∃ st', ths = [u.thread k w st'] ∧ st.Goes s' st' ∧ s'.passed u.half = s.passed u.half ∧
      ∀ m terminal, st = .offering u.half m terminal → st' ≠ .sent u.half terminal true) ∨
    (∃ m terminal, st = .offering u.half m terminal ∧
      ths = [u.thread k w (.sent u.half terminal true)] ∧
      s'.passed u.half = s.passed u.half ++ [m]) ∨
    ∃ o, st = .bound o ∧
      ths = [(w.resume o).thread s.gates u.stream k [] (.call u.call)] ∧
      s'.passed u.half = s.passed u.half := by
  have only : ∀ other ∈ s.threads, ∀ m terminal, other.stage = .offering u.half m terminal →
      other.owner.name? = some (.inl u.call) := by
    intro other inside m terminal stage
    obtain ⟨k', w', same⟩ := u.offers known orderly (cast other inside) stage
    exact same ▸ rfl
  have deaf : st ≠ .wanting u.half := by
    rintro rfl
    obtain ⟨i, role, m', lt, called, inCall⟩ := (cast _ mem).calls trivial
    obtain ⟨-, rfl⟩ := u.calls called
    exact nomatch congrArg HalfId.side (inCall.hears (.inr (.inl rfl))).1
  rcases becomes.speaker events owned rfl only deaf with goes | taken | ⟨turns, passed⟩
  · exact .inl goes
  · exact .inr (.inl taken)
  · cases turns
    exact .inr (.inr ⟨_, rfl, rfl, passed⟩)

/-! ## The tale of a writer goes on -/

theorem entry_send (kind : s.kindOf u.stream = .upload) (v : Value) :
    (Method.send (u.request v)).entry (s.kindOf u.stream) .client =
      .sends .requests (.payload (u.request v)) false false := by
  rw [kind]
  rfl

theorem entry_abort (kind : s.kindOf u.stream = .upload) (f : Fault) :
    (Method.sendRaw (.rawError (.fault f))).entry (s.kindOf u.stream) .client =
      .sends .requests (.failure f) true true := by
  rw [kind, Method.entry_abort]

theorem Tale.goes (tale : u.Tale s w st) (kind : s.kindOf u.stream = .upload)
    (goes : st.Goes s st')
    (untaken : ∀ m terminal, st = .offering u.half m terminal →
      st' ≠ .sent u.half terminal true) :
    u.Tale s w st' := by
  obtain ⟨bucket, key, source, phase⟩ := w
  cases phase with
  | starting | acknowledging | stopping | leaving | discarding | failing => exact tale
  | asking answer => cases answer <;> exact tale
  | blocked =>
      obtain ⟨chunks, gate, sent, known⟩ := tale
      refine ⟨chunks, gate, sent, ?_⟩
      rcases known with rfl | ⟨v, v', rfl, settled⟩ | ⟨v, rfl, settled⟩
      · rcases Stage.waiting_goes goes with rfl | ⟨o, rfl, settled⟩
        · exact .inl rfl
        · cases o with
          | ok v => exact .inr (.inl ⟨.undefined, v, rfl, settled⟩)
          | error v => exact .inr (.inr ⟨v, rfl, settled⟩)
      · exact .inr (.inl ⟨v, v', Stage.bound_goes goes, settled⟩)
      · exact .inr (.inr ⟨v, Stage.bound_goes goes, settled⟩)
  | sending =>
      obtain ⟨chunks, v, passes, inCall, passed⟩ := tale
      refine ⟨chunks, v, passes, inCall.goes goes, ?_⟩
      rwa [Stage.unsent, inCall.succeeds_goes (entry_send kind v) goes (untaken _ _)]
  | aborting f =>
      obtain ⟨chunks, rest, v, passes, fails, fault, inCall, passed⟩ := tale
      refine ⟨chunks, rest, v, passes, fails, fault, inCall.goes goes, ?_⟩
      rwa [Stage.unsent, inCall.succeeds_goes (entry_abort kind f) goes (untaken _ _)]

theorem Tale.taken {m terminal} (tale : u.Tale s w (.offering u.half m terminal))
    (waits : w.Waits s u.stream (.offering u.half m terminal)) (kind : s.kindOf u.stream = .upload)
    (later : Scene.Later s s') (lt : u.stream < s.kinds.length)
    (handed : .handed u.half m ∈ s'.events)
    (passed : s'.passed u.half = s.passed u.half ++ [m]) :
    u.Tale s' w (.sent u.half terminal true) := by
  have told (m') : (Stage.sent u.half terminal true).unsent m' = [] := by
    cases terminal <;> rfl
  have receiving {role} (inCall :
      (Stage.offering u.half m terminal).InCall s u.stream role .awaitResponse)
      (entry : Method.awaitResponse.entry (s.kindOf u.stream) role = .closesAndReceives) :
      False := by
    have hasStage := inCall.resolve_left nofun
    rw [entry] at hasStage
    cases hasStage with
    | thenReceives _ receives => cases receives
  have sending {role method side m' terminal' relayed} (inCall :
      (Stage.offering u.half m terminal).InCall s u.stream role method)
      (entry : method.entry (s.kindOf u.stream) role = .sends side m' terminal' relayed) :
      m = m' := by
    have hasStage := inCall.resolve_left nofun
    rw [entry] at hasStage
    cases hasStage with
    | sends sends =>
        cases sends
        rfl
  cases waits.calls nofun with
  | discarding _ inCall => exact (receiving inCall (kind ▸ rfl)).elim
  | acknowledging inCall => exact (receiving inCall (kind ▸ rfl)).elim
  | sending =>
      obtain ⟨chunks, v, passes, inCall, sent⟩ := tale
      obtain rfl := sending inCall (entry_send kind v)
      refine ⟨chunks, v, passes.later later.gates,
        (later.inCall lt inCall).goes (.taken handed), ?_⟩
      rw [passed, told, List.append_nil, ← sent]
      rfl
  | aborting =>
      obtain ⟨chunks, rest, v, passes, fails, fault, inCall, sent⟩ := tale
      obtain rfl := sending inCall (entry_abort kind _)
      refine ⟨chunks, rest, v, passes.later later.gates, fails.later later.gates, fault,
        (later.inCall lt inCall).goes (.taken handed), ?_⟩
      rw [passed, told, List.append_nil, ← sent]
      rfl

inductive Ended (s : Scene P) (u : Upload) : Prop where
  /-- It handed over the failure of its source. -/
  | aborted {f} : .handed u.half (.failure f) ∈ s.events → Ended s u
  /-- The failure of its source has no text. -/
  | textless {chunks rest v f} : SourceItem.Passes s.gates u.source.items chunks rest →
    SourceItem.Fails s.gates v rest → v.toFault? = .error f → Ended s u
  | answered : s.closed u.half = true → s.Answered u.stream → Ended s u

theorem Ended.later (ended : u.Ended s) (lt : u.stream < s.kinds.length)
    (later : Scene.Later s s') : u.Ended s' := by
  cases ended with
  | aborted handed => exact .aborted (later.mem handed)
  | textless passes fails fault =>
      exact .textless (passes.later later.gates) (fails.later later.gates) fault
  | answered closed answered =>
      exact .answered (later.closed _ lt closed) (later.answered lt answered)

/-- Whether nothing but chunks passed before this response to an upload. -/
def Acked (s : Scene P) (u : Upload) (v : Value) : Prop :=
  (∃ chunks rest, u.Sent s chunks rest) ∧ .handed u.back (.payload v) ∈ s.events

theorem Acked.later {v} (acked : u.Acked s v) (later : Scene.Later s s')
    (same : s'.passed u.half = s.passed u.half) : u.Acked s' v := by
  obtain ⟨⟨chunks, rest, sent⟩, handed⟩ := acked
  exact ⟨⟨chunks, rest, sent.later later same⟩, later.mem handed⟩

theorem Sent.pull {chunks} (sent : u.Sent s chunks w.source.items) :
    ∃ w' st, w.pull.thread s.gates u.stream k [] (.call u.call) = (u.thread k w' st : Thread P) ∧
      w'.bucket = w.bucket ∧ w'.key = w.key ∧ u.Tale s w' st := by
  have advanced {item rest} (items : w.source.items = item :: rest) :
      w.source.advance.items = rest := by
    rw [Source.advance, items]
    rfl
  rw [Writing.pull]
  split
  next items =>
    rw [items] at sent
    exact ⟨_, _, rfl, rfl, rfl, chunks, sent⟩
  next v rest items =>
    rw [items, ← advanced items] at sent
    exact ⟨_, _, rfl, rfl, rfl, chunks, sent⟩
  next v rest items =>
    rw [items] at sent
    exact ⟨_, _, rfl, rfl, rfl, chunks, _, sent, .item⟩
  next gate rest items =>
    rw [items, ← advanced items] at sent
    refine ⟨_, _, rfl, rfl, rfl, chunks, gate, sent, ?_⟩
    cases settled : s.gates gate with
    | none => exact .inl (by simp [Stage.ofGates, Stage.gateFailure?, settled])
    | some o =>
        have ofGates := Stage.ofGates_settled settled
        cases o with
        | ok v => exact .inr (.inl ⟨_, v, ofGates, rfl⟩)
        | error v => exact .inr (.inr ⟨v, ofGates, rfl⟩)

/-- A writer that goes on is somewhere on its way again, or it is done. -/
def Resumed (s : Scene P) (u : Upload) (k : Nat) (th : Thread P) : Prop :=
  (∃ w' st, th = u.thread k w' st ∧ w'.bucket = u.bucket ∧ w'.key = u.key ∧ u.Tale s w' st) ∨
    ∃ o', th = ⟨.bound o', [], .call u.call⟩ ∧ u.Ended s ∧ ∀ v, o' = .ok v → u.Acked s v

theorem Tale.resume_asking {source : Source} {answer turns o st}
    (tale : u.Tale s ⟨u.bucket, u.key, source, .asking answer turns⟩ st) :
    u.Resumed s k ((Writing.resume ⟨u.bucket, u.key, source, .asking answer turns⟩ o).thread
      s.gates u.stream k [] (.call u.call)) := by
  match turns, answer with
  | turns + 2, .chunk v | turns + 2, .exhausted | turns + 2, .failed v =>
      exact .inl ⟨_, _, rfl, rfl, rfl, tale⟩
  | 0, .chunk v | 1, .chunk v =>
      obtain ⟨chunks, sent⟩ := tale
      refine .inl ⟨_, _, rfl, rfl, rfl, chunks, v, sent.passes, .inl rfl, ?_⟩
      rw [sent.passed, requests_append]
      rfl
  | 0, .exhausted | 1, .exhausted =>
      obtain ⟨chunks, sent⟩ := tale
      exact .inl ⟨_, _, rfl, rfl, rfl, chunks, [], sent, .inl rfl⟩
  | 0, .failed v | 1, .failed v =>
      obtain ⟨chunks, rest, sent, fails⟩ := tale
      simp only [Writing.resume, Writing.abort]
      cases fault : v.toFault? with
      | ok f =>
          refine .inl
            ⟨_, _, rfl, rfl, rfl, chunks, rest, v, sent.passes, fails, fault, .inl rfl, ?_⟩
          rw [sent.passed]
          rfl
      | error f => exact .inr ⟨_, rfl, .textless sent.passes fails fault, (by rintro _ ⟨⟩)⟩

theorem Tale.resume_acknowledging {source : Source} {o}
    (tale : u.Tale s ⟨u.bucket, u.key, source, .acknowledging⟩ (.bound o))
    (inCall : (Stage.bound o).InCall s u.stream .client .awaitResponse)
    (kind : s.kindOf u.stream = .upload) :
    u.Resumed s k ((Writing.resume ⟨u.bucket, u.key, source, .acknowledging⟩ o).thread
      s.gates u.stream k [] (.call u.call)) := by
  obtain ⟨chunks, rest, sent, -⟩ := tale
  have hasStage := inCall.came
  rw [kind] at hasStage
  obtain ⟨closed, answered⟩ := hasStage.answered
  cases hasStage with
  | thenReceives _ receives =>
      cases receives with
      | eof | failure => exact .inr ⟨_, rfl, .answered closed answered, (by rintro _ ⟨⟩)⟩
      | @payload v handed =>
          have acked : u.Acked s v := ⟨⟨chunks, rest, sent⟩, handed⟩
          cases v with
          | eof => exact .inr ⟨_, rfl, .answered closed answered, (by rintro _ ⟨⟩)⟩
          | _ =>
              exact .inr
                ⟨_, rfl, .answered closed answered, fun v same => Except.ok.inj same ▸ acked⟩

theorem Tale.resume {o} (tale : u.Tale s w (.bound o)) (waits : w.Waits s u.stream (.bound o))
    (kind : s.kindOf u.stream = .upload) (bucket : w.bucket = u.bucket) (key : w.key = u.key) :
    u.Resumed s k ((w.resume o).thread s.gates u.stream k [] (.call u.call)) := by
  have shape := tale.shape
  obtain ⟨_, _, source, phase⟩ := w
  obtain rfl : _ = u.bucket := bucket
  obtain rfl : _ = u.key := key
  cases phase with
  | starting =>
      obtain ⟨chunks, sent⟩ := tale
      exact .inl sent.pull
  | blocked =>
      obtain ⟨chunks, gate, sent, known⟩ := tale
      rcases known with waiting | ⟨v, v', bound, settled⟩ | ⟨v, bound, settled⟩
      · cases waiting
      · cases bound
        exact .inl (Sent.pull ⟨.gate sent.passes settled, sent.passed⟩)
      · cases bound
        exact .inl ⟨_, _, rfl, rfl, rfl, chunks, _, sent, .gate settled⟩
  | asking => exact tale.resume_asking
  | sending =>
      obtain ⟨chunks, v, passes, inCall, passed⟩ := tale
      have hasStage := inCall.came
      rw [entry_send kind] at hasStage
      rcases hasStage.told.1 with ⟨rfl, -⟩ | ⟨rfl, closed⟩
      · exact .inl (Sent.pull ⟨.chunk passes, (List.append_nil _).symm.trans passed⟩)
      · refine .inl ⟨_, _, rfl, rfl, rfl, chunks, _, passes, ?_⟩
        rw [requests_append] at passed
        exact List.append_cancel_right passed
  | stopping failure =>
      obtain ⟨rfl, -, closed⟩ := waits
      exact .inl ⟨_, _, rfl, rfl, rfl, tale⟩
  | leaving failure =>
      obtain ⟨rfl, -, closed⟩ := waits
      obtain ⟨chunks, rest, sent⟩ := tale
      exact .inl ⟨_, _, rfl, rfl, rfl, chunks, rest, sent, .inr closed⟩
  | aborting f =>
      obtain ⟨-, -, -, -, -, -, inCall, -⟩ := tale
      have hasStage := inCall.came
      rw [entry_abort kind] at hasStage
      rcases hasStage.told.1 with ⟨rfl, handed⟩ | ⟨rfl, closed⟩
      · exact .inr ⟨_, rfl, .aborted handed, (by rintro _ ⟨⟩)⟩
      · exact .inl ⟨_, _, rfl, rfl, rfl, shape⟩
  | discarding f =>
      cases o with
      | ok | error => exact .inl ⟨_, _, rfl, rfl, rfl, shape⟩
  | failing f => exact .inr ⟨_, rfl, .answered waits.2.1 waits.2.2, (by rintro _ ⟨⟩)⟩
  | acknowledging => exact tale.resume_acknowledging waits kind

/-! ## Accounts -/

/-- What became of an upload: its writer tells how far it is, or it ended. -/
inductive Account (s : Scene P) (u : Upload) : Prop where
  | writing {k : Nat} {w : Writing} {st : Stage} : u.thread k w st ∈ s.threads →
    w.bucket = u.bucket → w.key = u.key → u.Tale s w st → Account s u
  | finished {o} : s.Over u.call o → u.Shape s → u.Ended s →
      (∀ v, o = .ok v → u.Acked s v) → Account s u

theorem Account.shape (account : u.Account s) : u.Shape s := by
  cases account with
  | writing _ _ _ tale => exact tale.shape
  | finished _ shape => exact shape

theorem writer_waits (cast : s.Cast)
    (mem : u.thread k w st ∈ s.threads) :
    u.stream < s.kinds.length ∧ s.kindOf u.stream = .upload ∧ w.Waits s u.stream st := by
  have proper := cast _ mem
  rw [thread] at proper
  cases proper with
  | writer lt kind _ _ waits => exact ⟨lt, kind, waits⟩

theorem Account.step (account : u.Account s) (known : u.Known s.events) (orderly : s.Orderly)
    (cast : s.Cast) (owned : s.Owned) (step : Scene.Step s s') : u.Account s' := by
  have later := step.later
  obtain ⟨below, lt⟩ := orderly.opened known.opened
  cases account with
  | @writing k w st mem bucket key tale =>
      obtain ⟨-, kind, waits⟩ := writer_waits cast mem
      obtain ⟨parts⟩ := step.parts
      obtain ⟨ths, becomes, results⟩ := parts.fate mem
      rcases u.becomes known orderly cast owned mem parts.events_eq becomes with
        ⟨st', rfl, goes, same, untaken⟩ | ⟨m, terminal, rfl, rfl, passed⟩ | ⟨o, rfl, rfl, same⟩
      · exact .writing (results _ List.mem_cons_self) bucket key
          ((tale.later lt later same).goes ((later.kindOf lt).trans kind) goes untaken)
      · have handed : .handed u.half m ∈ s'.events := by
          have mem : m ∈ s'.passed u.half := passed ▸ List.mem_append_right _ List.mem_cons_self
          exact Scene.mem_passed.mp mem
        exact .writing (results _ List.mem_cons_self) bucket key
          (tale.taken waits kind later lt handed passed)
      · have mem' := results _ List.mem_cons_self
        rcases tale.resume waits kind bucket key (k := k) with
          ⟨w', st', thread, bucket', key', tale'⟩ | ⟨o', thread, ended, acked⟩
        · rw [thread] at mem'
          exact .writing mem' bucket' key' (tale'.later lt later same)
        · rw [thread] at mem'
          exact .finished (.of_thread (owned.step step) mem') (tale.shape.later later same)
            (ended.later lt later) fun v ok => (acked v ok).later later same
  | finished finished shape ended acked =>
      have same : s'.passed u.half = s.passed u.half := by
        obtain ⟨es, events, calm | ⟨h, m, fs, w, terminal, fs', w', rfl, -, -, offers, -⟩⟩ :=
          step.news
        · exact Scene.passed_eq es events (calm _)
        · refine Scene.passed_eq _ events ?_
          intro m' mem
          obtain ⟨rfl, rfl⟩ : u.half = h ∧ m' = m := by simpa using mem
          obtain ⟨k, w, same⟩ := u.offers known orderly (cast _ offers) rfl
          have done := finished.threads _ offers (same ▸ rfl)
          exact nomatch congrArg Thread.stage done
      exact .finished (finished.step below step) (shape.later later same) (ended.later lt later)
        fun v ok => (acked v ok).later later same

theorem account (reachable : s.Reachable) (known : u.Known s.events) : u.Account s := by
  induction reachable with
  | refl => exact absurd known.opened List.not_mem_nil
  | @tail s s' steps step ih =>
      have reached : s.Reachable := steps
      rcases step.openedBefore reached.orderly known.opened known.called with
        ⟨opened, called⟩ | ⟨call, stream, kind, invocation, opens, rfl⟩
      · exact (ih ⟨called, opened⟩).step ⟨called, opened⟩ reached.orderly reached.cast
          reached.owned step
      · cases opens
        have nothing : s.passed u.half = [] := by
          refine List.eq_nil_iff_forall_not_mem.mpr fun m mem => ?_
          exact absurd (reached.seals _ _ (Scene.mem_passed.mp mem)).1 (stream ▸ Nat.lt_irrefl _)
        have first : u.thread (s.sources + 1) (.start u.bucket u.key u.source)
            (.bound (.ok .undefined)) ∈ (s.opened u.pluginCall .upload .put).threads := by
          refine Multiset.mem_cons_of_mem ?_
          rw [thread, stream, call]
          exact Multiset.mem_cons_self _ _
        exact .writing first rfl rfl ⟨[], .none, nothing⟩

theorem tale (reachable : s.Reachable) (known : u.Known s.events)
    (mem : u.thread k w st ∈ s.threads) : u.Tale s w st := by
  cases u.account reachable known with
  | writing mem' _ _ tale =>
      cases reachable.owned.eq mem mem' rfl rfl
      exact tale
  | finished finished => exact nomatch congrArg Thread.frames (finished.threads _ mem rfl)

end Upload

end ObjectTransfer
