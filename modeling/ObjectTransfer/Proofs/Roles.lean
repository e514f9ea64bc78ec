import ObjectTransfer.Proofs.CallStages
import ObjectTransfer.Proofs.Openings

/-! # The roles of threads

Every thread of a reachable scene plays one of a few roles (`Thread.Proper`): it serves a stream, it
goes on with a handler beside the service, or it is a call of the host on a client. Which functions
wait in a thread, who owns it and what it waits for fit together.
-/

namespace ObjectTransfer

variable {P : Plugin}

def Invocation.kind : Invocation → StreamKind
  | get _ _ => .download
  | put => .upload

/-- The stages of a function outside any call. -/
inductive Stage.Rests : Stage → Prop where
  | bound {o} : Rests (.bound o)
  | waiting {names} : Rests (.waiting names)

def Stage.Handles (s : Scene P) (i : StreamId) (st : Stage) : Prop :=
  st.Rests ∨ ∃ m, st.InCall s i .server m

inductive Stage.Delivers (s : Scene P) (i : StreamId) : Stage → Prop where
  | closing {f} : Delivers s i (.closing ⟨i, .requests⟩ (.delivering i f))
  | delivering {f} : s.closed ⟨i, .requests⟩ = true → Delivers s i (.delivering i f)
  | calling {f st} : s.closed ⟨i, .requests⟩ = true → st.InCall s i .server (.fail (.fault f)) →
    Delivers s i st
  | undelivered {o} : s.closed ⟨i, .requests⟩ = true → s.closed ⟨i, .responses⟩ = true →
    Delivers s i (.bound o)

inductive Stage.Finishes (s : Scene P) (i : StreamId) : Stage → Prop where
  | requests {o} : Finishes s i (.finishing i o)
  | responses {o} : s.closed ⟨i, .requests⟩ = true →
    Finishes s i (.closing ⟨i, .responses⟩ (.bound o))
  | finished {o} : s.closed ⟨i, .requests⟩ = true → s.closed ⟨i, .responses⟩ = true →
    Finishes s i (.bound o)

/-- Whether a response was handed over or can no longer be. -/
def Scene.Answered (s : Scene P) (i : StreamId) : Prop :=
  s.closed ⟨i, .responses⟩ = true ∨ ∃ m, .handed ⟨i, .responses⟩ m ∈ s.events

/-- The stages of a writer in its phase. -/
def Writing.Waits (s : Scene P) (i : StreamId) (w : Writing) (st : Stage) : Prop :=
  match w.phase with
  | .starting | .asking _ _ => st = .bound (.ok .undefined)
  | .blocked => st.Rests
  | .sending => ∃ chunk, st.InCall s i .client (.send (w.request chunk))
  | .stopping failure | .leaving failure =>
    failure = none ∧ st = .bound (.ok .undefined) ∧ s.closed ⟨i, .requests⟩ = true
  | .aborting f => st.InCall s i .client (.sendRaw (.rawError (.fault f)))
  | .discarding _ => s.closed ⟨i, .requests⟩ = true ∧ st.InCall s i .client .awaitResponse
  | .failing _ => st = .bound (.ok .undefined) ∧ s.closed ⟨i, .requests⟩ = true ∧ s.Answered i
  | .acknowledging => st.InCall s i .client .awaitResponse

/-- The roles of threads. -/
inductive Thread.Proper (s : Scene P) : Thread P → Prop where
  | starting {i invocation} : i < s.kinds.length → s.kindOf i = invocation.kind →
    Proper s ⟨.starting i invocation, [.serving i], .service i⟩
  | handler {i st state} : i < s.kinds.length → st.Handles s i →
    Proper s ⟨st, [.handling i state, .serving i], .service i⟩
  /-- A handler that goes on beside the service. -/
  | beside {i st state} : i < s.kinds.length → st.Handles s i →
    Proper s ⟨st, [.handling i state], .nobody⟩
  | served {i o} : i < s.kinds.length → Proper s ⟨.bound o, [.serving i], .service i⟩
  | delivering {i st} : i < s.kinds.length → st.Delivers s i →
    Proper s ⟨st, [.delivering i], .service i⟩
  | finishing {i st} : i < s.kinds.length → st.Finishes s i → Proper s ⟨st, [], .service i⟩
  | reader {i r n st} : i < s.kinds.length → Event.Uses s.events n i →
    st.InCall s i .client .receive → Proper s ⟨st, [.reading i r], .call n⟩
  | writer {i k w n st source} : i < s.kinds.length → s.kindOf i = .upload →
    .opened n i ∈ s.events → .called n (.plugin (.write w.bucket w.key source)) ∈ s.events →
    w.Waits s i st → Proper s ⟨st, [.writing i k w], .call n⟩
  | caller {i m n st w} : i < s.kinds.length → Event.Borrows s.events n i →
    w = .call n ∨ w = .plain n → st.InCall s i .client m → Proper s ⟨st, [], w⟩
  /-- Only the owner is still to learn the outcome. -/
  | finished {o w} : (∀ i, w ≠ .service i) → Proper s ⟨.bound o, [], w⟩

variable {s s' : Scene P} {i : StreamId} {st st' : Stage}

/-! ## Later scenes -/

namespace Scene.Later

theorem handles (later : Later s s') (lt : i < s.kinds.length) (handles : st.Handles s i) :
    st.Handles s' i := by
  rcases handles with rests | ⟨m, inCall⟩
  · exact .inl rests
  · exact .inr ⟨m, later.inCall lt inCall⟩

theorem delivers (later : Later s s') (lt : i < s.kinds.length) (delivers : st.Delivers s i) :
    st.Delivers s' i := by
  cases delivers with
  | closing => exact .closing
  | delivering requests => exact .delivering (later.closed _ lt requests)
  | calling requests inCall =>
      exact .calling (later.closed _ lt requests) (later.inCall lt inCall)
  | undelivered requests responses =>
      exact .undelivered (later.closed _ lt requests) (later.closed _ lt responses)

theorem finishes (later : Later s s') (lt : i < s.kinds.length) (finishes : st.Finishes s i) :
    st.Finishes s' i := by
  cases finishes with
  | requests => exact .requests
  | responses requests => exact .responses (later.closed _ lt requests)
  | finished requests responses =>
      exact .finished (later.closed _ lt requests) (later.closed _ lt responses)

theorem answered (later : Later s s') (lt : i < s.kinds.length) (answered : s.Answered i) :
    s'.Answered i := by
  rcases answered with closed | ⟨m, handed⟩
  · exact .inl (later.closed _ lt closed)
  · exact .inr ⟨m, later.mem handed⟩

theorem waits (later : Later s s') (lt : i < s.kinds.length) {w : Writing}
    (waits : w.Waits s i st) : w.Waits s' i st := by
  obtain ⟨bucket, key, source, phase⟩ := w
  cases phase with
  | starting | asking | blocked => exact waits
  | sending =>
      obtain ⟨chunk, inCall⟩ := waits
      exact ⟨chunk, later.inCall lt inCall⟩
  | stopping | leaving => exact ⟨waits.1, waits.2.1, later.closed _ lt waits.2.2⟩
  | aborting | acknowledging => exact later.inCall lt waits
  | discarding => exact ⟨later.closed _ lt waits.1, later.inCall lt waits.2⟩
  | failing => exact ⟨waits.1, later.closed _ lt waits.2.1, later.answered lt waits.2.2⟩

theorem proper (later : Later s s') {th : Thread P} (proper : th.Proper s) : th.Proper s' := by
  cases proper with
  | starting lt kind => exact .starting (later.lt lt) ((later.kindOf lt).trans kind)
  | handler lt handles => exact .handler (later.lt lt) (later.handles lt handles)
  | beside lt handles => exact .beside (later.lt lt) (later.handles lt handles)
  | served lt => exact .served (later.lt lt)
  | delivering lt delivers => exact .delivering (later.lt lt) (later.delivers lt delivers)
  | finishing lt finishes => exact .finishing (later.lt lt) (later.finishes lt finishes)
  | reader lt uses inCall =>
      exact .reader (later.lt lt) (uses.later later.events) (later.inCall lt inCall)
  | writer lt kind opened called waits =>
      exact .writer (later.lt lt) ((later.kindOf lt).trans kind) (later.mem opened)
        (later.mem called) (later.waits lt waits)
  | caller lt borrows owner inCall =>
      exact .caller (later.lt lt) (borrows.later later.events) owner (later.inCall lt inCall)
  | finished owner => exact .finished owner

end Scene.Later

/-! ## Stages -/

namespace Stage

theorem Rests.goes (rests : st.Rests) (goes : st.Goes s st') : st'.Rests := by
  cases rests with
  | bound => exact bound_goes goes ▸ .bound
  | waiting =>
      cases goes with
      | @gate name o =>
          simp only [afterGate]
          split
          · cases o with
            | error v => exact .bound
            | ok v =>
                simp only
                split
                · exact .bound
                · exact .waiting
          · exact .waiting
      | _ => exact .waiting

theorem rests_ofGates (gates : String → Option Outcome) (names : List String) :
    (ofGates gates names).Rests := by
  simp only [ofGates]
  split
  · exact .bound
  · split
    · exact .bound
    · exact .waiting

theorem Handles.goes (handles : st.Handles s i) (goes : st.Goes s st') : st'.Handles s i := by
  rcases handles with rests | ⟨m, inCall⟩
  · exact .inl (rests.goes goes)
  · exact .inr ⟨m, inCall.goes goes⟩

theorem Delivers.goes (delivers : st.Delivers s i) (goes : st.Goes s st') : st'.Delivers s i := by
  cases delivers with
  | closing =>
      cases goes with
      | shut closed => exact .delivering closed
      | _ => exact .closing
  | delivering requests =>
      cases goes with
      | undelivered responses => exact .undelivered requests responses
      | deliver => exact .calling requests (.inl rfl)
      | _ => exact .delivering requests
  | calling requests inCall => exact .calling requests (inCall.goes goes)
  | undelivered requests responses => exact bound_goes goes ▸ .undelivered requests responses

theorem Finishes.goes (finishes : st.Finishes s i) (goes : st.Goes s st') :
    st'.Finishes s i := by
  cases finishes with
  | requests =>
      cases goes with
      | shut closed => exact .responses closed
      | _ => exact .requests
  | responses requests =>
      cases goes with
      | shut closed => exact .finished requests closed
      | _ => exact .responses requests
  | finished requests responses => exact bound_goes goes ▸ .finished requests responses

end Stage

theorem Writing.Waits.goes {w : Writing} (waits : w.Waits s i st) (goes : st.Goes s st') :
    w.Waits s i st' := by
  obtain ⟨bucket, key, source, phase⟩ := w
  cases phase with
  | starting | asking =>
      cases waits
      exact Stage.bound_goes goes
  | blocked => exact Stage.Rests.goes waits goes
  | sending =>
      obtain ⟨chunk, inCall⟩ := waits
      exact ⟨chunk, inCall.goes goes⟩
  | stopping | leaving =>
      obtain ⟨failure, rfl, closed⟩ := waits
      exact ⟨failure, Stage.bound_goes goes, closed⟩
  | aborting | acknowledging => exact Stage.InCall.goes waits goes
  | discarding => exact ⟨waits.1, waits.2.goes goes⟩
  | failing =>
      obtain ⟨rfl, known⟩ := waits
      exact ⟨Stage.bound_goes goes, known⟩

/-- A writer in the middle of a call. -/
inductive Writing.Calls (s : Scene P) (i : StreamId) (st : Stage) : Writing → Prop where
  | sending {bucket key source chunk} :
    st.InCall s i .client (.send (Writing.request ⟨bucket, key, source, .sending⟩ chunk)) →
    Calls s i st ⟨bucket, key, source, .sending⟩
  | aborting {bucket key source f} : st.InCall s i .client (.sendRaw (.rawError (.fault f))) →
    Calls s i st ⟨bucket, key, source, .aborting f⟩
  | discarding {bucket key source f} : s.closed ⟨i, .requests⟩ = true →
    st.InCall s i .client .awaitResponse → Calls s i st ⟨bucket, key, source, .discarding f⟩
  | acknowledging {bucket key source} : st.InCall s i .client .awaitResponse →
    Calls s i st ⟨bucket, key, source, .acknowledging⟩

theorem Writing.Waits.calls {w : Writing} (waits : w.Waits s i st) (busy : ¬ st.Rests) :
    w.Calls s i st := by
  obtain ⟨bucket, key, source, phase⟩ := w
  cases phase with
  | starting | asking => exact absurd (waits ▸ .bound) busy
  | blocked => exact absurd waits busy
  | stopping | leaving => exact absurd (waits.2.1 ▸ .bound) busy
  | failing => exact absurd (waits.1 ▸ .bound) busy
  | sending =>
      obtain ⟨chunk, inCall⟩ := waits
      exact .sending inCall
  | aborting => exact .aborting waits
  | discarding => exact .discarding waits.1 waits.2
  | acknowledging => exact .acknowledging waits

theorem Writing.Calls.inCall {w : Writing} (calls : w.Calls s i st) :
    ∃ m, st.InCall s i .client m := by
  cases calls with
  | sending inCall | aborting inCall | discarding _ inCall | acknowledging inCall =>
      exact ⟨_, inCall⟩

theorem Thread.Proper.goes {th : Thread P} (proper : th.Proper s) {stage : Stage}
    (goes : th.stage.Goes s stage) : Proper s { th with stage } := by
  cases proper with
  | starting lt kind => 
      cases goes <;> exact .starting lt kind
  | handler lt handles => exact .handler lt (handles.goes goes)
  | beside lt handles => exact .beside lt (handles.goes goes)
  | served lt => exact Stage.bound_goes goes ▸ .served lt
  | delivering lt delivers => exact .delivering lt (delivers.goes goes)
  | finishing lt finishes => exact .finishing lt (finishes.goes goes)
  | reader lt uses inCall => exact .reader lt uses (inCall.goes goes)
  | writer lt kind opened called waits => exact .writer lt kind opened called (waits.goes goes)
  | caller lt borrows owner inCall => exact .caller lt borrows owner (inCall.goes goes)
  | finished owner =>
      cases Stage.bound_goes goes
      exact .finished owner

/-! ## After a closing -/

/-- What a thread goes on with after it closed a half. -/
inductive Stage.Follows : Stage → Prop where
  | bound {o} : Follows (.bound o)
  | asking {h} : Follows (.asking h)
  | delivering {i f} : Follows (.delivering i f)
  | closing {h o} : Follows (.closing h (.bound o))

theorem Stage.InCall.follows {role m} {h : HalfId} {next : Stage}
    (inCall : (closing h next).InCall s i role m) : next.Follows := by
  have hasStage := inCall.resolve_left nofun
  generalize m.entry (s.kindOf i) role = e at hasStage
  cases hasStage with
  | receives receives | thenReceives _ receives =>
      cases receives
      exact .bound
  | sends sends =>
      cases sends
      exact .bound
  | closing | closingOpen => exact .bound
  | closingFirst => exact .asking

theorem Writing.Waits.follows {w : Writing} {h : HalfId} {next : Stage}
    (waits : w.Waits s i (.closing h next)) : next.Follows := by
  obtain ⟨m, inCall⟩ := (waits.calls nofun).inCall
  exact inCall.follows

theorem Thread.Proper.follows {h : HalfId} {next : Stage} {fs w}
    (proper : Thread.Proper s ⟨.closing h next, fs, w⟩) : next.Follows := by
  cases proper with
  | handler _ handles | beside _ handles =>
      rcases handles with rests | ⟨m, inCall⟩
      · cases rests
      · exact inCall.follows
  | delivering _ delivers =>
      cases delivers with
      | closing => exact .delivering
      | calling _ inCall => exact inCall.follows
  | finishing _ finishes =>
      cases finishes with
      | requests => exact .closing
      | responses => exact .bound
  | reader _ _ inCall | caller _ _ _ inCall => exact inCall.follows
  | writer _ _ _ _ waits => exact waits.follows

/-! ## Functions that go on -/

theorem Method.entry_send (w : Writing) (chunk : Value) :
    (Method.send (w.request chunk)).entry .upload .client =
      .sends .requests (.payload (w.request chunk)) false false := rfl

theorem Method.entry_abort (f : Fault) :
    (Method.sendRaw (.rawError (.fault f))).entry .upload .client =
      .sends .requests (.failure f) true true := by
  simp [Method.entry, Entry.ofRaw, Value.rawError, Value.isNothing, Value.member,
    Value.ownMember?, Entry.ofError]

theorem Method.entry_fail (kind : StreamKind) (f : Fault) :
    ∃ relayed, (Method.fail (.fault f)).entry kind .server =
      .sends .responses (.failure f) true relayed := by
  cases kind <;> exact ⟨_, rfl⟩

/-- What a call of a method came to. -/
theorem Stage.InCall.came {role m o} (inCall : (bound o).InCall s i role m) :
    (m.entry (s.kindOf i) role).HasStage s i (.bound o) :=
  inCall.resolve_left nofun

theorem Entry.HasStage.told {side m terminal relayed o}
    (hasStage : (Entry.sends side m terminal relayed).HasStage s i (.bound o)) :
    s.Told ⟨i, side⟩ m o ∧ (terminal = true → s.closed ⟨i, side⟩ = true) := by
  cases hasStage with
  | sends sends =>
      cases sends with
      | told told closed => exact ⟨told, closed⟩

theorem Entry.HasStage.answered {o} (hasStage : Entry.closesAndReceives.HasStage s i (.bound o)) :
    s.closed ⟨i, .requests⟩ = true ∧ s.Answered i := by
  cases hasStage with
  | thenReceives requests receives =>
      refine ⟨requests, ?_⟩
      cases receives with
      | eof closed => exact .inl closed
      | payload handed => exact .inr ⟨_, handed⟩
      | failure _ closed => exact .inl closed

namespace Writing

theorem waits_pull (w : Writing) {frames : List (Frame P)} {owner k} :
    ∃ (v : Writing) (st : Stage),
      w.pull.thread s.gates i k frames owner = ⟨st, .writing i k v :: frames, owner⟩ ∧
      v.bucket = w.bucket ∧ v.key = w.key ∧ v.Waits s i st := by
  simp only [pull]
  split
  · exact ⟨_, _, rfl, rfl, rfl, rfl⟩
  · exact ⟨_, _, rfl, rfl, rfl, rfl⟩
  · exact ⟨_, _, rfl, rfl, rfl, rfl⟩
  · exact ⟨_, _, rfl, rfl, rfl, Stage.rests_ofGates _ _⟩

theorem Waits.resume {w : Writing} {o : Outcome} (kind : s.kindOf i = .upload)
    (waits : w.Waits s i (.bound o)) {frames : List (Frame P)} {owner k} :
    (∃ (v : Writing) (st : Stage),
      (w.resume o).thread s.gates i k frames owner = ⟨st, .writing i k v :: frames, owner⟩ ∧
      v.bucket = w.bucket ∧ v.key = w.key ∧ v.Waits s i st) ∨
    ∃ o', (w.resume o).thread s.gates i k frames owner = ⟨.bound o', frames, owner⟩ := by
  obtain ⟨bucket, key, source, phase⟩ := w
  cases phase with
  | starting => exact .inl (waits_pull _)
  | blocked =>
      cases o with
      | ok => exact .inl (waits_pull _)
      | error => exact .inl ⟨_, _, rfl, rfl, rfl, rfl⟩
  | asking answer turns =>
      match turns, answer with
      | turns + 2, _ => exact .inl ⟨_, _, rfl, rfl, rfl, rfl⟩
      | 0, .chunk v | 1, .chunk v => exact .inl ⟨_, _, rfl, rfl, rfl, v, .inl rfl⟩
      | 0, .exhausted | 1, .exhausted => exact .inl ⟨_, _, rfl, rfl, rfl, .inl rfl⟩
      | 0, .failed v | 1, .failed v =>
          simp only [Writing.resume, abort]
          cases v.toFault? with
          | ok f => exact .inl ⟨_, _, rfl, rfl, rfl, .inl rfl⟩
          | error f => exact .inr ⟨_, rfl⟩
  | sending =>
      obtain ⟨chunk, inCall⟩ := waits
      have hasStage := inCall.came
      rw [kind, Method.entry_send] at hasStage
      rcases hasStage.told.1 with ⟨rfl, -⟩ | ⟨rfl, closed⟩
      · exact .inl (waits_pull _)
      · exact .inl ⟨_, _, rfl, rfl, rfl, rfl, rfl, closed⟩
  | stopping failure =>
      obtain ⟨rfl, -, closed⟩ := waits
      exact .inl ⟨_, _, rfl, rfl, rfl, rfl, rfl, closed⟩
  | leaving failure =>
      obtain ⟨rfl, -⟩ := waits
      exact .inl ⟨_, _, rfl, rfl, rfl, .inl rfl⟩
  | aborting f =>
      have hasStage := Stage.InCall.came waits
      rw [kind, Method.entry_abort] at hasStage
      rcases hasStage.told.1 with ⟨rfl, -⟩ | ⟨rfl, closed⟩
      · exact .inr ⟨_, rfl⟩
      · exact .inl ⟨_, _, rfl, rfl, rfl, closed, .inl rfl⟩
  | discarding f =>
      have hasStage := waits.2.came
      rw [kind] at hasStage
      cases o with
      | ok | error => exact .inl ⟨_, _, rfl, rfl, rfl, rfl, hasStage.answered⟩
  | failing f => exact .inr ⟨_, rfl⟩
  | acknowledging =>
      cases o with
      | ok v => cases v <;> exact .inr ⟨_, rfl⟩
      | error v => exact .inr ⟨_, rfl⟩

end Writing

theorem Act.threads_proper {act : Act P.Local} {frames : List (Frame P)} {owner : Owner}
    {gates : String → Option Outcome}
    (handler : ∀ {st state}, st.Handles s i →
      Thread.Proper s ⟨st, .handling i state :: frames, owner⟩)
    (finished : ∀ o, Thread.Proper s ⟨.bound o, frames, owner⟩) (lt : i < s.kinds.length) :
    ∀ th ∈ act.threads gates i frames owner, th.Proper s := by
  intro th mem
  cases act with
  | call m next =>
      obtain rfl := List.mem_singleton.mp mem
      exact handler (.inr ⟨m, .inl rfl⟩)
  | wait gate next =>
      obtain rfl := List.mem_singleton.mp mem
      exact handler (.inl (Stage.rests_ofGates _ _))
  | rest | did | log =>
      obtain rfl := List.mem_singleton.mp mem
      exact handler (.inl .bound)
  | fork child next =>
      simp only [Act.threads, List.mem_cons, List.not_mem_nil, or_false] at mem
      rcases mem with rfl | rfl
      · exact .beside lt (.inl .bound)
      · exact handler (.inl .bound)
  | succeed | fail | refuse =>
      obtain rfl := List.mem_singleton.mp mem
      exact finished _

theorem Thread.served_proper (lt : i < s.kinds.length) (o : Outcome) :
    (Thread.served i [] (.service i) o : Thread P).Proper s := by
  simp only [served]
  split
  · exact .finishing lt .requests
  · split
    · exact .finishing lt .requests
    · split
      · exact .delivering lt .closing
      · exact .finishing lt .requests

theorem Thread.Proper.turns {th : Thread P} {ths es} (proper : th.Proper s)
    (turns : th.Turns s ths es) : ∀ th' ∈ ths, th'.Proper s := by
  intro th' mem
  cases turns with
  | start =>
      obtain rfl := List.mem_singleton.mp mem
      cases proper with
      | starting lt => exact .handler lt (.inl .bound)
  | handle =>
      cases proper with
      | handler lt =>
          exact Act.threads_proper (.handler lt) (fun _ => .served lt) lt th' mem
      | beside lt =>
          exact Act.threads_proper (.beside lt) (fun _ => .finished nofun) lt th' mem
  | @read o i r =>
      obtain rfl := List.mem_singleton.mp mem
      cases proper with
      | reader lt uses =>
          cases r.resume o with
          | again r => exact .reader lt uses (.inl rfl)
          | done o => exact .finished nofun
  | write =>
      obtain rfl := List.mem_singleton.mp mem
      cases proper with
      | writer lt kind opened called waits =>
          rcases waits.resume kind with ⟨v, st, thread, bucket, key, waits⟩ | ⟨o, thread⟩
          · rw [thread]
            exact .writer lt kind opened (bucket ▸ key ▸ called) waits
          · rw [thread]
            exact .finished nofun
  | serve =>
      obtain rfl := List.mem_singleton.mp mem
      cases proper with
      | served lt => exact Thread.served_proper lt _
  | delivered =>
      obtain rfl := List.mem_singleton.mp mem
      cases proper with
      | delivering lt => exact .finishing lt .requests
  | follow => cases proper
  | settle => exact absurd mem List.not_mem_nil

namespace Scene

theorem firstThread_stage (s : Scene P) (c : PluginCall) :
    (∃ o, (s.firstThread c).stage = .bound o) ∨
      ∃ i m, (s.firstThread c).stage = .entering i .client m := by
  cases c with
  | read => exact .inr ⟨_, _, rfl⟩
  | method name m | readKept name =>
      simp only [firstThread]
      cases s.keptClient? name with
      | none => exact .inl ⟨_, rfl⟩
      | some => exact .inr ⟨_, _, rfl⟩
  | write | openDownload | openUpload | holds | keys => exact .inl ⟨_, rfl⟩

theorem keptClient?_mem {name : String} (kept : s.keptClient? name = some i) :
    ∃ c ∈ s.clients, c.2 = i := by
  rw [keptClient?, Option.map_eq_some_iff] at kept
  obtain ⟨c, found, rfl⟩ := kept
  exact ⟨c, List.mem_of_find?_eq_some found, rfl⟩

theorem Enters.proper {ths : List (Thread P)} (enters : Enters s s' ths) (orderly : s.Orderly) :
    ∀ th ∈ ths, th.Proper s' := by
  intro th mem
  cases enters with
  | none => exact absurd mem List.not_mem_nil
  | notice =>
      obtain rfl := List.mem_singleton.mp mem
      exact .finished (by rintro _ ⟨⟩)
  | @call c opens same =>
      subst same
      obtain rfl := List.mem_singleton.mp mem
      cases c with
      | method name m =>
          simp only [firstThread]
          cases kept : s.keptClient? name with
          | none => exact .finished (by rintro _ ⟨⟩)
          | some i =>
              obtain ⟨c, mem, rfl⟩ := keptClient?_mem kept
              refine .caller (n := s.calls) (orderly.clients c mem) ?_ ?_ (.inl rfl)
              · exact ⟨List.suffix_rfl, rfl, (orderly.kept name).symm.trans kept⟩
              · split
                · exact .inr rfl
                · exact .inl rfl
      | readKept name =>
          simp only [firstThread]
          cases kept : s.keptClient? name with
          | none => exact .finished (by rintro _ ⟨⟩)
          | some i =>
              obtain ⟨c, mem, rfl⟩ := keptClient?_mem kept
              refine .reader (orderly.clients c mem) ?_ (.inl rfl)
              exact .inr ⟨List.suffix_rfl, rfl, (orderly.kept name).symm.trans kept⟩
      | holds | keys => exact .finished (by rintro _ ⟨⟩)
      | read | write | openDownload | openUpload => cases opens
  | @opening c kind invocation opens same =>
      have lt : s.kinds.length < s'.kinds.length := same ▸ lt_opened.mpr (.inr rfl)
      have kindOf : s'.kindOf s.kinds.length = kind := same ▸ kindOf_opened
      have opened : .opened s.calls s.kinds.length ∈ s'.events := same ▸ List.mem_cons_self
      have called : .called s.calls (.plugin c) ∈ s'.events :=
        same ▸ List.mem_cons_of_mem _ List.mem_cons_self
      simp only [List.mem_cons, List.not_mem_nil, or_false] at mem
      rcases mem with rfl | rfl
      · refine .starting lt (kindOf.trans ?_)
        cases c <;> cases opens <;> rfl
      · cases c with
        | read => exact .reader lt (.inl ⟨opened, called, rfl⟩) (.inl rfl)
        | write =>
            cases opens
            exact .writer lt kindOf opened called rfl
        | openDownload | openUpload => exact .finished (by rintro _ ⟨⟩)
        | method | readKept | holds | keys => cases opens

theorem opens?_upload {c : PluginCall} {invocation : Invocation}
    (opens : opens? c = some (.upload, invocation)) : invocation = .put := by
  cases c <;> cases opens <;> rfl

theorem opens?_download {c : PluginCall} {invocation : Invocation}
    (opens : opens? c = some (.download, invocation)) :
    ∃ bucket key, invocation = .get bucket key := by
  cases c <;> cases opens <;> exact ⟨_, _, rfl⟩

/-- A stream was there before a step or is opened by it. -/
theorem Step.stream_cases (step : Step s s') {kind : StreamKind} (lt : i < s'.kinds.length)
    (kindOf : s'.kindOf i = kind) :
    i < s.kinds.length ∧ s.kindOf i = kind ∨
      i = s.kinds.length ∧ ∃ c invocation, opens? c = some (kind, invocation) ∧
        s' = s.opened c kind invocation := by
  obtain ⟨parts⟩ := step.parts
  rcases parts.enters.service lt with old | ⟨rfl, c, kind', invocation, opens, rfl⟩
  · exact .inl ⟨old, (step.later.kindOf old).symm.trans kindOf⟩
  · obtain rfl := kindOf_opened.symm.trans kindOf
    exact .inr ⟨rfl, c, invocation, opens, rfl⟩

/-- What holds of a stream when it is opened and is kept by every step holds of it ever after. -/
theorem Reachable.stream_induction {motive : Scene P → Prop} {kind : StreamKind}
    (reachable : s.Reachable) (lt : i < s.kinds.length) (kindOf : s.kindOf i = kind)
    (opened : ∀ {s : Scene P} {c invocation}, s.Reachable → opens? c = some (kind, invocation) →
      i = s.kinds.length → motive (s.opened c kind invocation))
    (kept : ∀ {s s' : Scene P}, s.Reachable → i < s.kinds.length → s.kindOf i = kind → Step s s' →
      motive s → motive s') : motive s := by
  induction reachable with
  | refl => exact absurd lt (Nat.not_lt_zero i)
  | tail steps step ih =>
      rcases step.stream_cases lt kindOf with ⟨old, kindOf⟩ | ⟨new, c, invocation, opens, rfl⟩
      · exact kept steps old kindOf step (ih old kindOf)
      · exact opened steps opens new

/-- A scene in which every thread plays its role. -/
def Cast (s : Scene P) : Prop := ∀ th ∈ s.threads, th.Proper s

theorem Cast.step (cast : s.Cast) (orderly : s.Orderly) (step : Step s s') : s'.Cast := by
  obtain ⟨parts⟩ := step.parts
  intro th' mem
  rcases parts.origin mem with fresh | ⟨th, old, ths, becomes, mem⟩
  · exact parts.enters.proper orderly th' fresh
  · rcases becomes.cases parts.events_eq with ⟨stage, rfl, goes⟩ | turns
    · obtain rfl := List.mem_singleton.mp mem
      exact (step.later.proper (cast th old)).goes goes
    · exact step.later.proper ((cast th old).turns turns th' mem)

theorem Reachable.cast {s : Scene P} (reachable : s.Reachable) : s.Cast := by
  induction reachable with
  | refl => exact fun th mem => absurd mem (Multiset.notMem_zero th)
  | tail steps step ih => exact ih.step (Reachable.orderly steps) step

end Scene

end ObjectTransfer
