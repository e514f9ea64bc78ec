import ObjectTransfer.Proofs.Progress
import ObjectTransfer.Proofs.Turns
import ObjectTransfer.Proofs.Verdicts

/-! # Uploads to the loopback storage

The handler of an upload decides on it in one turn, after it received all of its requests
(`Loopback.Decided`). Only such a turn changes what is stored, and the client hears nothing but its
answer (`Exchange.uploads_judged`).
-/

namespace ObjectTransfer

variable {P : Plugin}

def HandlerTurn.left (turn : HandlerTurn P) : P.Shared :=
  (P.step turn.shared turn.state turn.outcome).1

theorem Scene.Reachable.hears_passed {s : Scene P} (reachable : s.Reachable) {h : HalfId}
    {o : Outcome}
    (received : o ∈ s.heard h) : o = .ok .eof ∨ ∃ m ∈ s.passed h, o = m.outcome := by
  rw [mem_heard] at received
  induction reachable with
  | refl => exact absurd received List.not_mem_nil
  | @tail s s' steps step ih =>
      have reachable : s.Reachable := steps
      have earlier (old : .received h o ∈ s.events) :
          o = .ok .eof ∨ ∃ m ∈ s'.passed h, o = m.outcome := by
        refine (ih old).imp_right fun ⟨m, passed, same⟩ => ⟨m, ?_, same⟩
        exact step.later.passed.subset passed
      cases step with
      | @solo th ths es rest threads solo =>
          rcases List.mem_append.mp received with new | old
          · have inside : th ∈ s.threads := threads ▸ Multiset.mem_cons_self _ _
            obtain ⟨m, stage⟩ := solo.causes new trivial
            obtain ⟨i, role, m', -, -, inCall⟩ := (reachable.cast th inside).calls (stage ▸ trivial)
            obtain ⟨-, receives⟩ := inCall.hears (.inr (.inr ⟨m, stage⟩))
            cases solo with
            | received =>
                cases stage
                obtain rfl : o = Stage.receipt m := by simpa using new
                cases receives with
                | ended => exact .inl rfl
                | taken handed =>
                    exact .inr ⟨_, mem_passed.mpr (List.mem_cons_of_mem _ handed), rfl⟩
            | _ => exact nomatch stage
          · exact earlier old
      | handle =>
          rcases List.mem_append.mp received with new | old
          · obtain ⟨_, _, _, did⟩ := Act.eq_did new
            exact nomatch did
          · exact earlier old
      | start | gate | strike | count | notice => exact earlier received
      | close | meet => exact earlier (by simpa using received)
      | call => exact earlier (by simpa [begin] using received)
      | opening => exact earlier (by simpa [opened, openStream, begin] using received)

namespace Loopback

variable {c : Config} {s s' : Scene (plugin c)} {i : StreamId} {th : Thread (plugin c)}
  {turn : HandlerTurn (plugin c)} {requests : List Value}

/-! ## Turns that decide -/

/-- Whether a turn decides on an upload that came to its end. -/
structure Decides (turn : HandlerTurn (plugin c)) : Prop where
  state : ∃ t, turn.state = .receiving t
  outcome : turn.outcome = .ok .eof

theorem left_of_not_decides (apart : ¬ Decides turn) : turn.left = turn.shared := by
  obtain ⟨i, d, o, store⟩ := turn
  simp only [HandlerTurn.left, plugin]
  fun_cases step c store d o with
  | case5 t => exact absurd ⟨⟨t, rfl⟩, rfl⟩ apart
  | _ => rfl

/-- What is stored after these turns, the latest first. Each turn finds what the one before it left.
-/
inductive Traces : List (HandlerTurn (plugin c)) → Store → Prop where
  | nothing : Traces [] (.ofBuckets c.buckets)
  | turn {turn earlier} : Traces earlier turn.shared → Traces (turn :: earlier) turn.left

theorem traces (reachable : s.Reachable) : Traces s.turns s.shared := by
  induction reachable with
  | refl => exact .nothing
  | tail steps step ih =>
      cases step with
      | @handle o i state => exact @Traces.turn _ ⟨i, state, o, _⟩ _ ih
      | _ => exact ih

/-- Only the handler of an upload receives requests. -/
theorem upload_of_receiving (reachable : s.Reachable) (mem : turn ∈ s.turns) {t : Intake}
    (state : turn.state = .receiving t) : s.kindOf turn.stream = .upload := by
  have serves := turn_serves reachable mem
  rw [state] at serves
  generalize s.kindOf turn.stream = kind at serves
  cases serves
  rfl

theorem Past.not_receiving {last : Outcome} (past : Past s i requests last)
    (reachable : s.Reachable) {t : Intake} {st fs w} : ⟨st, .handling i (.receiving t) :: fs, w⟩ ∉
      s.threads := by
  intro mem
  obtain ⟨-, rfl, rfl, -⟩ := serves reachable mem
  cases past.answering _ mem rfl with
  | ended still => exact still (.inr ⟨_, _, _, rfl⟩)
  | leaves leaves => exact nomatch leaves

/-- On each upload is decided at most once. -/
theorem decides_once (reachable : s.Reachable) (mem : turn ∈ s.turns) (decides : Decides turn) :
    ∃ later earlier, s.turns = later ++ turn :: earlier ∧
      ∀ other ∈ later ++ earlier, other.stream = turn.stream → ¬ Decides other := by
  induction reachable with
  | refl => exact absurd mem List.not_mem_nil
  | @tail s s' steps step ih =>
      have reachable : s.Reachable := steps
      rcases step.turns_eq with same | ⟨latest, turns, -, fs, w, inside, -⟩
      · rw [same] at mem ⊢
        exact ih mem
      · -- Nobody decides on this upload any more after one did.
        have first {turn} (old : turn ∈ s.turns) (decides : Decides turn)
            (stream : turn.stream = latest.stream) : ¬ Decides latest := by
          intro again
          obtain ⟨t, state⟩ := decides.state
          obtain ⟨t', state'⟩ := again.state
          obtain ⟨requests, -, past⟩ :=
            concluded reachable old (upload_of_receiving reachable old state) state decides.outcome
          rw [stream] at past
          exact past.not_receiving reachable (state' ▸ inside)
        rw [turns] at mem ⊢
        rcases List.mem_cons.mp mem with rfl | old
        · exact ⟨[], s.turns, rfl, fun other old stream again => first old again stream decides⟩
        · obtain ⟨later, earlier, same, others⟩ := ih old
          refine ⟨latest :: later, earlier, congrArg _ same, List.forall_mem_cons.mpr ⟨?_, others⟩⟩
          exact fun stream => first old decides stream.symm

/-! ## Answers -/

/-- What becomes of the answer of the handler of an upload. -/
inductive Answer (s : Scene (plugin c)) (i : StreamId) (m : Message) : Prop where
  | sending {method relayed st} : thread i .ending st ∈ s.threads → st.InCall s i .server method →
    method.entry (s.kindOf i) .server = .sends .responses m true relayed →
    s.passed ⟨i, .responses⟩ ++ st.unsent m = [m] → Answer s i m
  | sent : (∀ th ∈ s.threads, th.owner = .service i → Leaves i th) →
    s.passed ⟨i, .responses⟩ = [m] → Answer s i m
  | dropped : (∀ th ∈ s.threads, th.owner = .service i → Leaves i th) →
    s.passed ⟨i, .responses⟩ = [] → s.closed ⟨i, .responses⟩ = true → Answer s i m

theorem Answer.step {m : Message} (answer : Answer s i m) (reachable : s.Reachable)
    (lt : i < s.kinds.length) (step : Scene.Step s s') : Answer s' i m := by
  have later := step.later
  have reached := reachable.tail step
  cases answer with
  | sending mem inCall entry passed =>
      have only : ∀ other ∈ s.threads, ∀ m terminal,
          other.stage = .offering ⟨i, .responses⟩ m terminal → other.owner.name? =
            some (.inr i) := by
        intro other inside m terminal offers
        rw [(reachable.voice (unforked s i) inside offers).1]
        rfl
      obtain ⟨parts⟩ := step.parts
      obtain ⟨ths, becomes, results⟩ := parts.fate mem
      rcases becomes.sender parts.events_eq later lt reachable.owned rfl only inCall entry with
        ⟨st', rfl, inCall', same⟩ | ⟨o, bound, turns, same⟩
      · exact .sending (results _ List.mem_cons_self) inCall' (later.kindOf lt ▸ entry)
          (same.trans passed)
      · dsimp only [thread] at bound
        subst bound
        have came := inCall.came
        rw [entry] at came
        obtain ⟨told, -⟩ := came.told
        generalize parts.events = es at turns
        cases turns
        rcases told with ⟨rfl, -⟩ | ⟨rfl, closed⟩
        · have whole : s.passed ⟨i, .responses⟩ = [m] := (List.append_nil _).symm.trans passed
          exact .sent (leaves_of_done reached results nofun) (same.trans whole)
        · have nothing : s.passed ⟨i, .responses⟩ ++ [m] = [] ++ [m] := passed
          refine .dropped (leaves_of_done reached results fun v error => ?_)
            (same.trans (List.append_cancel_right nothing)) (later.closed _ lt closed)
          cases error
          rfl
  | sent leaves passed =>
      obtain ⟨leaves, same, -⟩ := leaves_step leaves reachable lt step
      exact .sent leaves (same.trans passed)
  | dropped leaves passed closed =>
      obtain ⟨leaves, same, -⟩ := leaves_step leaves reachable lt step
      exact .dropped leaves (same.trans passed) (later.closed _ lt closed)

/-! ## Decisions -/

/-- The handler of an upload decided on it in this turn, after it received these requests. -/
structure Decided (s : Scene (plugin c)) (turn : HandlerTurn (plugin c)) (requests : List Value) :
    Prop where
  mem : turn ∈ s.turns
  state : ∃ t : Intake, turn.state = .receiving t ∧ t.Takes requests
  past : Past s turn.stream requests turn.outcome
  concludes : Concludes turn.outcome turn.act
  answers : ∀ method m relayed, turn.act = .call method .ending →
    method.entry (s.kindOf turn.stream) .server = .sends .responses m true relayed →
    Answer s turn.stream m
  aborts : ∀ v, turn.outcome = .error v → s.passed ⟨turn.stream, .responses⟩ = []

theorem Decided.step (decided : Decided s turn requests) (reachable : s.Reachable)
    (step : Scene.Step s s') : Decided s' turn requests := by
  have later := step.later
  have lt := reachable.turned decided.mem
  refine ⟨later.turns.subset decided.mem, decided.state, decided.past.step reachable lt step,
    decided.concludes, fun method m relayed act entry => ?_, fun v aborted => ?_⟩
  · rw [later.kindOf lt] at entry
    exact (decided.answers method m relayed act entry).step reachable lt step
  · refine (step.passed_of_silent reachable (unforked s _) fun th mem owner m terminal => ?_).trans
      (decided.aborts v aborted)
    have answering := aborted ▸ decided.past.answering th mem owner
    cases answering with
    | aborted => exact nofun
    | leaves leaves => exact leaves.silent (reachable.cast th mem)

/-- The handler of an upload that is to start, or that has not received all requests. -/
inductive Awaits (i : StreamId) : Thread (plugin c) → Prop where
  | starting : Awaits i ⟨.starting i .put, [.serving i], .service i⟩
  | invited {st} : Awaits i (thread i .put st)
  | receiving {t st} : Awaits i (thread i (.receiving t) st)

theorem Awaits.owner (awaits : Awaits i th) : th.owner = .service i := by
  cases awaits <;> rfl

theorem Awaits.not_past (awaits : Awaits i th) (mem : th ∈ s.threads) {last : Outcome} :
    ¬ Past s i requests last := by
  intro past
  cases past.answering th mem awaits.owner with
  | answers | aborted => exact nomatch awaits
  | leaves leaves => cases leaves <;> exact nomatch awaits
  | ended still =>
      cases awaits with
      | starting => exact still (.inl ⟨_, rfl, nofun⟩)
      | invited | receiving => exact still (.inr ⟨_, _, _, rfl⟩)

/-- Until it received all requests, the handler of an upload sends nothing. -/
theorem Awaits.silent (awaits : Awaits i th) (reachable : s.Reachable) (lt : i < s.kinds.length)
    (kind : s.kindOf i = .upload) (mem : th ∈ s.threads) {m terminal} :
    th.stage ≠ .offering ⟨i, .responses⟩ m terminal := by
  intro offers
  cases intaking reachable lt kind with
  | starting mem' | invited mem' =>
      obtain rfl := reachable.owned.eq_service mem mem' awaits.owner rfl
      exact nomatch offers
  | receiving mem' inCall =>
      obtain rfl := reachable.owned.eq_service mem mem' awaits.owner rfl
      have hasStage := inCall.resolve_left fun same => nomatch offers.symm.trans same
      rw [kind] at hasStage
      dsimp only [thread] at offers
      subst offers
      cases hasStage with
      | receives receives => cases receives
  | past past => exact awaits.not_past mem past

/-- Whether a handler decided on an upload. -/
inductive Deciding (s : Scene (plugin c)) (i : StreamId) : Prop where
  | awaiting {other} : other ∈ s.threads → Awaits i other → s.passed ⟨i, .responses⟩ = [] →
      Deciding s i
  | decided {turn' taken} : turn'.stream = i → Decided s turn' taken → Deciding s i

theorem Deciding.goes_on {t : Intake} {o : Outcome} (reachable : s.Reachable)
    (lt : i < s.kinds.length) (kind : s.kindOf i = .upload) (step : Scene.Step s s')
    (mem : thread i (.receiving t) (.bound o) ∈ s.threads)
    (turned : ⟨i, .receiving t, o, s.shared⟩ ∈ s'.turns)
    (results : ∀ th ∈ Act.threads (P := plugin c) s.gates i [.serving i] (.service i)
      (Loopback.step c s.shared (.receiving t) o).2, th ∈ s'.threads)
    (passed : s'.passed ⟨i, .responses⟩ = []) : Deciding s' i := by
  have later := step.later
  rcases step_receiving (c := c) s.shared t o with ⟨v, t', rfl, -, -, act⟩ | concludes
  · rw [act] at results
    exact .awaiting (results _ List.mem_cons_self) .receiving passed
  · cases intaking reachable lt kind with
    | starting mem' | invited mem' => exact nomatch reachable.owned.eq_service mem mem' rfl rfl
    | past past => exact absurd past (Awaits.receiving.not_past mem)
    | @receiving t' requests st mem' inCall takes heard =>
        cases reachable.owned.eq_service mem mem' rfl rfl
        have came := inCall.came
        rw [kind] at came
        have receives : (Stage.bound o).Receives s ⟨i, .requests⟩ := by
          cases came with
          | receives receives => exact receives
        have heard := (heard_of_thread reachable mem rfl id step).trans heard
        have past := concludes.past (reachable.tail step) (later.receives lt receives) heard results
        refine @Deciding.decided _ _ _ ⟨i, .receiving t, o, s.shared⟩ _ rfl
          ⟨turned, ⟨t, rfl, takes⟩, past, concludes, fun method m relayed act entry => ?_,
            fun _ _ => passed⟩
        rw [show (Loopback.step c s.shared (.receiving t) o).2 = _ from act] at results
        refine .sending (results _ List.mem_cons_self) (.inl rfl) entry ?_
        rw [passed]
        rfl

theorem Deciding.step (deciding : Deciding s i) (reachable : s.Reachable) (lt : i < s.kinds.length)
    (kind : s.kindOf i = .upload) (step : Scene.Step s s') : Deciding s' i := by
  cases deciding with
  | decided stream decided => exact .decided stream (decided.step reachable step)
  | @awaiting th mem awaits passed =>
      have passed := (passed_of_thread reachable mem awaits.owner
        (fun _ _ => awaits.silent reachable lt kind mem) step).trans passed
      obtain ⟨parts⟩ := step.parts
      obtain ⟨ths, becomes, results⟩ := parts.fate mem
      rcases reachable.service (unforked s i) mem awaits.owner parts becomes with
        ⟨o, state, rfl, turns, rfl⟩ | ⟨-, ⟨st, rfl, goes⟩ | ⟨turns, apart⟩⟩
      · have turned := (Scene.mem_turnsOf.mp (turns ▸ List.mem_cons_self)).1
        cases awaits with
        | invited => exact .awaiting (results _ List.mem_cons_self) .receiving passed
        | receiving => exact .goes_on reachable lt kind step mem turned results passed
      · refine .awaiting (results _ List.mem_cons_self) ?_ passed
        cases awaits with
        | starting =>
            obtain rfl : st = .starting i .put := by cases goes <;> rfl
            exact .starting
        | invited => exact .invited
        | receiving => exact .receiving
      · generalize parts.events = es at turns
        cases awaits with
        | starting =>
            cases turns
            exact .awaiting (results _ List.mem_cons_self) .invited passed
        | invited | receiving =>
            cases turns
            exact absurd rfl (apart _ _ _ _ _)

theorem deciding (reachable : s.Reachable) (lt : i < s.kinds.length) (kind : s.kindOf i = .upload) :
    Deciding s i := by
  refine reachable.stream_induction (motive := (Deciding · i)) lt kind ?_
    fun reachable lt kind step deciding => deciding.step reachable lt kind step
  rintro s c invocation reachable opens rfl
  obtain rfl := Scene.opens?_upload opens
  have silent := (Scene.Step.opening opens).silent reachable (h := ⟨s.kinds.length, .responses⟩)
    (Nat.lt_irrefl _)
  exact .awaiting (Multiset.mem_cons_self _ _) .starting silent.1

/-! ## What comes of an upload -/

theorem Intake.Takes.unique {t t' : Intake} (takes : t.Takes requests)
    (takes' : t'.Takes requests) : t = t' :=
  Except.ok.inj (takes.adds.symm.trans takes'.adds)

theorem Awaits.heard (awaits : Awaits i th) (reachable : s.Reachable) (lt : i < s.kinds.length)
    (kind : s.kindOf i = .upload) (mem : th ∈ s.threads) (parked : th.stage.IsParked) :
    ∃ taken : List Value, s.heard ⟨i, .requests⟩ = taken.map .ok ∧ ∀ v ∈ taken, v ≠ .eof := by
  cases intaking reachable lt kind with
  | starting mem' | invited mem' =>
      obtain rfl := reachable.owned.eq_service mem mem' awaits.owner rfl
      exact parked.elim
  | past past => exact absurd past (awaits.not_past mem)
  | @receiving t taken st mem' inCall takes heard =>
      obtain rfl := reachable.owned.eq_service mem mem' awaits.owner rfl
      have none : st.noted?.toList = [] := by
        have parked : st.IsParked := parked
        cases st <;> first | rfl | exact parked.elim
      rw [none, List.append_nil] at heard
      exact ⟨taken, heard, takes.more⟩

theorem Decided.not_all {pieces : List Piece} (decided : Decided s turn requests) {v : Value}
    (within : List.Forall₂ Piece.Within pieces (requests ++ [v])) : turn.outcome ≠ .ok v := by
  intro outcome
  obtain ⟨whole, takes, -⟩ := takes_pieces within c
  obtain ⟨t', takes', adds⟩ := takes.before
  obtain ⟨t, state, taken⟩ := decided.state
  obtain rfl := taken.unique takes'
  have concludes := decided.concludes
  have more := takes.more v (List.mem_append_right _ List.mem_cons_self)
  have act : turn.act = .call .receive (.receiving whole) := by
    simp [HandlerTurn.act, plugin, Loopback.step, state, outcome, adds]
  rw [act, outcome] at concludes
  generalize Except.ok v = o at concludes
  cases concludes

theorem Deciding.still (deciding : Deciding s i) {pieces : List Piece}
    (within : List.Forall₂ Piece.Within pieces requests)
    (heard : s.heard ⟨i, .requests⟩ = requests.map .ok) :
    s.passed ⟨i, .responses⟩ = [] ∧ ∃ th ∈ s.threads, Awaits i th := by
  cases deciding with
  | awaiting mem awaits passed => exact ⟨passed, _, mem, awaits⟩
  | @decided turn taken stream decided =>
      have all := decided.past.heard
      rw [stream, heard, List.map_eq_append_iff] at all
      obtain ⟨taken', last, rfl, same, one⟩ := all
      obtain ⟨v, rfl, outcome⟩ := List.map_eq_singleton_iff.mp one
      rw [← eq_of_map_ok same] at decided
      exact absurd outcome.symm (decided.not_all within)

/-- Once nothing can go on, an upload that came to an end or was aborted is decided on. -/
theorem Deciding.final (deciding : Deciding s i) (quiet : s.Quiet) (reachable : s.Reachable)
    (lt : i < s.kinds.length) (kind : s.kindOf i = .upload) {o : Outcome}
    (final : ∀ v, o = .ok v → v = .eof) (heard : s.heard ⟨i, .requests⟩ = requests.map .ok ++ [o]) :
    ∃ turn, turn.stream = i ∧ turn.outcome = o ∧ Decided s turn requests := by
  cases deciding with
  | awaiting mem awaits _ =>
      obtain ⟨taken, all, more⟩ := awaits.heard reachable lt kind mem (quiet.parked _ mem)
      have inside : o ∈ taken.map .ok := all ▸ heard ▸ List.mem_append_right _ List.mem_cons_self
      obtain ⟨v, mem, same⟩ := List.mem_map.mp inside
      exact absurd (final v same.symm) (more v mem)
  | @decided turn taken stream decided =>
      have all := decided.past.heard
      rw [stream, heard] at all
      obtain ⟨same, last⟩ := List.append_inj' all rfl
      rw [← eq_of_map_ok same] at decided
      exact ⟨turn, stream, (List.cons.inj last).1.symm, decided⟩

/-- Whether the turns on an upload leave what is stored as it is. -/
def Untouched (turns : List (HandlerTurn (plugin c))) (i : StreamId) : Prop :=
  ∀ turn ∈ turns, turn.stream = i → turn.left = turn.shared

/-- Unless an upload came to its end, nothing changes. -/
theorem untouched (reachable : s.Reachable)
    (unended : ∀ taken : List Value, s.heard ⟨i, .requests⟩ ≠ taken.map .ok ++ [.ok .eof]) :
    Untouched s.turns i := by
  rintro turn mem rfl
  refine left_of_not_decides fun decides => ?_
  obtain ⟨t, state⟩ := decides.state
  obtain ⟨taken, -, past⟩ :=
    concluded reachable mem (upload_of_receiving reachable mem state) state decides.outcome
  exact unended taken past.heard

/-- Whether an upload was answered with this message: the client took it, or it waits for the client
to take it, or the client closed the half before. -/
structure Answered (x : Exchange (plugin c)) (i : StreamId) (m : Message) : Prop where
  passed : x.passed ⟨i, .responses⟩ = [m] ∨ x.passed ⟨i, .responses⟩ = [] ∧
    ((x.half ⟨i, .responses⟩).closed = true ∨
      ∃ th ∈ x.threads, th.stage = .offering ⟨i, .responses⟩ m true)
  heard : ∀ o ∈ x.heard ⟨i, .responses⟩, o = .ok .eof ∨ o = m.outcome

def checksum (data : Bytes) : Value := .object [("checksumSha256", .bytes (Sha256.digest data))]

/-- What comes of an upload of these pieces with these requests. -/
structure Judged (x : Exchange (plugin c)) (turns : List (HandlerTurn (plugin c))) (i : StreamId)
    (pieces : List Piece) (requests : List Value) : Prop where
  /-- All of them are received before anything is stored or answered. -/
  begun : x.heard ⟨i, .requests⟩ = requests.map .ok →
    Untouched turns i ∧ x.passed ⟨i, .responses⟩ = [] ∧ (x.isQuiet = true →
      ∀ th ∈ x.threads, ∀ m terminal, th.stage ≠ .offering ⟨i, .requests⟩ m terminal)
  /-- An upload that the client aborts is not stored and not answered. -/
  aborted : ∀ v, x.heard ⟨i, .requests⟩ = requests.map .ok ++ [.error v] →
    Untouched turns i ∧ x.passed ⟨i, .responses⟩ = [] ∧
      (∀ o ∈ x.heard ⟨i, .responses⟩, o = .ok .eof) ∧
      (x.isQuiet = true → (x.half ⟨i, .requests⟩).closed = true ∧
        (x.half ⟨i, .responses⟩).closed = true)
  /-- One turn follows the verdict on the pieces, and no other turn changes what is stored. -/
  ended : x.heard ⟨i, .requests⟩ = requests.map .ok ++ [.ok .eof] → x.isQuiet = true →
    ∃ later turn earlier, turns = later ++ turn :: earlier ∧ turn.stream = i ∧
      Untouched (later ++ earlier) i ∧
      match verdict (admits c turn.shared) pieces with
      | .error f => turn.left = turn.shared ∧ Answered x i (.failure f)
      | .ok whole => Store.Gains turn.shared turn.left whole.bucket whole.key whole.bytes ∧
        Answered x i (.payload (checksum whole.bytes))

end Loopback

namespace Exchange

open Loopback

variable {c : Config} {x : Exchange (Loopback.plugin c)}
  {turns : List (HandlerTurn (Loopback.plugin c))}
  {i : StreamId} {pieces : List Piece} {requests : List Value}

theorem answered (reachable : (x.scene turns).Reachable) (quiet : x.isQuiet = true) {m : Message}
    (answer : Answer (x.scene turns) i m) : Answered x i m := by
  have calm := quiet_scene quiet turns
  have passed : x.passed ⟨i, .responses⟩ = [m] ∨ x.passed ⟨i, .responses⟩ = [] ∧
      ((x.half ⟨i, .responses⟩).closed = true ∨
        ∃ th ∈ x.threads, th.stage = .offering ⟨i, .responses⟩ m true) := by
    cases answer with
    | sent _ passed => exact .inl (passed_scene x _ turns ▸ passed)
    | dropped _ passed closed => exact .inr ⟨passed_scene x _ turns ▸ passed, .inl closed⟩
    | @sending method relayed st mem inCall entry passed =>
        obtain rfl := Upload.offering_of_parked inCall entry (calm.parked _ mem)
        have nothing : x.passed ⟨i, .responses⟩ ++ [m] = [] ++ [m] :=
          passed_scene x _ turns ▸ passed
        exact .inr ⟨List.append_cancel_right nothing, .inr ⟨_, mem, rfl⟩⟩
  refine ⟨passed, fun o mem => ?_⟩
  rw [← heard_scene x _ turns] at mem
  refine (reachable.hears_passed mem).imp_right fun ⟨m', mem, same⟩ => ?_
  rw [passed_scene] at mem
  rcases passed with whole | ⟨none, -⟩
  · rw [whole, List.mem_singleton] at mem
    exact mem ▸ same
  · rw [none] at mem
    exact absurd mem List.not_mem_nil

theorem untouched_begun (reachable : (x.scene turns).Reachable)
    (lt : i < (x.scene turns).kinds.length) (kind : (x.scene turns).kindOf i = .upload)
    (within : List.Forall₂ Piece.Within pieces requests)
    (heard : (x.scene turns).heard ⟨i, .requests⟩ = requests.map .ok) :
    Untouched turns i ∧ x.passed ⟨i, .responses⟩ = [] ∧ (x.isQuiet = true →
      ∀ th ∈ x.threads, ∀ m terminal, th.stage ≠ .offering ⟨i, .requests⟩ m terminal) := by
  obtain ⟨t, takes, -⟩ := takes_pieces within c
  obtain ⟨passed, th, mem, awaits⟩ := (deciding reachable lt kind).still within heard
  refine ⟨untouched reachable fun taken ended => ?_, passed_scene x _ turns ▸ passed, ?_⟩
  · have marked : .ok .eof ∈ requests.map (Except.ok (ε := Value)) :=
      heard ▸ ended ▸ List.mem_append_right _ List.mem_cons_self
    obtain ⟨v, inside, same⟩ := List.mem_map.mp marked
    exact takes.more v inside (Except.ok.inj same)
  · rintro quiet ⟨_, fs, w⟩ offering m terminal rfl
    have parked := (quiet_scene quiet turns).parked th mem
    rcases offers_upload reachable lt kind mem awaits.owner parked with
      wants | ⟨m', terminal', offers, -⟩
    · obtain ⟨_, fs', w'⟩ := th
      obtain rfl := wants
      exact not_met mem offering
    · exact awaits.silent reachable lt kind mem offers

theorem untouched_aborted (reachable : (x.scene turns).Reachable)
    (lt : i < (x.scene turns).kinds.length) (kind : (x.scene turns).kindOf i = .upload) {v : Value}
    (heard : (x.scene turns).heard ⟨i, .requests⟩ = requests.map .ok ++ [.error v]) :
    Untouched turns i ∧ x.passed ⟨i, .responses⟩ = [] ∧
      (∀ o ∈ x.heard ⟨i, .responses⟩, o = .ok .eof) ∧
      (x.isQuiet = true → (x.half ⟨i, .requests⟩).closed = true ∧
        (x.half ⟨i, .responses⟩).closed = true) := by
  have passed : x.passed ⟨i, .responses⟩ = [] := by
    rw [← passed_scene x _ turns]
    cases deciding reachable lt kind with
    | awaiting _ _ passed => exact passed
    | @decided turn taken stream decided =>
        have all := decided.past.heard
        rw [stream, heard] at all
        have last := (List.cons.inj (List.append_inj' all rfl).2).1
        exact stream ▸ decided.aborts v last.symm
  refine ⟨untouched reachable fun taken ended => ?_, passed, fun o mem => ?_, fun quiet => ?_⟩
  · exact nomatch (List.cons.inj (List.append_inj' (heard.symm.trans ended) rfl).2).1
  · rw [← heard_scene x _ turns] at mem
    refine (reachable.hears_passed mem).resolve_right fun ⟨m, mem, _⟩ => ?_
    rw [passed_scene, passed] at mem
    exact absurd mem List.not_mem_nil
  · have calm := quiet_scene quiet turns
    by_contra isOpen
    have isOpen : (x.half ⟨i, .requests⟩).closed = false ∨
        (x.half ⟨i, .responses⟩).closed = false := by
      simpa [imp_iff_not_or] using isOpen
    obtain ⟨th, mem, owner, -⟩ := calm.service reachable lt isOpen
    obtain ⟨turn, rfl, outcome, decided⟩ :=
      (deciding reachable lt kind).final calm reachable lt kind (by rintro _ ⟨⟩) heard
    have answering := outcome ▸ decided.past.answering th mem owner
    have parked := calm.parked th mem
    cases answering with
    | aborted => exact parked
    | leaves leaves => exact leaves.not_parked (reachable.cast th mem) parked

/-- One turn follows the verdict on the pieces of an upload, and no other turn changes what is
stored. -/
theorem decided_ended (reachable : (x.scene turns).Reachable)
    (lt : i < (x.scene turns).kinds.length) (kind : (x.scene turns).kindOf i = .upload)
    (within : List.Forall₂ Piece.Within pieces requests)
    (heard : (x.scene turns).heard ⟨i, .requests⟩ = requests.map .ok ++ [.ok .eof])
    (quiet : x.isQuiet = true) :
    ∃ later turn earlier, turns = later ++ turn :: earlier ∧ turn.stream = i ∧
      Untouched (later ++ earlier) i ∧
      match verdict (admits c turn.shared) pieces with
      | .error f => turn.left = turn.shared ∧ Answered x i (.failure f)
      | .ok whole => Store.Gains turn.shared turn.left whole.bucket whole.key whole.bytes ∧
        Answered x i (.payload (checksum whole.bytes)) := by
  obtain ⟨turn, rfl, outcome, decided⟩ :=
    (deciding reachable lt kind).final (quiet_scene quiet turns)
    reachable lt kind (fun v same => (Except.ok.inj same).symm) heard
  obtain ⟨t, state, taken⟩ := decided.state
  obtain ⟨later, earlier, same, others⟩ := decides_once reachable decided.mem ⟨⟨t, state⟩, outcome⟩
  refine ⟨later, turn, earlier, same, rfl, fun other mem stream => ?_, ?_⟩
  · exact left_of_not_decides (others other mem stream)
  · obtain ⟨t', takes, -, judges⟩ := takes_pieces within c
    obtain rfl := taken.unique takes
    have judges := judges turn.shared
    have after : (Loopback.plugin c).step turn.shared turn.state turn.outcome =
        Loopback.step c turn.shared (.receiving t) (.ok .eof) := by rw [state, outcome]; rfl
    rw [← after] at judges
    cases judged : verdict (admits c turn.shared) pieces with
    | error f =>
        simp only [Judges, judged] at judges
        obtain ⟨relayed, entry⟩ := Method.entry_fail ((x.scene turns).kindOf turn.stream) f
        have act : turn.act = .call (.fail (.fault f)) .ending := congrArg Prod.snd judges
        exact ⟨congrArg Prod.fst judges, answered reachable quiet (decided.answers _ _ _ act entry)⟩
    | ok whole =>
        simp only [Judges, judged] at judges
        have entry :
            (Method.respond (checksum whole.bytes)).entry
            ((x.scene turns).kindOf turn.stream) .server =
            .sends .responses (.payload (checksum whole.bytes)) true true := by
          rw [kind]
          rfl
        exact ⟨judges.1, answered reachable quiet (decided.answers _ _ _ judges.2 entry)⟩

/-- The handler of an upload receives all of its pieces, whatever is stored, and then it follows the
verdict on them or leaves everything as it is. What is stored is what its turns left one after
another, and so every upload comes to what the verdict says, however its bytes are split. -/
theorem uploads_judged (within : List.Forall₂ Piece.Within pieces requests) :
    (∃ t : Intake, (∀ s o, Loopback.step c s .put o = (s, .call .receive (.receiving .empty))) ∧
      Drains c (.receiving .empty) requests (.receiving t) ∧
      ∀ s, Judges c s pieces (Loopback.step c s (.receiving t) (.ok .eof)) ∧
        ∀ v, ∃ line, Loopback.step c s (.receiving t) (.error v) = (s, .log line .finished)) ∧
    (∀ (x : Exchange (Loopback.plugin c)) turns,
      History Command.Hosted (.empty (Loopback.plugin c)) x turns → Traces turns x.shared ∧
      ∀ i < x.nextStream, x.kindOf i = .upload → Judged x turns i pieces requests) ∧
    ∀ has bucket key first rest,
      verdict has ((first :: rest).map fun bytes => ⟨bucket, key, bytes⟩) =
      verdict has [⟨bucket, key, first ++ rest.flatten⟩] := by
  refine ⟨?_, ?_, verdict_split⟩
  · obtain ⟨t, -, drains, judges⟩ := takes_pieces within c
    exact ⟨t, fun s o => rfl, drains, fun s => ⟨judges s, fun v => ⟨_, rfl⟩⟩⟩
  · intro x turns history
    have reachable := history.reachable
    refine ⟨Loopback.traces reachable, fun i lt kind => ?_⟩
    have lt : i < (x.scene turns).kinds.length := length_kinds_scene x turns ▸ lt
    have kind : (x.scene turns).kindOf i = .upload := (kindOf_scene x turns i).trans kind
    constructor
    · intro heard
      exact untouched_begun reachable lt kind within ((heard_scene x _ turns).trans heard)
    · intro v heard
      exact untouched_aborted reachable lt kind ((heard_scene x _ turns).trans heard)
    · intro heard
      exact decided_ended reachable lt kind within ((heard_scene x _ turns).trans heard)

/-- Two chunks are stored in a new bucket. -/
def chunked : Exchange (Loopback.plugin .default) :=
  ((empty _).command (.call (.plugin (.write "b" "k"
    ⟨false, [.chunk (.bytes [1]), .chunk (.bytes [2])]⟩)))).advance 94

theorem chunked_judged : ∃ turn : HandlerTurn (Loopback.plugin .default),
    Store.Gains turn.shared turn.left "b" "k" [1, 2] ∧
    Answered chunked 0 (.payload (checksum [1, 2])) := by
  have run : Run Command.Hosted (.empty _) chunked :=
    (Move.command rfl trivial).run.trans (run_advance _ _)
  obtain ⟨turns, history⟩ := run.history
  let request (bytes : Bytes) : Value :=
    .object [("bucket", .text "b"), ("key", .text "k"), ("fileChunk", .bytes bytes)]
  have within :
      List.Forall₂ Piece.Within [⟨"b", "k", [1]⟩, ⟨"b", "k", [2]⟩] [request [1], request [2]] :=
    .cons ⟨rfl, rfl, rfl⟩ (.cons ⟨rfl, rfl, rfl⟩ .nil)
  obtain ⟨-, settled, split⟩ := uploads_judged (c := .default) within
  obtain ⟨-, judged⟩ := settled chunked turns history
  obtain ⟨_, turn, _, -, -, -, judged⟩ := (judged 0 (by decide) rfl).ended rfl rfl
  have accepted : verdict (admits .default turn.shared) [⟨"b", "k", [1]⟩, ⟨"b", "k", [2]⟩] =
      .ok ⟨"b", "k", [1, 2]⟩ := by
    refine (split _ "b" "k" [1] [[2]]).trans ?_
    simp [verdict, admits, Config.default]
  rw [accepted] at judged
  exact ⟨turn, judged⟩

end Exchange

end ObjectTransfer
