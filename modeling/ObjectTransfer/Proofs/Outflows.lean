import Mathlib.Algebra.Order.Floor.Div
import ObjectTransfer.Proofs.Intakes
import ObjectTransfer.Proofs.Turns
import ObjectTransfer.Proofs.Writers

/-! # What the loopback storage streams

The handler of a download looks up the object once, in its first turn, and sends it in slices of one
size, from its start on (`Loopback.slices`, `Loopback.Cuts`). So whatever passes are slices of what
was stored then, in order, or a complaint if nothing was (`Loopback.Flow`).
-/

namespace ObjectTransfer

/-! ## Slices of an object -/

namespace Loopback

/-- A content in slices of a size, the last of which may be shorter. -/
def slices (size : Nat) (data : Bytes) : List Bytes :=
  if 0 < size ∧ data ≠ [] then data.take size :: slices size (data.drop size) else []
termination_by data.length
decreasing_by
  have := List.length_pos_of_ne_nil ‹0 < size ∧ data ≠ []›.2
  simp only [List.length_drop]
  omega

/-- Whether these pieces are a content that was cut into as few as fit a size: put together they are
the content, and all but the last have the full size. -/
structure Cuts (size : Nat) (data : Bytes) (pieces : List Bytes) : Prop where
  whole : pieces.flatten = data
  count : pieces.length = data.length ⌈/⌉ size
  some : ∀ piece ∈ pieces, piece ≠ []
  fits : ∀ piece ∈ pieces, piece.length ≤ size
  full : ∀ piece ∈ pieces.dropLast, piece.length = size

variable {size : Nat} {data : Bytes}

@[simp] theorem slices_nil (size : Nat) : slices size [] = [] := by
  rw [slices, if_neg (by simp)]

theorem slices_of_ne_nil (pos : 0 < size) (some : data ≠ []) :
    slices size data = data.take size :: slices size (data.drop size) := by
  rw [slices, if_pos ⟨pos, some⟩]

/-- A content that is not empty needs one piece more than what follows its first piece. -/
theorem ceilDiv_sub {n : Nat} (pos : 0 < size) (some : 0 < n) :
    n ⌈/⌉ size = (n - size) ⌈/⌉ size + 1 := by
  simp only [Nat.ceilDiv_eq_add_pred_div]
  rcases Nat.lt_or_ge n size with short | long
  · have one : (n + size - 1) / size = 1 := by
      rw [show n + size - 1 =
        n - 1 + size by omega, Nat.add_div_right _ pos, Nat.div_eq_of_lt (by omega)]
    rw [one, Nat.div_eq_of_lt (by omega)]
  · rw [show n + size - 1 = n - size + size - 1 + size by omega, Nat.add_div_right _ pos]

theorem cuts_slices (pos : 0 < size) (data : Bytes) : Cuts size data (slices size data) := by
  fun_induction slices size data with
  | case1 data some ih =>
      have length : 0 < data.length := List.length_pos_of_ne_nil some.2
      constructor
      · rw [List.flatten_cons, ih.whole, List.take_append_drop]
      · rw [List.length_cons, ih.count, List.length_drop, ceilDiv_sub pos length]
      · refine List.forall_mem_cons.mpr ⟨fun none => ?_, ih.some⟩
        have := congrArg List.length none
        simp only [List.length_take, List.length_nil] at this
        omega
      · refine List.forall_mem_cons.mpr ⟨?_, ih.fits⟩
        rw [List.length_take]
        omega
      · cases more : slices size (data.drop size) with
        | nil => simp
        | cons next rest =>
            -- Something follows the first piece, so it is a full one.
            rw [more] at ih
            have follows : data.drop size ≠ [] := by
              rintro none
              rw [none, slices_nil] at more
              cases more
            have := List.length_pos_of_ne_nil follows
            rw [List.length_drop] at this
            rw [List.dropLast_cons_of_ne_nil (List.cons_ne_nil _ _)]
            refine List.forall_mem_cons.mpr ⟨?_, ih.full⟩
            rw [List.length_take]
            omega
  | case2 data none =>
      obtain rfl : data = [] := by
        by_contra some
        exact none ⟨pos, some⟩
      constructor <;> simp

example : slices 4 [1, 2, 3, 4, 5, 6, 7, 8, 9] = [[1, 2, 3, 4], [5, 6, 7, 8], [9]] := by
  cbv

end Loopback

/-! ## What passes -/

/-- What becomes of a thread in a call that sends a message, if nobody else offers messages there.
-/
theorem Scene.Becomes.sender {P : Plugin} {s s' : Scene P} {th : Thread P} {es ts ths name}
    {i : StreamId} {role method side m terminal relayed} (becomes : Becomes s s' es ts th ths)
    (events : s'.events = es ++ s.events) (later : Later s s') (lt : i < s.kinds.length)
    (owned : s.Owned) (named : th.owner.name? = some name)
    (only : ∀ other ∈ s.threads, ∀ m terminal, other.stage = .offering ⟨i, side⟩ m terminal →
      other.owner.name? = some name)
    (inCall : th.stage.InCall s i role method)
    (entry : method.entry (s.kindOf i) role = .sends side m terminal relayed) :
    (∃ st', ths = [{ th with stage := st' }] ∧ st'.InCall s' i role method ∧
      s'.passed ⟨i, side⟩ ++ st'.unsent m = s.passed ⟨i, side⟩ ++ th.stage.unsent m) ∨
    ∃ o, th.stage = .bound o ∧ th.Turns s ths es ∧ s'.passed ⟨i, side⟩ = s.passed ⟨i, side⟩ := by
  have stages : th.stage = .entering i role method ∨ th.stage.Sends s ⟨i, side⟩ m terminal := by
    refine inCall.imp_right fun hasStage => ?_
    rw [entry] at hasStage
    cases hasStage with
    | sends sends => exact sends
  have deaf : th.stage ≠ .wanting ⟨i, side⟩ := by
    intro stage
    rw [stage] at stages
    rcases stages with stage | sends
    · cases stage
    · cases sends
  have inCall' := later.inCall lt inCall
  rcases becomes.speaker events owned named only deaf with
    ⟨st', rfl, goes, passed, untaken⟩ | ⟨m', terminal', stage, rfl, passed⟩ | ⟨turns, passed⟩
  · refine .inl ⟨st', rfl, inCall'.goes goes, ?_⟩
    have entry' := (later.kindOf lt).symm ▸ entry
    rw [passed, Stage.unsent, inCall'.succeeds_goes entry' goes (untaken _ _)]
    rfl
  · obtain ⟨rfl, rfl⟩ : m' = m ∧ terminal' = terminal := by
      rw [stage] at stages
      rcases stages with stage | sends
      · cases stage
      · cases sends
        exact ⟨rfl, rfl⟩
    have handed : .handed ⟨i, side⟩ m' ∈ s'.events := by
      have mem : m' ∈ s'.passed ⟨i, side⟩ := passed ▸ List.mem_append_right _ List.mem_cons_self
      exact mem_passed.mp mem
    refine .inl ⟨_, rfl, (stage ▸ inCall').goes (.taken handed), ?_⟩
    have told : (Stage.sent ⟨i, side⟩ terminal' true).unsent m' = [] := by cases terminal' <;> rfl
    rw [told, passed, stage, List.append_nil]
    rfl
  · refine .inr ?_
    cases turns with
    | start =>
        rcases stages with stage | sends
        · cases stage
        · cases sends
    | handle => exact ⟨_, rfl, .handle, passed⟩
    | read => exact ⟨_, rfl, .read, passed⟩
    | write => exact ⟨_, rfl, .write, passed⟩
    | serve => exact ⟨_, rfl, .serve, passed⟩
    | delivered => exact ⟨_, rfl, .delivered, passed⟩
    | follow => exact ⟨_, rfl, .follow, passed⟩
    | settle => exact ⟨_, rfl, .settle, passed⟩

namespace Loopback

variable {c : Config} {s s' : Scene (plugin c)} {i : StreamId} {th th' : Thread (plugin c)}

def chunk (piece : Bytes) : Value := .object [("fileChunk", .bytes piece)]

def messages (pieces : List Bytes) : List Message := pieces.map fun piece => .payload (chunk piece)

theorem messages_append (pieces pieces' : List Bytes) :
    messages (pieces ++ pieces') = messages pieces ++ messages pieces' :=
  List.map_append

/-! ## Flows -/

/-- The handler of a download sent all of this, and it is about to close the stream or done. -/
inductive Through (s : Scene (plugin c)) (i : StreamId) : Bytes → Prop where
  | closing {pieces st} : thread i .ending st ∈ s.threads → st.InCall s i .server .close →
    s.passed ⟨i, .responses⟩ = messages pieces → slices c.chunkSize pieces.flatten = pieces →
    (s.turnsOf i).length = pieces.length + 1 → Through s i pieces.flatten
  | ended {pieces} : (∀ th ∈ s.threads, th.owner = .service i → Leaves i th) →
    s.passed ⟨i, .responses⟩ = messages pieces → slices c.chunkSize pieces.flatten = pieces →
    (s.turnsOf i).length = pieces.length + 2 → Through s i pieces.flatten

/-- What passed when the handler of a download is done without having sent an object. -/
inductive Stops (s : Scene (plugin c)) (i : StreamId) : Option Bytes → Prop where
  | cut {pieces data} : s.passed ⟨i, .responses⟩ = messages pieces → pieces.flatten <+: data →
    s.closed ⟨i, .responses⟩ = true → pieces <+: slices c.chunkSize data →
    (s.turnsOf i).length = pieces.length + 2 → Stops s i (some data)
  | failed {f} : s.passed ⟨i, .responses⟩ = [.failure f] → Stops s i none
  | refused : s.passed ⟨i, .responses⟩ = [] → s.closed ⟨i, .responses⟩ = true → Stops s i none

/-- How far the handler of a download is that found this content. -/
inductive Flow (s : Scene (plugin c)) (i : StreamId) : Option Bytes → Prop where
  | streaming {pieces piece rest st} : thread i (.streaming rest) st ∈ s.threads →
    st.InCall s i .server (.send (chunk piece)) →
    s.passed ⟨i, .responses⟩ ++ st.unsent (.payload (chunk piece)) = messages (pieces ++ [piece]) →
    slices c.chunkSize ((pieces ++ [piece]).flatten ++ rest) = pieces ++ [piece] ++
    slices c.chunkSize rest →
    (s.turnsOf i).length = pieces.length + 1 → Flow s i (some ((pieces ++ [piece]).flatten ++ rest))
  | through {data} : Through s i data → Flow s i (some data)
  | complaining {f st} : thread i .ending st ∈ s.threads →
    st.InCall s i .server (.fail (.fault f)) →
    s.passed ⟨i, .responses⟩ ++ st.unsent (.failure f) = [.failure f] → Flow s i none
  | stopped {content} : (∀ th ∈ s.threads, th.owner = .service i → Leaves i th) →
    Stops s i content → Flow s i content

theorem Flow.stream {ths} {pieces : List Bytes} {rest : Bytes}
    (threads : ths =
      Act.threads (P := plugin c) s.gates i [.serving i] (.service i) (stream c rest))
    (results : ∀ th ∈ ths, th ∈ s'.threads) (passed : s'.passed ⟨i, .responses⟩ = messages pieces)
    (sliced : slices c.chunkSize (pieces.flatten ++ rest) = pieces ++ slices c.chunkSize rest)
    (turned : (s'.turnsOf i).length = pieces.length + 1) :
      Flow s' i (some (pieces.flatten ++ rest)) := by
  subst threads
  rw [Loopback.stream] at results
  split at results
  next nothing =>
    obtain rfl := List.isEmpty_iff.mp nothing
    rw [List.append_nil, slices_nil, List.append_nil] at sliced
    rw [List.append_nil]
    exact .through (.closing (results _ List.mem_cons_self) (.inl rfl) passed sliced turned)
  next some =>
    have some : rest ≠ [] := fun none => some (List.isEmpty_iff.mpr none)
    have whole : pieces.flatten ++ rest =
        (pieces ++ [rest.take c.chunkSize]).flatten ++ rest.drop c.chunkSize := by simp
    rw [whole, slices_of_ne_nil c.chunkSize_pos some,
      List.append_cons pieces _ (slices c.chunkSize (rest.drop c.chunkSize))] at sliced
    rw [whole]
    refine .streaming (results _ List.mem_cons_self) (.inl rfl) ?_ sliced turned
    rw [passed, messages_append]
    rfl

theorem Flow.complain {ths} {f : Fault}
    (threads : ths =
      Act.threads (P := plugin c) s.gates i [.serving i] (.service i) (complain (.ok f)))
    (results : ∀ th ∈ ths, th ∈ s'.threads) (passed : s'.passed ⟨i, .responses⟩ = []) :
    Flow s' i none := by
  subst threads
  refine .complaining (results _ List.mem_cons_self) (.inl rfl) ?_
  rw [passed]
  rfl

theorem Flow.answer {ths} {bucket key : String}
    (threads : ths = Act.threads (P := plugin c) s.gates i [.serving i] (.service i)
      (answerGet c s.shared bucket key))
    (results : ∀ th ∈ ths, th ∈ s'.threads) (passed : s'.passed ⟨i, .responses⟩ = [])
    (turned : (s'.turnsOf i).length = 1) :
    Flow s' i (Store.get? s.shared (.text bucket) (.text key)) := by
  unfold answerGet at threads
  unfold Store.get?
  split at threads
  next missing =>
    rw [missing]
    exact .complain threads results passed
  next objects found =>
    rw [found, Option.bind_some]
    split at threads
    next missing =>
      rw [missing]
      exact .complain threads results passed
    next data found =>
      rw [found]
      have none : s'.passed ⟨i, .responses⟩ = messages [] := passed
      exact .stream threads results none rfl turned

theorem Stops.later {content} (stops : Stops s i content) (later : Scene.Later s s')
    (lt : i < s.kinds.length) (same : s'.passed ⟨i, .responses⟩ = s.passed ⟨i, .responses⟩)
    (turns : s'.turnsOf i = s.turnsOf i) : Stops s' i content := by
  cases stops with
  | cut passed part closed sliced turned =>
      exact .cut (same.trans passed) part (later.closed _ lt closed) sliced (turns ▸ turned)
  | failed passed => exact .failed (same.trans passed)
  | refused passed closed => exact .refused (same.trans passed) (later.closed _ lt closed)

theorem passed_of_thread (reachable : s.Reachable) (mem : th ∈ s.threads)
    (owner : th.owner = .service i)
    (silent : ∀ m terminal, th.stage ≠ .offering ⟨i, .responses⟩ m terminal)
    (step : Scene.Step s s') : s'.passed ⟨i, .responses⟩ = s.passed ⟨i, .responses⟩ := by
  refine step.passed_of_silent reachable (unforked s i) fun other inside owner' => ?_
  obtain rfl := reachable.owned.eq_service mem inside owner owner'
  exact silent

/-- The handler of a stream takes a turn, or it waits on. -/
theorem thread_step {d : Duty} {st : Stage} (reachable : s.Reachable)
    (mem : thread i d st ∈ s.threads) (step : Scene.Step s s') :
    (∃ o, st = .bound o ∧ s'.turnsOf i = ⟨i, d, o, s.shared⟩ :: s.turnsOf i ∧
      ∀ th ∈ ((plugin c).step s.shared d o).2.threads s.gates i [.serving i] (.service i),
        th ∈ s'.threads) ∨
    ∃ st', thread i d st' ∈ s'.threads ∧ st.Goes s' st' ∧ s'.turnsOf i = s.turnsOf i := by
  obtain ⟨parts⟩ := step.parts
  obtain ⟨ths, becomes, results⟩ := parts.fate mem
  rcases reachable.service (unforked s i) mem rfl parts becomes with
    ⟨o, state, same, turns, rfl⟩ | ⟨turns, ⟨st', rfl, goes⟩ | ⟨turning, other⟩⟩
  · cases same
    exact .inl ⟨o, rfl, turns, results⟩
  · exact .inr ⟨st', results _ List.mem_cons_self, goes, turns⟩
  · generalize parts.events = es at turning
    cases turning
    exact absurd rfl (other _ _ _ _ _)

/-- The handler of a stream that sends takes a turn once it is told, or it goes on to send. -/
theorem send_step {d : Duty} {st : Stage} {method m terminal relayed} (reachable : s.Reachable)
    (lt : i < s.kinds.length) (mem : thread i d st ∈ s.threads)
    (inCall : st.InCall s i .server method)
    (entry : method.entry (s.kindOf i) .server = .sends .responses m terminal relayed)
    (step : Scene.Step s s') :
    (∃ o, st = .bound o ∧ s.Told ⟨i, .responses⟩ m o ∧
      s'.turnsOf i = ⟨i, d, o, s.shared⟩ :: s.turnsOf i ∧
      s'.passed ⟨i, .responses⟩ = s.passed ⟨i, .responses⟩ ∧
      ∀ th ∈ ((plugin c).step s.shared d o).2.threads s.gates i [.serving i] (.service i),
        th ∈ s'.threads) ∨
    ∃ st', thread i d st' ∈ s'.threads ∧ st'.InCall s' i .server method ∧
      s'.passed ⟨i, .responses⟩ ++ st'.unsent m = s.passed ⟨i, .responses⟩ ++ st.unsent m ∧
      s'.turnsOf i = s.turnsOf i := by
  have only : ∀ other ∈ s.threads, ∀ m terminal,
      other.stage = .offering ⟨i, .responses⟩ m terminal → other.owner.name? = some (.inr i) := by
    intro other inside m terminal offers
    rw [(reachable.voice (unforked s i) inside offers).1]
    rfl
  obtain ⟨parts⟩ := step.parts
  obtain ⟨ths, becomes, results⟩ := parts.fate mem
  rcases reachable.service (unforked s i) mem rfl parts becomes with
    ⟨o, state, same, turns, rfl⟩ | ⟨turns, goesOn⟩
  · cases same
    have came := inCall.came
    rw [entry] at came
    exact .inl ⟨o, rfl, came.told.1, turns, passed_of_thread reachable mem rfl nofun step, results⟩
  rcases becomes.sender parts.events_eq step.later lt reachable.owned rfl only inCall entry with
    ⟨st', rfl, inCall', same⟩ | ⟨o, told, -, same⟩
  · exact .inr ⟨st', results _ List.mem_cons_self, inCall', same, turns⟩
  · obtain rfl : st = .bound o := told
    rcases goesOn with ⟨st', rfl, goes⟩ | ⟨turning, other⟩
    · obtain rfl := Stage.bound_goes goes
      exact .inr
        ⟨_, results _ List.mem_cons_self, step.later.inCall lt inCall,
          congrArg (· ++ _) same, turns⟩
    · generalize parts.events = es at turning
      cases turning
      exact absurd rfl (other _ _ _ _ _)

theorem leaves_step (leaves : ∀ th ∈ s.threads, th.owner = .service i → Leaves i th)
    (reachable : s.Reachable) (lt : i < s.kinds.length) (step : Scene.Step s s') :
    (∀ th ∈ s'.threads, th.owner = .service i → Leaves i th) ∧
      s'.passed ⟨i, .responses⟩ = s.passed ⟨i, .responses⟩ ∧ s'.turnsOf i = s.turnsOf i := by
  refine ⟨?_, ?_, ?_⟩
  · intro th' mem owner
    obtain ⟨th, old, owner', becomes⟩ := step.served lt mem owner
    exact (leaves th old owner').step becomes
  · refine step.passed_of_silent reachable (unforked s i) fun th mem owner m terminal => ?_
    exact (leaves th mem owner).silent (reachable.cast th mem)
  · rcases step.turns_eq with same | ⟨turn, turns, -, fs, w, inside, -⟩
    · rw [Scene.turnsOf, same, Scene.turnsOf]
    · have other : turn.stream ≠ i := by
        intro stream
        cases leaves _ inside (reachable.taker (unforked s i) inside ⟨fs, rfl⟩ stream)
      rw [Scene.turnsOf, turns, List.filter_cons_of_neg (by simpa using other), Scene.turnsOf]

theorem leaves_of_done (reached : s'.Reachable) {o : Outcome}
    (results : ∀ th ∈ ([⟨.bound o, [.serving i], .service i⟩] : List (Thread (plugin c))),
      th ∈ s'.threads) (abandoned : ∀ v, o = .error v → v.isStreamClosed = true) :
    ∀ th ∈ s'.threads, th.owner = .service i → Leaves i th := by
  intro other inside owner
  obtain rfl := reached.owned.eq_service (results _ List.mem_cons_self) inside rfl owner
  exact .served abandoned

theorem Through.step {data} (through : Through s i data) (reachable : s.Reachable)
    (lt : i < s.kinds.length) (kind : s.kindOf i = .download) (step : Scene.Step s s') :
    Through s' i data := by
  cases through with
  | @closing pieces st mem inCall passed sliced turned =>
      have entry : Method.close.entry (s.kindOf i) .server = .closes .responses := by
        rw [kind]
        rfl
      have silent : ∀ m terminal, st ≠ .offering ⟨i, .responses⟩ m terminal := by
        rintro m terminal rfl
        have hasStage := inCall.resolve_left nofun
        rw [entry] at hasStage
        cases hasStage
      have passed := (passed_of_thread reachable mem rfl silent step).trans passed
      rcases thread_step reachable mem step with ⟨o, rfl, turns, results⟩ | ⟨st', mem', goes, turns⟩
      · have came := inCall.came
        rw [entry] at came
        cases came
        refine .ended (leaves_of_done (reachable.tail step) results nofun) passed sliced ?_
        rw [turns, List.length_cons, turned]
      · exact .closing mem' ((step.later.inCall lt inCall).goes goes) passed sliced (turns ▸ turned)
  | ended leaves passed sliced turned =>
      obtain ⟨leaves, same, turns⟩ := leaves_step leaves reachable lt step
      exact .ended leaves (same.trans passed) sliced (turns ▸ turned)

theorem Flow.step {content} (flow : Flow s i content) (reachable : s.Reachable)
    (lt : i < s.kinds.length) (kind : s.kindOf i = .download) (step : Scene.Step s s') :
    Flow s' i content := by
  have later := step.later
  have reached := reachable.tail step
  cases flow with
  | @streaming pieces piece rest st mem inCall passed sliced turned =>
      have entry : (Method.send (chunk piece)).entry (s.kindOf i) .server =
          .sends .responses (.payload (chunk piece)) false false := by
        rw [kind]
        rfl
      rcases send_step reachable lt mem inCall entry step with
        ⟨o, rfl, told, turns, same, results⟩ | ⟨st', mem', inCall', same, turns⟩
      · have turned' : (s'.turnsOf i).length = pieces.length + 2 := by
          rw [turns, List.length_cons, turned]
        rcases told with ⟨rfl, -⟩ | ⟨rfl, closed⟩
        · refine .stream rfl results ?_ sliced (by simpa using turned')
          rw [same, ← passed]
          exact (List.append_nil _).symm
        · have cut : s.passed ⟨i, .responses⟩ = messages pieces := by
            rw [messages_append] at passed
            exact List.append_cancel_right passed
          refine .stopped (leaves_of_done reached results fun v error => ?_)
            (.cut (same.trans cut) ?_ (later.closed _ lt closed) ?_ turned')
          · cases error
            rfl
          · rw [List.flatten_append, List.append_assoc]
            exact List.prefix_append _ _
          · rw [sliced, List.append_assoc]
            exact List.prefix_append _ _
      · exact .streaming mem' inCall' (same.trans passed) sliced (turns ▸ turned)
  | through through => exact .through (through.step reachable lt kind step)
  | @complaining f st mem inCall passed =>
      obtain ⟨relayed, entry⟩ := Method.entry_fail (s.kindOf i) f
      rcases send_step reachable lt mem inCall entry step with
        ⟨o, rfl, told, turns, same, results⟩ | ⟨st', mem', inCall', same, -⟩
      · rcases told with ⟨rfl, -⟩ | ⟨rfl, closed⟩
        · have whole : s.passed ⟨i, .responses⟩ = [.failure f] :=
            (List.append_nil _).symm.trans passed
          exact .stopped (leaves_of_done reached results nofun) (.failed (same.trans whole))
        · have nothing : s.passed ⟨i, .responses⟩ ++ [Message.failure f] = [] ++ [.failure f] :=
            passed
          refine .stopped (leaves_of_done reached results fun v error => ?_)
            (.refused (same.trans (List.append_cancel_right nothing)) (later.closed _ lt closed))
          cases error
          rfl
      · exact .complaining mem' inCall' (same.trans passed)
  | stopped leaves stops =>
      obtain ⟨leaves, same, turns⟩ := leaves_step leaves reachable lt step
      exact .stopped leaves (stops.later later lt same turns)

/-! ## Accounts -/

/-- How far the handler of a download is. -/
inductive Outflowing (s : Scene (plugin c)) (i : StreamId) : Prop where
  | starting {bucket key} : ⟨.starting i (.get bucket key), [.serving i], .service i⟩ ∈ s.threads →
    s.passed ⟨i, .responses⟩ = [] → s.turnsOf i = [] → Outflowing s i
  | invited {bucket key} : thread i (.get bucket key) (.bound (.ok .undefined)) ∈ s.threads →
    s.passed ⟨i, .responses⟩ = [] → s.turnsOf i = [] → Outflowing s i
  | flowing {content} : Flow s i content → Outflowing s i

theorem Outflowing.step (outflowing : Outflowing s i) (reachable : s.Reachable)
    (lt : i < s.kinds.length) (kind : s.kindOf i = .download) (step : Scene.Step s s') :
    Outflowing s' i := by
  cases outflowing with
  | starting mem passed unturned =>
      have passed := (passed_of_thread reachable mem rfl nofun step).trans passed
      obtain ⟨parts⟩ := step.parts
      obtain ⟨ths, becomes, results⟩ := parts.fate mem
      rcases reachable.service (unforked s i) mem rfl parts becomes with
        ⟨o, state, same, -⟩ | ⟨turns, ⟨st, rfl, goes⟩ | ⟨turning, -⟩⟩
      · exact nomatch same
      · obtain rfl : st = .starting _ _ := by cases goes <;> rfl
        exact .starting (results _ List.mem_cons_self) passed (turns.trans unturned)
      · generalize parts.events = es at turning
        cases turning
        exact .invited (results _ List.mem_cons_self) passed (turns.trans unturned)
  | invited mem passed unturned =>
      have passed := (passed_of_thread reachable mem rfl nofun step).trans passed
      rcases thread_step reachable mem step with ⟨o, same, turns, results⟩ |
        ⟨st', mem', goes, turns⟩
      · cases same
        exact .flowing (.answer rfl results passed (by rw [turns, unturned]; rfl))
      · obtain rfl := Stage.bound_goes goes
        exact .invited mem' passed (turns.trans unturned)
  | flowing flow => exact .flowing (flow.step reachable lt kind step)

/-- Every download has an account. -/
theorem outflowing (reachable : s.Reachable) (lt : i < s.kinds.length)
    (kind : s.kindOf i = .download) : Outflowing s i := by
  refine reachable.stream_induction (motive := (Outflowing · i)) lt kind ?_
    fun reachable lt kind step outflowing => outflowing.step reachable lt kind step
  rintro s c invocation reachable opens rfl
  obtain ⟨bucket, key, rfl⟩ := Scene.opens?_download opens
  have silent := (Scene.Step.opening opens).silent reachable (h := ⟨s.kinds.length, .responses⟩)
    (Nat.lt_irrefl _)
  exact .starting (Multiset.mem_cons_self _ _) silent.1 reachable.turnsOf_fresh

/-- What a handler waits for that answers a stream of a kind. -/
inductive Duty.Serves : StreamKind → Duty → Prop where
  | get {bucket key} : Serves .download (.get bucket key)
  | streaming {rest} : Serves .download (.streaming rest)
  | put : Serves .upload .put
  | receiving {t} : Serves .upload (.receiving t)
  | ending {kind} : Serves kind .ending
  | finished : Serves .upload .finished

theorem serves (reachable : s.Reachable) {d : Duty} {st fs w}
    (mem : ⟨st, .handling i d :: fs, w⟩ ∈ s.threads) :
    i < s.kinds.length ∧ fs = [.serving i] ∧ w = .service i ∧ d.Serves (s.kindOf i) := by
  cases reachable.cast _ mem with
  | beside => exact absurd ⟨rfl, _, rfl⟩ (reachable.not_beside (unforked s i) _ mem)
  | handler lt =>
      refine ⟨lt, rfl, rfl, ?_⟩
      cases kind : s.kindOf i with
      | upload =>
          cases intaking reachable lt kind with
          | starting mem' => exact nomatch reachable.owned.eq_service mem mem' rfl rfl
          | invited mem' =>
              cases reachable.owned.eq_service mem mem' rfl rfl
              exact .put
          | receiving mem' =>
              cases reachable.owned.eq_service mem mem' rfl rfl
              exact .receiving
          | past past =>
              cases past.answering _ mem rfl with
              | answers => exact .ending
              | aborted => exact .finished
              | ended still => exact absurd (.inr ⟨_, _, _, rfl⟩) still
              | leaves leaves => exact nomatch leaves
      | download =>
          cases outflowing reachable lt kind with
          | starting mem' => exact nomatch reachable.owned.eq_service mem mem' rfl rfl
          | invited mem' =>
              cases reachable.owned.eq_service mem mem' rfl rfl
              exact .get
          | flowing flow =>
              cases flow with
              | streaming mem' =>
                  cases reachable.owned.eq_service mem mem' rfl rfl
                  exact .streaming
              | complaining mem' =>
                  cases reachable.owned.eq_service mem mem' rfl rfl
                  exact .ending
              | stopped leaves => exact nomatch leaves _ mem rfl
              | through through =>
                  cases through with
                  | closing mem' =>
                      cases reachable.owned.eq_service mem mem' rfl rfl
                      exact .ending
                  | ended leaves => exact nomatch leaves _ mem rfl

/-- Turns are taken by handlers that fit their stream. -/
theorem turn_serves (reachable : s.Reachable) {turn : HandlerTurn (plugin c)}
    (mem : turn ∈ s.turns) : turn.state.Serves (s.kindOf turn.stream) := by
  induction reachable with
  | refl => exact absurd mem List.not_mem_nil
  | @tail s s' steps step ih =>
      have reachable : s.Reachable := steps
      rcases step.turning mem with old | ⟨-, fs, w, inside, -⟩
      · exact (step.later.kindOf (reachable.turned old)).symm ▸ ih old
      · obtain ⟨lt, -, -, serves⟩ := serves reachable inside
        exact (step.later.kindOf lt).symm ▸ serves

theorem kind_of_get (reachable : s.Reachable) {turn : HandlerTurn (plugin c)} (mem : turn ∈ s.turns)
    {bucket key : String} (state : turn.state = .get bucket key) :
    s.kindOf turn.stream = .download := by
  have serves := turn_serves reachable mem
  rw [state] at serves
  generalize s.kindOf turn.stream = kind at serves
  cases serves
  rfl

theorem Flow.of_turn (reachable : s.Reachable) {turn : HandlerTurn (plugin c)}
    (mem : turn ∈ s.turns) {bucket key : String} (state : turn.state = .get bucket key) :
    Flow s turn.stream (Store.get? turn.shared (.text bucket) (.text key)) := by
  have kind := kind_of_get reachable mem state
  induction reachable with
  | refl => exact absurd mem List.not_mem_nil
  | @tail s s' steps step ih =>
      have reachable : s.Reachable := steps
      rcases step.turning mem with old | ⟨same, fs, w, inside, results⟩
      · have lt := reachable.turned old
        have before := (step.later.kindOf lt).symm.trans kind
        exact (ih old before).step reachable lt before step
      · have taken : turn ∈ s'.turnsOf turn.stream := Scene.mem_turnsOf.mpr ⟨mem, rfl⟩
        obtain ⟨i, d, o, shared⟩ := turn
        cases state
        cases same
        obtain ⟨lt, rfl, rfl, -⟩ := serves reachable inside
        have before := (step.later.kindOf lt).symm.trans kind
        cases outflowing reachable lt before with
        | starting mem' => exact nomatch reachable.owned.eq_service inside mem' rfl rfl
        | invited mem' passed unturned =>
            have passed := (passed_of_thread reachable mem' rfl nofun step).trans passed
            refine .answer rfl results passed ?_
            rcases thread_step reachable inside step with ⟨_, -, turns, -⟩ | ⟨_, -, -, turns⟩
            · rw [turns, unturned]
              rfl
            · rw [turns, unturned] at taken
              exact absurd taken List.not_mem_nil
        | flowing flow =>
            cases flow with
            | streaming mem' | complaining mem' =>
                exact nomatch reachable.owned.eq_service inside mem' rfl rfl
            | stopped leaves => exact nomatch leaves _ inside rfl
            | through through =>
                cases through with
                | closing mem' => exact nomatch reachable.owned.eq_service inside mem' rfl rfl
                | ended leaves => exact nomatch leaves _ inside rfl

end Loopback

end ObjectTransfer
