import ObjectTransfer.Proofs.Stores
import ObjectTransfer.Proofs.Handlers

/-! # What the loopback storage takes in

The handler of an upload receives requests and takes in each of them until one is bad or a receive
comes to no request. Then it receives no more (`Loopback.Past`), so what a turn concludes are all
the requests that came on its stream (`Loopback.concluded`).
-/

namespace ObjectTransfer.Loopback

/-- Whether an intake is what these requests come to. -/
structure Intake.Takes (t : Intake) (requests : List Value) : Prop where
  adds : requests.foldlM Intake.add .empty = .ok t
  more : ∀ v ∈ requests, v ≠ .eof

theorem Intake.Takes.nothing : Takes .empty [] := ⟨rfl, fun _ mem => absurd mem List.not_mem_nil⟩

theorem Intake.Takes.add {t t' : Intake} {requests : List Value} {v : Value}
    (takes : t.Takes requests) (more : v ≠ .eof) (adds : t.add v = .ok t') :
    t'.Takes (requests ++ [v]) where
  adds := by
    rw [List.foldlM_append, takes.adds]
    change List.foldlM Intake.add t [v] = .ok t'
    rw [List.foldlM_cons, adds]
    rfl
  more v' mem := by
    rcases List.mem_append.mp mem with old | new
    · exact takes.more v' old
    · exact List.mem_singleton.mp new ▸ more

variable {c : Config}

/-! ## Turns of the handler of an upload -/

inductive Answers : Method → Prop where
  | respond {v} : Answers (.respond v)
  | fail {f} : Answers (.fail (.fault f))

/-- How a handler goes on when it receives no more, by the outcome of its last receive. -/
inductive Concludes : Outcome → Act Duty → Prop where
  | answers {m} : Answers m → Concludes (.ok .eof) (.call m .ending)
  | fails {v w} : Concludes (.ok v) (.fail w)
  | aborted {v l} : Concludes (.error v) (.log l .finished)

theorem concludes_complain (f : Except Fault Fault) : Concludes (.ok .eof) (complain f) := by
  cases f with
  | ok => exact .answers .fail
  | error => exact .fails

theorem concludes_conclude (s : Store) (t : Intake) : Concludes (.ok .eof) (conclude c s t).2 := by
  fun_cases conclude c s t with
  | case1 | case2 | case3 =>
      dsimp only
      exact concludes_complain _
  | case4 => exact .fails
  | case5 => exact .answers .respond

theorem step_receiving (s : Store) (t : Intake) (o : Outcome) :
    (∃ v t', o = .ok v ∧ v ≠ .eof ∧ t.add v = .ok t' ∧
      (step c s (.receiving t) o).2 = .call .receive (.receiving t')) ∨
    Concludes o (step c s (.receiving t) o).2 := by
  cases o with
  | error v => exact .inr .aborted
  | ok v =>
      by_cases marker : v = .eof
      · subst marker
        exact .inr (concludes_conclude s t)
      · cases added : t.add v with
        | ok t' => exact .inl ⟨v, t', rfl, marker, added, by simp [step, added]⟩
        | error f =>
            have fails : (step c s (.receiving t) (.ok v)).2 = .fail (.fault f) := by
              simp [step, added]
            exact .inr (fails ▸ .fails)

/-! ## Handlers that receive no more -/

variable {s s' : Scene (plugin c)} {i : StreamId} {th th' : Thread (plugin c)}

theorem unforked (s : Scene (plugin c)) (i : StreamId) : s.Unforked i :=
  fun turn _ _ => not_forks turn

def thread (i : StreamId) (d : Duty) (st : Stage) : Thread (plugin c) :=
  ⟨st, [.handling i d, .serving i], .service i⟩

theorem Entry.HasStage.listens {e : Entry} {st : Stage} {h : HalfId} (hasStage : e.HasStage s i st)
    (hears : st.Hears h) : (∃ side, e = .receives side) ∨ e = .closesAndReceives := by
  cases hasStage with
  | receives => exact .inl ⟨_, rfl⟩
  | thenReceives => exact .inr rfl
  | sends sends => cases sends <;> exact hears.elim
  | _ => exact hears.elim

theorem Answers.deaf {m : Method} {st : Stage} {h : HalfId} (answers : Answers m)
    (inCall : st.InCall s i .server m) : ¬ st.Hears h := by
  intro hears
  have hasStage := inCall.resolve_left fun stage => by
    rw [stage] at hears
    exact hears
  cases answers with
  | @respond v =>
      cases kind : s.kindOf i <;> rw [kind] at hasStage
      · exact (Entry.HasStage.listens hasStage hears).elim (by rintro ⟨_, ⟨⟩⟩) (by rintro ⟨⟩)
      · simp only [Method.entry, Entry.ofPayload] at hasStage
        split at hasStage <;>
          exact (Entry.HasStage.listens hasStage hears).elim (by rintro ⟨_, ⟨⟩⟩) (by rintro ⟨⟩)
  | @fail f =>
      obtain ⟨relayed, entry⟩ := Method.entry_fail (s.kindOf i) f
      rw [entry] at hasStage
      exact (Entry.HasStage.listens hasStage hears).elim (by rintro ⟨_, ⟨⟩⟩) (by rintro ⟨⟩)

/-! ## Services whose handler is done -/

/-- What a service does after its handler is done, if it has no failure to deliver. -/
inductive Leaves (i : StreamId) : Thread (plugin c) → Prop where
  | served {o} : (∀ v, o = .error v → v.isStreamClosed = true) →
    Leaves i ⟨.bound o, [.serving i], .service i⟩
  | finishing {st} : Leaves i ⟨st, [], .service i⟩

theorem Leaves.step (leaves : Leaves i th)
    (becomes : (∃ stage, th' = { th with stage } ∧ th.stage.Goes s' stage) ∨
      ∃ ths es, th.Turns s ths es ∧ th' ∈ ths) : Leaves i th' := by
  rcases becomes with ⟨stage, rfl, goes⟩ | ⟨ths, es, turns, inside⟩
  · cases leaves with
    | served abandoned =>
        obtain rfl := Stage.bound_goes goes
        exact .served abandoned
    | finishing => exact .finishing
  · cases leaves with
    | @served o abandoned =>
        cases turns
        obtain rfl := List.mem_singleton.mp inside
        cases o with
        | ok => exact .finishing
        | error v =>
            simp only [Thread.served, abandoned v rfl, if_true]
            exact .finishing
    | finishing =>
        cases turns
        exact absurd inside List.not_mem_nil

theorem Leaves.silent (leaves : Leaves i th) (proper : th.Proper s) {m terminal} {h : HalfId} :
    th.stage ≠ .offering h m terminal := by
  rintro stage
  cases leaves with
  | served => exact nomatch stage
  | finishing =>
      cases proper with
      | finishing _ finishes =>
          obtain rfl : _ = Stage.offering h m terminal := stage
          cases finishes
      | finished => exact nomatch stage
      | caller _ _ owner => rcases owner with owner | owner <;> exact nomatch owner

theorem Leaves.not_runs (leaves : Leaves i th) : ¬ th.Runs := by
  cases leaves with
  | served => exact Thread.bound_not_runs
  | finishing => exact fun runs => runs.elim nofun nofun

/-! ## Handlers that concluded -/

/-- What a service does after its handler concluded, by the outcome of its last receive. -/
inductive Answering (s : Scene (plugin c)) (i : StreamId) : Outcome → Thread (plugin c) → Prop where
  | answers {m st} : Answers m → st.InCall s i .server m →
    Answering s i (.ok .eof) (thread i .ending st)
  | aborted {last} : Answering s i last (thread i .finished (.bound (.ok .undefined)))
  | ended {v other} : ¬ other.Runs → Answering s i (.ok v) other
  | leaves {last other} : Leaves i other → Answering s i last other

variable {requests : List Value} {last : Outcome}

theorem Answering.deaf (answering : Answering s i last th) (runs : th.Runs) {h : HalfId} :
    ¬ th.stage.Hears h := by
  cases answering with
  | answers answers inCall => exact answers.deaf inCall
  | aborted => exact id
  | ended still => exact absurd runs still
  | leaves leaves => exact absurd runs leaves.not_runs

theorem Concludes.answering {act : Act Duty} (concludes : Concludes last act)
    (gates : String → Option Outcome) : ∃ th,
      Act.threads (P := plugin c) gates i [.serving i] (.service i) act = [th] ∧
      th.owner = .service i ∧ Answering s i last th := by
  cases concludes with
  | answers answers => exact ⟨_, rfl, rfl, .answers answers (.inl rfl)⟩
  | fails => exact ⟨_, rfl, rfl, .ended Thread.bound_not_runs⟩
  | aborted => exact ⟨_, rfl, rfl, .aborted⟩

theorem Answering.step (answering : Answering s i last th) (reachable : s.Reachable)
    (lt : i < s.kinds.length) (mem : th ∈ s.threads) (step : Scene.Step s s')
    (owner : th'.owner = .service i)
    (becomes : (∃ stage, th' = { th with stage } ∧ th.stage.Goes s' stage) ∨
      ∃ ths es, th.Turns s ths es ∧ th' ∈ ths) : Answering s' i last th' := by
  have later := step.later
  cases answering with
  | leaves leaves => exact .leaves (leaves.step becomes)
  | answers answers inCall =>
      rcases becomes with ⟨stage, rfl, goes⟩ | ⟨ths, es, turns, inside⟩
      · exact .answers answers ((later.inCall lt inCall).goes goes)
      · cases turns with
        | @handle o => cases o <;>
            (obtain rfl := List.mem_singleton.mp inside; exact .ended Thread.bound_not_runs)
  | aborted =>
      rcases becomes with ⟨stage, rfl, goes⟩ | ⟨ths, es, turns, inside⟩
      · obtain rfl := Stage.bound_goes goes
        exact .aborted
      · cases turns
        obtain rfl := List.mem_singleton.mp inside
        exact .leaves (.served nofun)
  | ended still =>
      rcases becomes with ⟨stage, rfl, goes⟩ | ⟨ths, es, turns, inside⟩
      · exact .ended fun runs => still (runs.of_goes goes)
      · exact .ended fun runs => still ((reachable.cast th mem).runs_before turns inside owner runs)

/-- The receives of the handler of an upload are past: they came to these requests, and the last of
them to an outcome after which it receives no more. -/
structure Past (s : Scene (plugin c)) (i : StreamId) (requests : List Value) (last : Outcome) :
    Prop where
  heard : s.heard ⟨i, .requests⟩ = requests.map .ok ++ [last]
  came : (Stage.bound last).Receives s ⟨i, .requests⟩
  answering : ∀ th ∈ s.threads, th.owner = .service i → Answering s i last th

theorem heard_of_deaf (reachable : s.Reachable)
    (deaf : ∀ th ∈ s.threads, th.owner = .service i → th.Runs → ¬ th.stage.Hears ⟨i, .requests⟩)
    (step : Scene.Step s s') : s'.heard ⟨i, .requests⟩ = s.heard ⟨i, .requests⟩ := by
  obtain ⟨es, events, hears⟩ := step.receives
  refine Scene.heard_eq es events fun o mem => ?_
  obtain ⟨th, inside, hearing⟩ := hears _ _ mem
  obtain ⟨owner, runs⟩ := reachable.hearer (unforked s i) inside hearing
  exact deaf th inside owner runs hearing

theorem Past.step (past : Past s i requests last) (reachable : s.Reachable)
    (lt : i < s.kinds.length) (step : Scene.Step s s') : Past s' i requests last where
  heard := by
    refine (heard_of_deaf reachable ?_ step).trans past.heard
    exact fun th mem owner runs => (past.answering th mem owner).deaf runs
  came := step.later.receives lt past.came
  answering th' mem owner := by
    obtain ⟨th, old, owner', becomes⟩ := step.served lt mem owner
    exact (past.answering th old owner').step reachable lt old step owner becomes

/-! ## Accounts -/

/-- What the handler of an upload took in so far. -/
inductive Intaking (s : Scene (plugin c)) (i : StreamId) : Prop where
  | starting : ⟨.starting i .put, [.serving i], .service i⟩ ∈ s.threads →
    s.heard ⟨i, .requests⟩ = [] → Intaking s i
  | invited : thread i .put (.bound (.ok .undefined)) ∈ s.threads →
    s.heard ⟨i, .requests⟩ = [] → Intaking s i
  | receiving {t taken st} : thread i (.receiving t) st ∈ s.threads →
    st.InCall s i .server .receive → t.Takes taken →
    s.heard ⟨i, .requests⟩ = taken.map .ok ++ st.noted?.toList → Intaking s i
  | past {taken final} : Past s i taken final → Intaking s i

/-- While its service is not in a receive, an upload hears nothing. -/
theorem heard_of_thread (reachable : s.Reachable) (mem : th ∈ s.threads)
    (owner : th.owner = .service i) (deaf : ¬ th.stage.Hears ⟨i, .requests⟩)
    (step : Scene.Step s s') : s'.heard ⟨i, .requests⟩ = s.heard ⟨i, .requests⟩ := by
  refine heard_of_deaf reachable (fun other inside owner' _ => ?_) step
  obtain rfl := reachable.owned.eq_service mem inside owner owner'
  exact deaf

theorem Concludes.past {act : Act Duty} {gates : String → Option Outcome}
    (concludes : Concludes last act) (reached : s.Reachable)
    (came : (Stage.bound last).Receives s ⟨i, .requests⟩)
    (heard : s.heard ⟨i, .requests⟩ = requests.map .ok ++ [last])
    (results : ∀ th ∈ Act.threads (P := plugin c) gates i [.serving i] (.service i) act,
      th ∈ s.threads) : Past s i requests last := by
  obtain ⟨th, threads, owner, answering⟩ := concludes.answering (s := s) (i := i) gates
  have mem : th ∈ s.threads := results th (threads ▸ List.mem_singleton_self th)
  refine ⟨heard, came, fun other inside owner' => ?_⟩
  obtain rfl := reached.owned.eq_service mem inside owner owner'
  exact answering

theorem Intaking.turn {t : Intake} {o : Outcome} {ths es} (reached : s'.Reachable)
    (came : (Stage.bound o).Receives s' ⟨i, .requests⟩) (takes : t.Takes requests)
    (heard : s'.heard ⟨i, .requests⟩ = requests.map .ok ++ [o])
    (turns : (thread i (.receiving t) (.bound o)).Turns s ths es)
    (results : ∀ th ∈ ths, th ∈ s'.threads) :
    Intaking s' i ∧
      ((∀ t', (Loopback.step c s.shared (.receiving t) o).2 ≠ .call .receive (.receiving t')) →
      Past s' i requests o) := by
  cases turns with
  | handle =>
      rcases step_receiving (c := c) s.shared t o with
        ⟨v, t', rfl, more, adds, act⟩ | concludes
      · have mem : thread i (.receiving t') (.entering i .server .receive) ∈ s'.threads := by
          refine results _ ?_
          rw [show ((plugin c).step s.shared (.receiving t) (.ok v)).2 = _ from act]
          exact List.mem_cons_self
        refine ⟨.receiving mem (.inl rfl) (takes.add more adds) ?_,
          fun stops => absurd act (stops t')⟩
        rw [heard, List.map_append, List.append_assoc]
        rfl
      · have past : Past s' i requests o := concludes.past reached came heard results
        exact ⟨.past past, fun _ => past⟩

theorem Intaking.step (intaking : Intaking s i) (reachable : s.Reachable) (lt : i < s.kinds.length)
    (kind : s.kindOf i = .upload) (step : Scene.Step s s') : Intaking s' i := by
  have reached := reachable.tail step
  have later := step.later
  obtain ⟨parts⟩ := step.parts
  cases intaking with
  | starting mem heard =>
      have heard := (heard_of_thread reachable mem rfl id step).trans heard
      obtain ⟨ths, becomes, results⟩ := parts.fate mem
      rcases becomes.cases parts.events_eq with ⟨st, rfl, goes⟩ | turns
      · have same : st = .starting i .put := by cases goes <;> rfl
        subst same
        exact .starting (results _ List.mem_cons_self) heard
      · generalize parts.events = es at turns
        cases turns
        exact .invited (results _ List.mem_cons_self) heard
  | invited mem heard =>
      have heard := (heard_of_thread reachable mem rfl id step).trans heard
      obtain ⟨ths, becomes, results⟩ := parts.fate mem
      rcases becomes.cases parts.events_eq with ⟨st, rfl, goes⟩ | turns
      · obtain rfl := Stage.bound_goes goes
        exact .invited (results _ List.mem_cons_self) heard
      · generalize parts.events = es at turns
        cases turns
        exact .receiving (results _ List.mem_cons_self) (.inl rfl) .nothing heard
  | @receiving t requests st mem inCall takes heard =>
      obtain ⟨ths, becomes, results⟩ := parts.fate mem
      have only : ∀ other ∈ s.threads, other.stage.Hears ⟨i, .requests⟩ →
          other.owner.name? = some (.inr i) := by
        intro other inside hears
        rw [(reachable.hearer (unforked s i) inside hears).1]
        rfl
      have entry : Method.receive.entry (s.kindOf i) .server = .receives .requests := by
        rw [kind]
        rfl
      rcases becomes.receiver parts.events_eq reachable.owned rfl only inCall entry with
        ⟨st', news, rfl, goes, heard', noted⟩ | ⟨o, bound, turns, heard'⟩
      · refine .receiving (results _ List.mem_cons_self)
          ((later.inCall lt inCall).goes goes) takes ?_
        rw [heard', heard, noted, List.append_assoc]
        rfl
      · obtain rfl : st = .bound o := bound
        have came := inCall.came
        rw [entry] at came
        refine (Intaking.turn reached ?_ takes (heard'.trans heard) turns results).1
        cases came with
        | receives receives => exact later.receives lt receives
  | past past => exact .past (past.step reachable lt step)

/-- Every upload has an account. -/
theorem intaking (reachable : s.Reachable) (lt : i < s.kinds.length) (kind : s.kindOf i = .upload) :
    Intaking s i := by
  refine reachable.stream_induction (motive := (Intaking · i)) lt kind ?_
    fun reachable lt kind step intaking => intaking.step reachable lt kind step
  rintro s c invocation reachable opens rfl
  obtain rfl := Scene.opens?_upload opens
  have silent := (Scene.Step.opening opens).silent reachable (h := ⟨s.kinds.length, .requests⟩)
    (Nat.lt_irrefl _)
  exact .starting (Multiset.mem_cons_self _ _) silent.2

theorem past_of_stops (reachable : s.Reachable) {turn : HandlerTurn (plugin c)}
    (mem : turn ∈ s.turns) (kind : s.kindOf turn.stream = .upload) {t : Intake}
    (state : turn.state = .receiving t)
    (stops : ∀ t', (step c turn.shared (.receiving t) turn.outcome).2 ≠
      .call .receive (.receiving t')) :
    ∃ requests, t.Takes requests ∧ Past s turn.stream requests turn.outcome := by
  induction reachable with
  | refl => exact absurd mem List.not_mem_nil
  | @tail s s' steps step ih =>
      have reachable : s.Reachable := steps
      have reached : s'.Reachable := steps.tail step
      rcases step.turning mem with old | ⟨same, fs, w, inside, results⟩
      · have lt := reachable.turned old
        obtain ⟨requests, takes, past⟩ := ih old ((step.later.kindOf lt).symm.trans kind)
        exact ⟨requests, takes, past.step reachable lt step⟩
      · obtain ⟨i, d, o, shared⟩ := turn
        cases state
        cases same
        have proper := reachable.cast _ inside
        cases proper with
        | beside => exact absurd ⟨rfl, _, rfl⟩ (reachable.not_beside (unforked s i) _ inside)
        | handler lt =>
            have kindBefore := (step.later.kindOf lt).symm.trans kind
            cases intaking reachable lt kindBefore with
            | starting mem' | invited mem' =>
                exact nomatch reachable.owned.eq_service inside mem' rfl rfl
            | @receiving t' requests st mem' inCall takes heard =>
                cases reachable.owned.eq_service inside mem' rfl rfl
                have came := inCall.came
                rw [kindBefore] at came
                have receives : (Stage.bound o).Receives s ⟨i, .requests⟩ := by
                  cases came with
                  | receives receives => exact receives
                have heard' := (heard_of_thread reachable inside rfl id step).trans heard
                have past := (Intaking.turn reached (step.later.receives lt receives) takes heard'
                  .handle results).2 stops
                exact ⟨requests, takes, past⟩
            | past past =>
                cases past.answering _ inside rfl with
                | ended still => exact absurd (.inr ⟨_, _, _, rfl⟩) still
                | leaves leaves => exact nomatch leaves

/-- What a turn concludes when a receive of an upload comes to the end marker are all the requests
that came. -/
theorem concluded (reachable : s.Reachable) {turn : HandlerTurn (plugin c)} (mem : turn ∈ s.turns)
    (kind : s.kindOf turn.stream = .upload) {t : Intake} (state : turn.state = .receiving t)
    (ended : turn.outcome = .ok .eof) :
    ∃ requests, t.Takes requests ∧ Past s turn.stream requests (.ok .eof) := by
  rw [← ended]
  refine past_of_stops reachable mem kind state fun t' more => ?_
  have concludes : Concludes (.ok .eof) (step c turn.shared (.receiving t) (.ok .eof)).2 :=
    concludes_conclude turn.shared t
  rw [ended] at more
  rw [more] at concludes
  cases concludes

/-! ## What is stored -/

theorem Intake.Takes.before {t : Intake} {v : Value} (takes : t.Takes (requests ++ [v])) :
    ∃ t' : Intake, t'.Takes requests ∧ t'.add v = .ok t := by
  have adds := takes.adds
  rw [List.foldlM_append] at adds
  cases taken : requests.foldlM Intake.add .empty with
  | error f =>
      rw [taken] at adds
      exact nomatch adds
  | ok t' =>
      rw [taken] at adds
      refine ⟨t', ⟨taken, fun v' mem => takes.more v' (List.mem_append_left _ mem)⟩, ?_⟩
      change List.foldlM Intake.add t' [v] = .ok t at adds
      rw [List.foldlM_cons] at adds
      cases added : t'.add v with
      | error f =>
          rw [added] at adds
          exact nomatch adds
      | ok t'' =>
          rw [added] at adds
          exact adds

/-- An intake without a bad request has the chunks of all, and all named its target. -/
theorem Intake.Takes.whole {t : Intake} (takes : t.Takes requests) (sound : t.failure = none) :
    t.chunks.reverse = requests.map (·.member "fileChunk") ∧ (t.target = none → requests = []) ∧
      ∀ b k : String, t.target = some (.text b, .text k) →
        ∀ r ∈ requests, r.member "bucket" = .text b ∧ r.member "key" = .text k := by
  induction requests using List.reverseRecOn generalizing t with
  | nil =>
      cases takes.adds
      exact ⟨rfl, fun _ => rfl, fun _ _ _ r mem => absurd mem List.not_mem_nil⟩
  | append_singleton requests v ih =>
      obtain ⟨t', takes', adds⟩ := takes.before
      simp only [Intake.add] at adds
      split at adds
      next f failed =>
        cases adds
        exact nomatch failed.symm.trans sound
      next sound' untargeted =>
        cases adds
        obtain ⟨chunks, none, -⟩ := ih takes' sound'
        obtain rfl := none untargeted
        refine ⟨by simp [chunks], nofun, fun b k target r mem => ?_⟩
        obtain rfl := List.mem_singleton.mp mem
        simpa using target
      next bucket key sound' target =>
        obtain ⟨chunks, -, named⟩ := ih takes' sound'
        split at adds
        next same =>
          cases adds
          refine ⟨by simp [chunks], fun missing => (nomatch target.symm.trans missing),
            fun b k target' r mem => ?_⟩
          rcases List.mem_append.mp mem with old | new
          · exact named b k target' r old
          · obtain rfl := List.mem_singleton.mp new
            obtain ⟨rfl, rfl⟩ : bucket = .text b ∧ key = .text k := by
              simpa using target.symm.trans target'
            simpa [Value.same_text] using same
        next =>
          cases complaint : Intake.mismatch? (v.member "bucket") (v.member "key") bucket key with
          | error f =>
              rw [complaint] at adds
              exact nomatch adds
          | ok f =>
              rw [complaint] at adds
              cases adds
              exact nomatch sound

theorem joinFrom_ok {place : Nat} {chunks : List Value} {data : Bytes}
    (joined : joinFrom place chunks = .ok data) :
    ∃ pieces : List Bytes, chunks = pieces.map .bytes ∧ data = pieces.flatten := by
  induction chunks generalizing place data with
  | nil =>
      cases joined
      exact ⟨[], rfl, rfl⟩
  | cons v rest ih =>
      cases v with
      | bytes piece =>
          cases others : joinFrom (place + 1) rest with
          | error e =>
              rw [joinFrom, others] at joined
              cases joined
          | ok more =>
              rw [joinFrom, others] at joined
              cases joined
              obtain ⟨pieces, rfl, rfl⟩ := ih others
              exact ⟨piece :: pieces, rfl, rfl⟩
      | _ => cases joined

theorem joinChunks?_ok {chunks : List Value} {data : Bytes}
    (joined : joinChunks? chunks = .ok data) :
    ∃ pieces : List Bytes, chunks = pieces.map .bytes ∧ data = pieces.flatten := by
  rw [joinChunks?] at joined
  split at joined
  next bytes found =>
    cases joined
    exact joinFrom_ok found
  next => cases joined

/-- Whether these requests bring an object: there are some, all name its bucket and key, and their
chunks, one after another, are its bytes. -/
structure Bring (requests : List Value) (bucket key : String) (data : Bytes) : Prop where
  some : requests ≠ []
  named : ∀ r ∈ requests, r.member "bucket" = .text bucket ∧ r.member "key" = .text key
  bytes : ∃ pieces : List Bytes,
    requests.map (·.member "fileChunk") = pieces.map .bytes ∧ data = pieces.flatten

/-- What a turn stores are all the chunks that came on its stream before the end. -/
theorem Stores.brought {turn : HandlerTurn (plugin c)} {bucket key : String} {t : Intake}
    {data : Bytes} (stores : Stores turn bucket key t data) (reachable : s.Reachable)
    (mem : turn ∈ s.turns) (kind : s.kindOf turn.stream = .upload) :
      ∃ requests, Bring requests bucket key data ∧
      s.heard ⟨turn.stream, .requests⟩ = requests.map .ok ++ [.ok .eof] := by
  obtain ⟨requests, takes, past⟩ := concluded reachable mem kind stores.state stores.outcome
  obtain ⟨chunks, -, named⟩ := takes.whole stores.passes.sound
  have some : requests ≠ [] := by
    rintro rfl
    cases takes.adds
    exact nomatch stores.passes.target
  refine ⟨requests, ⟨some, named bucket key stores.passes.target, ?_⟩, past.heard⟩
  rw [← chunks]
  exact joinChunks?_ok stores.passes.joined

end ObjectTransfer.Loopback
