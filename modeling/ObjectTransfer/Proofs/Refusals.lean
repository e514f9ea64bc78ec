import ObjectTransfer.Proofs.Judgements
import ObjectTransfer.Proofs.Overtakings
import ObjectTransfer.Proofs.Performances

/-! # Uploads that are refused

The handler of an upload may fail, send an error or learn that the client aborted
(`Loopback.Refuses`). Then the turns on that upload leave what is stored as it is, with one
exception: a bucket that is created for an object whose chunks cannot be joined stays, and nothing
is in it (`Loopback.Spoils`). Only a download from that bucket shows it (`Loopback.Hollows`).
-/

namespace ObjectTransfer

namespace Loopback

variable {c : Config} {s s' : Scene (plugin c)} {i : StreamId} {th : Thread (plugin c)}
  {turn : HandlerTurn (plugin c)} {turns : List (HandlerTurn (plugin c))} {requests : List Value}

/-! ## Answers are taken -/

theorem Answers.not_closes {m : Method} (answers : Answers m) (kind : StreamKind) {side : Side} :
    m.entry kind .server ≠ .closes side := by
  intro same
  cases answers with
  | respond =>
      cases kind with
      | download => cases same
      | upload =>
          simp only [Method.entry, Entry.ofPayload] at same
          split at same <;> cases same
  | fail => cases kind <;> cases same

theorem Answers.passed {m : Method} {next : Stage} (answers : Answers m)
    (inCall : (Stage.closing ⟨i, .responses⟩ next).InCall s i .server m)
    (isOpen : s.closed ⟨i, .responses⟩ = false) : ∃ m', .handed ⟨i, .responses⟩ m' ∈ s.events := by
  have hasStage := inCall.resolve_left nofun
  have fits := m.entry_fits (s.kindOf i) .server
  have apart := @answers.not_closes _ (s.kindOf i)
  generalize m.entry (s.kindOf i) .server = e at hasStage fits apart
  cases hasStage with
  | receives receives =>
      cases receives with
      | closing handed => exact ⟨_, handed⟩
  | thenReceives => exact nomatch fits
  | sends sends =>
      cases sends with
      | closing _ told =>
          rcases told with ⟨-, handed⟩ | ⟨-, closed⟩
          · exact ⟨_, handed⟩
          · exact nomatch isOpen.symm.trans closed
  | closing => exact absurd rfl apart
  | closingOpen => exact nomatch fits

/-- While the handler of an upload runs, its response half is open, or a response passed. -/
theorem open_of_runs (reachable : s.Reachable) (kind : s.kindOf i = .upload) (mem : th ∈ s.threads)
    (owner : th.owner = .service i) (runs : th.Runs) :
    s.closed ⟨i, .responses⟩ = false ∨ ∃ m, .handed ⟨i, .responses⟩ m ∈ s.events := by
  induction reachable generalizing th with
  | refl => exact absurd mem (Multiset.notMem_zero th)
  | @tail s s' steps step ih =>
      have reachable : s.Reachable := steps
      have reached : s'.Reachable := steps.tail step
      have lt : i < s'.kinds.length := (reached.cast th mem).service_lt (by rw [owner]; rfl)
      rcases step.stream_cases lt kind with ⟨old, kindBefore⟩ | ⟨rfl, call, invocation, -, rfl⟩
      · obtain ⟨before, inside, owner', becomes⟩ := step.served old mem owner
        have ran : before.Runs := by
          rcases becomes with ⟨stage, rfl, goes⟩ | ⟨ths, es, turns, mem⟩
          · exact runs.of_goes goes
          · exact (reachable.cast before inside).runs_before turns mem owner runs
        rcases ih kindBefore inside owner' ran with isOpen | ⟨m, handed⟩
        · cases closed : s'.closed ⟨i, .responses⟩ with
          | false => exact .inl rfl
          | true =>
              obtain ⟨closer, mem', next, closing⟩ := step.shuts old isOpen closed
              have closes : closer.stage.Closes ⟨i, .responses⟩ := closing ▸ .inl rfl
              rcases reachable.closer_back kindBefore (unforked s i) mem' closes with
                service | ⟨m, handed⟩
              -- The service closes the half itself, which it does only once its answer passed.
              · obtain rfl := reachable.owned.eq_service inside mem' owner' service
                have answer : ∃ m, .handed ⟨i, .responses⟩ m ∈ s.events := by
                  cases intaking reachable old kindBefore with
                  | starting mem'' | invited mem'' =>
                      obtain rfl := reachable.owned.eq_service inside mem'' owner' rfl
                      exact nomatch closing
                  | receiving mem'' inCall =>
                      obtain rfl := reachable.owned.eq_service inside mem'' owner' rfl
                      obtain rfl := closing
                      have hasStage := inCall.resolve_left nofun
                      rw [kindBefore] at hasStage
                      cases hasStage with
                      | receives receives => cases receives
                  | past past =>
                      cases past.answering _ inside owner' with
                      | answers answers inCall =>
                          obtain rfl := closing
                          exact answers.passed inCall isOpen
                      | aborted => exact nomatch closing
                      | ended still => exact absurd ran still
                      | leaves leaves => exact absurd ran leaves.not_runs
                exact .inr (answer.imp fun m handed => step.later.mem handed)
              · exact .inr ⟨m, step.later.mem handed⟩
        · exact .inr ⟨m, step.later.mem handed⟩
      · exact .inl (if_pos rfl)

theorem not_running_of_fails (reachable : s.Reachable) (mem : turn ∈ s.turns) {v : Value}
    (act : turn.act = .fail v) : ¬ s.Running turn.stream := by
  induction reachable with
  | refl => exact absurd mem List.not_mem_nil
  | @tail s s' steps step ih =>
      have reachable : s.Reachable := steps
      have reached : s'.Reachable := steps.tail step
      rcases step.turning mem with old | ⟨same, fs, w, inside, results⟩
      · exact fun running => ih old (running.before (reachable.turned old) reachable.cast step)
      · obtain ⟨lt, rfl, rfl, -⟩ := serves reachable inside
        rw [HandlerTurn.act, same] at act
        rw [act] at results
        rintro ⟨th, mem, owner, runs⟩
        obtain rfl := reached.owned.eq_service (results _ List.mem_cons_self) mem rfl owner
        exact Thread.bound_not_runs runs

theorem entry_of_conclude {store : Store} {t : Intake} {m : Method}
    (act : (conclude c store t).2 = .call m .ending) :
    ∃ message relayed, m.entry .upload .server = .sends .responses message true relayed := by
  have complains {f : Except Fault Fault} (act : complain f = .call m .ending) :
      ∃ message relayed, m.entry .upload .server = .sends .responses message true relayed := by
    cases f with
    | ok f =>
        cases act
        exact ⟨_, _, rfl⟩
    | error => cases act
  revert act
  fun_cases conclude c store t with
  | case1 | case2 | case3 =>
      dsimp only
      exact complains
  | case4 =>
      intro act
      cases act
  | case5 =>
      rintro ⟨⟩
      exact ⟨_, _, rfl⟩

theorem outcome_of_ending (reachable : s.Reachable) (mem : turn ∈ s.turns)
    (kind : s.kindOf turn.stream = .upload) (state : turn.state = .ending) :
    ∃ v, turn.outcome = .ok v := by
  induction reachable with
  | refl => exact absurd mem List.not_mem_nil
  | @tail s s' steps step ih =>
      have reachable : s.Reachable := steps
      rcases step.turning mem with old | ⟨-, fs, w, inside, -⟩
      · exact ih old ((step.later.kindOf (reachable.turned old)).symm.trans kind)
      obtain ⟨i, d, o, shared⟩ := turn
      obtain rfl : d = .ending := state
      obtain ⟨lt, rfl, rfl, -⟩ := serves reachable inside
      have kind := (step.later.kindOf lt).symm.trans kind
      have runs : Thread.Runs (P := plugin c) (thread i .ending (.bound o)) := .inr ⟨_, _, _, rfl⟩
      have busy : ¬ ∀ th ∈ s.threads, th.owner = .service i → Leaves i th :=
        fun leaves => (leaves _ inside rfl).not_runs runs
      cases deciding reachable lt kind with
      | awaiting mem' awaits =>
          obtain rfl := reachable.owned.eq_service mem' inside awaits.owner rfl
          exact nomatch awaits
      | @decided turn' taken stream decided =>
          subst stream
          have concludes := decided.concludes
          have answering := decided.past.answering _ inside rfl
          obtain ⟨t, state, -⟩ := decided.state
          generalize outcome : turn'.outcome = last at concludes answering
          generalize act : turn'.act = act at concludes
          cases concludes with
          | aborted => cases answering with
              | leaves leaves => exact absurd runs leaves.not_runs
          | fails =>
              exact absurd ⟨_, inside, rfl, runs⟩ (not_running_of_fails reachable decided.mem act)
          | @answers m =>
              have concluded : (conclude c turn'.shared t).2 = .call m .ending := by
                rw [HandlerTurn.act, state, outcome] at act
                exact act
              obtain ⟨message, relayed, entry⟩ := entry_of_conclude concluded
              cases decided.answers m message relayed act (kind ▸ entry) with
              | sent leaves | dropped leaves => exact absurd leaves busy
              | @sending method relayed st mem' inCall entry passed =>
                  cases reachable.owned.eq_service inside mem' rfl rfl
                  have came := inCall.came
                  rw [entry] at came
                  rcases came.told.1 with ⟨rfl, -⟩ | ⟨rfl, closed⟩
                  · exact ⟨_, rfl⟩
                  · exfalso
                    have nothing : s.passed ⟨turn'.stream, .responses⟩ = [] := by
                      apply List.append_cancel_right
                      exact passed
                    rcases open_of_runs reachable kind inside rfl runs with isOpen | ⟨m', handed⟩
                    · cases isOpen.symm.trans closed
                    · have mem := Scene.mem_passed.mpr handed
                      rw [nothing] at mem
                      exact absurd mem List.not_mem_nil

/-! ## Empty buckets -/

/-- Whether a store came of another by adding an empty bucket. No question about the objects and no
download from another bucket shows it, and a download from this one misses the object instead of the
bucket. -/
structure Hollows (c : Config) (s s' : Store) (bucket : Value) : Prop where
  buckets : s'.buckets = s.buckets ++ [(bucket, [])]
  inspected : ∀ q, inspect s' q = inspect s q
  others : ∀ b k : String, bucket ≠ .text b → answerGet c s' b k = answerGet c s b k
  before : ∀ b k : String, bucket = .text b →
    answerGet c s b k = complain (Fault.bucketNotFound? (.text b))
  after : ∀ b k : String, bucket = .text b →
    answerGet c s' b k = complain (Fault.objectNotFound? (.text b) (.text k))

theorem bucket?_create {store : Store} {bucket : Value} (missing : store.bucket? bucket = none)
    (b : String) :
    (store.create bucket).bucket? (.text b) =
      if bucket.same (.text b) then some [] else store.bucket? (.text b) := by
  cases same : bucket.same (.text b) with
  | true =>
      obtain rfl := Value.same_text.mp same
      rw [if_pos rfl, Store.bucket?_create_self, missing, Option.getD_none]
  | false =>
      rw [if_neg Bool.false_ne_true, Store.create, missing]
      simp [Store.bucket?, List.find?_append, same]

theorem hollows_create (c : Config) {store : Store} {bucket : Value}
    (missing : store.bucket? bucket = none) : Hollows c store (store.create bucket) bucket where
  buckets := by rw [Store.create, missing]
  inspected q := by
    cases q with
    | holds b k | keys b =>
        simp only [inspect, Store.get?, Store.keys, bucket?_create missing]
        split
        next same =>
          rw [← Value.same_text.mp same, missing]
          rfl
        next => rfl
  others b k apart := by
    have apart : bucket.same (.text b) ≠ true := fun same => apart (Value.same_text.mp same)
    simp only [answerGet]
    rw [bucket?_create missing, if_neg apart]
  before b k here := by
    simp only [answerGet]
    rw [← here, missing]
  after b k here := by
    simp only [answerGet]
    rw [bucket?_create missing, if_pos (Value.same_text.mpr here)]
    rfl

/-! ## Refusals -/

/-- Whether in this turn a handler fails, sends an error, or learns that the client aborted. -/
inductive Refuses (turn : HandlerTurn (plugin c)) : Prop where
  | fails {v} : turn.act = .fail v → Refuses turn
  | complains {v next} : turn.act = .call (.fail v) next → Refuses turn
  | aborted {t v} : turn.state = .receiving t → turn.outcome = .error v → Refuses turn

/-- Whether an upload of these requests creates a bucket and then fails: they are for an object in a
bucket that is missing, and their chunks cannot be joined. -/
structure Spoils (c : Config) (s : Store) (requests : List Value) (bucket : Value)
    (f : Fault) : Prop where
  creates : c.createsBuckets = true
  missing : s.bucket? bucket = none
  intake : ∃ (t : Intake) (key : Value), t.Takes requests ∧ t.failure = none ∧
    t.target = some (bucket, key)
  unjoined : joinChunks? (requests.map (·.member "fileChunk")) = .error f

/-- A handler that decides on an upload leaves what is stored as it is, or it spoils it and fails,
or it responds. -/
theorem Intake.Takes.conclude_cases {t : Intake} (takes : t.Takes requests) (c : Config)
    (store : Store) :
    (conclude c store t).1 = store ∨
    (∃ bucket f, Spoils c store requests bucket f ∧
      conclude c store t = (store.create bucket, .fail (.fault f))) ∨
    ∃ v, (conclude c store t).2 = .call (.respond v) .ending := by
  fun_cases conclude c store t with
  | case1 | case2 | case3 => exact .inl rfl
  | case4 bucket key target sound admits created f unjoined =>
      rw [(takes.whole sound).1] at unjoined
      cases found : store.bucket? bucket with
      | some os =>
          have same : created = store := by
            simp only [created, Store.create]
            rw [found]
          exact .inl same
      | none =>
          refine .inr (.inl ⟨bucket, f, ⟨?_, found, ⟨t, key, takes, sound, target⟩, unjoined⟩, rfl⟩)
          simpa [found] using admits
  | case5 => exact .inr (.inr ⟨_, rfl⟩)

theorem Refuses.stops (refuses : Refuses turn) (reachable : s.Reachable) (mem : turn ∈ s.turns)
    (kind : s.kindOf turn.stream = .upload) :
    ∃ t, turn.state = .receiving t ∧ ∀ t', (step c turn.shared (.receiving t) turn.outcome).2 ≠
        .call .receive (.receiving t') := by
  have serves := turn_serves reachable mem
  have ending := outcome_of_ending reachable mem kind
  rw [kind] at serves
  obtain ⟨j, d, o, shared⟩ := turn
  dsimp only at serves ending ⊢
  cases serves with
  | receiving =>
      refine ⟨_, rfl, fun t' act => ?_⟩
      cases refuses with
      | fails fails => exact nomatch act.symm.trans fails
      | complains complains => exact nomatch act.symm.trans complains
      | aborted _ aborted =>
          obtain rfl := aborted
          exact nomatch act
  | put =>
      cases refuses with
      | fails fails => exact nomatch fails
      | complains complains => exact nomatch complains
      | aborted state => exact nomatch state
  | ending =>
      obtain ⟨v, rfl⟩ := ending rfl
      cases refuses with
      | fails fails => exact nomatch fails
      | complains complains => exact nomatch complains
      | aborted state => exact nomatch state
  | finished =>
      cases refuses with
      | fails fails => exact nomatch fails
      | complains complains => exact nomatch complains
      | aborted state => exact nomatch state

/-- The other turns on an upload that is refused leave what is stored as it is, and the turn that
refuses it does so unless it spoils it. -/
theorem Refuses.untouched (refuses : Refuses turn) (reachable : s.Reachable) (mem : turn ∈ s.turns)
    (kind : s.kindOf turn.stream = .upload) :
    ∃ later earlier, s.turns = later ++ turn :: earlier ∧ Untouched (later ++ earlier) turn.stream ∧
      (turn.left = turn.shared ∨ ∃ requests bucket f,
        s.heard ⟨turn.stream, .requests⟩ = requests.map .ok ++ [.ok .eof] ∧
        Spoils c turn.shared requests bucket f ∧ turn.act = .fail (.fault f) ∧
        turn.left = turn.shared.create bucket) := by
  obtain ⟨t, state, stops⟩ := refuses.stops reachable mem kind
  obtain ⟨requests, takes, past⟩ := past_of_stops reachable mem kind state stops
  by_cases decides : Decides turn
  · obtain ⟨later, earlier, same, others⟩ := decides_once reachable mem decides
    refine ⟨later, earlier, same,
      fun other mem stream => left_of_not_decides (others other mem stream), ?_⟩
    have heard := decides.outcome ▸ past.heard
    have concluded : (plugin c).step turn.shared turn.state turn.outcome =
        conclude c turn.shared t := by
      rw [state, decides.outcome]
      rfl
    rcases takes.conclude_cases c turn.shared with same | ⟨bucket, f, spoils, same⟩ | ⟨v, act⟩
    · exact .inl ((congrArg Prod.fst concluded).trans same)
    · have after := concluded.trans same
      exact .inr
        ⟨requests, bucket, f, heard, spoils, congrArg Prod.snd after, congrArg Prod.fst after⟩
    · have act : turn.act = .call (.respond v) .ending := (congrArg Prod.snd concluded).trans act
      cases refuses with
      | fails fails => exact nomatch act.symm.trans fails
      | complains complains => exact nomatch act.symm.trans complains
      | aborted _ aborted => exact nomatch decides.outcome.symm.trans aborted
  · -- Nobody else decides, for the upload did not come to its end.
    obtain ⟨later, earlier, same⟩ := List.append_of_mem mem
    refine ⟨later, earlier, same, fun other inside stream => ?_, .inl (left_of_not_decides decides)⟩
    refine left_of_not_decides fun again => ?_
    have inside : other ∈ s.turns := by
      rw [same]
      rcases List.mem_append.mp inside with later | earlier
      · exact List.mem_append_left _ later
      · exact List.mem_append_right _ (List.mem_cons_of_mem _ earlier)
    obtain ⟨t', state'⟩ := again.state
    obtain ⟨requests', -, past'⟩ :=
      concluded reachable inside (stream ▸ kind) state' again.outcome
    rw [stream] at past'
    have ends := List.append_inj_right' (past.heard.symm.trans past'.heard) rfl
    exact decides ⟨⟨t, state⟩, (List.cons.inj ends).1⟩

/-- What is stored does not depend on turns that leave it as it is. -/
theorem Traces.without {store : Store} (traces : Traces turns store)
    (untouched : Untouched turns i) : Traces (turns.filter (·.stream ≠ i)) store := by
  induction traces with
  | nothing => exact .nothing
  | @turn turn earlier traces ih =>
      have before := ih fun other mem => untouched other (List.mem_cons_of_mem _ mem)
      by_cases stream : turn.stream = i
      · rw [List.filter_cons_of_neg (by simp [stream]), untouched turn List.mem_cons_self stream]
        exact before
      · rw [List.filter_cons_of_pos (by simp [stream])]
        exact .turn before

end Loopback

namespace Exchange

open Loopback

variable {c : Config} {x : Exchange (Loopback.plugin c)}
  {turns : List (HandlerTurn (Loopback.plugin c))}

/-- An upload that is refused leaves what is stored as if it had never been, or it leaves an empty
bucket there that was created for an object whose chunks cannot be joined. -/
theorem refused_uploads (history : History Command.Hosted (.empty (Loopback.plugin c)) x turns)
    {turn : HandlerTurn (Loopback.plugin c)} (mem : turn ∈ turns)
    (kind : x.kindOf turn.stream = .upload) (refuses : Refuses turn) :
    Traces turns x.shared ∧
      (Untouched turns turn.stream ∧ Traces (turns.filter (·.stream ≠ turn.stream)) x.shared ∨
      ∃ later earlier requests bucket f, turns = later ++ turn :: earlier ∧
        Untouched (later ++ earlier) turn.stream ∧
        x.heard ⟨turn.stream, .requests⟩ = requests.map .ok ++ [.ok .eof] ∧
        Spoils c turn.shared requests bucket f ∧ turn.act = .fail (.fault f) ∧
        Hollows c turn.shared turn.left bucket) := by
  have reachable := history.reachable
  have traced : Traces turns x.shared := Loopback.traces reachable
  have kind := (kindOf_scene x turns turn.stream).trans kind
  obtain ⟨later, earlier, same, others, left⟩ := refuses.untouched reachable mem kind
  have same : turns = later ++ turn :: earlier := same
  refine ⟨traced, ?_⟩
  rcases left with left | ⟨requests, bucket, f, heard, spoils, act, left⟩
  · have untouched : Untouched turns turn.stream := by
      intro other inside stream
      rw [same, List.mem_append, List.mem_cons] at inside
      rcases inside with inside | rfl | inside
      · exact others other (List.mem_append_left _ inside) stream
      · exact left
      · exact others other (List.mem_append_right _ inside) stream
    exact .inl ⟨untouched, traced.without untouched⟩
  · refine .inr ⟨later, earlier, requests, bucket, f, same, others, ?_, spoils, act, ?_⟩
    · exact (heard_scene x _ turns).symm.trans heard
    · exact left ▸ hollows_create c spoils.missing

/-- A client sends one request for an object in a missing bucket, without a chunk. -/
def chunkless : Exchange (Loopback.plugin .default) :=
  ((((empty _).command (.call (.plugin (.openUpload "u")))).advance 4).command
    (.call (.plugin (.method "u"
      (.send (.object [("bucket", .text "b"), ("key", .text "k")])))))).advance 9

/-- It awaits the response. -/
def hollowed : Exchange (Loopback.plugin .default) :=
  (chunkless.command (.call (.plugin (.method "u" .awaitResponse)))).advance 56

theorem hollowed_refused : hollowed.isQuiet = true ∧
    ∃ turn : HandlerTurn (Loopback.plugin .default),
    Refuses turn ∧ turn.left = hollowed.shared ∧
    Hollows .default turn.shared hollowed.shared (.text "b") := by
  have run : Run Command.Hosted (.empty _) chunkless :=
    (((Move.command rfl trivial).run.trans (run_advance 4 _)).step (.command rfl trivial)).trans
      (run_advance _ _)
  obtain ⟨before, first⟩ := run.history
  have asked :=
    first.step (.command (c := .call (.plugin (.method "u" .awaitResponse))) rfl trivial)
  have history : History Command.Hosted (.empty _) hollowed _ := asked.trans (history_advance 56 _)
  obtain ⟨turn, latest, ⟨v, act⟩, stream, empty, left⟩ : ∃ turn,
      (turnsOver 56 (chunkless.command (.call (.plugin (.method "u" .awaitResponse))))).head? =
        some turn ∧
      (∃ v, turn.act = .fail v) ∧ turn.stream = 0 ∧ turn.shared = ⟨[]⟩ ∧
      turn.left = hollowed.shared :=
    ⟨_, rfl, ⟨_, rfl⟩, rfl, rfl, rfl⟩
  have stored : hollowed.shared = ⟨[(.text "b", [])]⟩ := rfl
  have mem :=
    List.mem_append_left (chunkless.handlerTurn?.toList ++ before) (List.mem_of_head? latest)
  obtain ⟨-, clean | ⟨_, _, _, bucket, _, -, -, -, -, -, hollows⟩⟩ :=
    refused_uploads history mem (stream ▸ rfl) (.fails act)
  · have same := clean.1 turn mem rfl
    rw [left, empty, stored] at same
    exact nomatch congrArg Store.buckets same
  · have buckets := hollows.buckets
    rw [left, empty, stored] at buckets
    obtain rfl : bucket = .text "b" := (congrArg Prod.fst (List.cons.inj buckets).1).symm
    exact ⟨rfl, turn, .fails act, left, left ▸ hollows⟩

end Exchange

end ObjectTransfer
