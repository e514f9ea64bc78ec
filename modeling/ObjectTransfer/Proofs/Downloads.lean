import ObjectTransfer.Proofs.Clients

/-! # Downloads from the loopback storage

The handler of a download sends the slices of the object that it found, in order, and then it closes
the stream. Only a call that abandons the download closes it before
(`Loopback.through_or_abandoned`), and then the handler stops with its next send. So what a client
receives are the first of the slices: all of them and then the end marker, unless it abandons the
download (`Exchange.downloads_sliced`).
-/

namespace ObjectTransfer

variable {P : Plugin} {s s' : Scene P}

theorem Event.Abandoned.later {events events' : List Event} {i : StreamId}
    (abandoned : Abandoned events i)
    (later : events <:+ events') : Abandoned events' i := by
  obtain ⟨called, uses⟩ := abandoned
  exact ⟨later.subset called, uses.later later⟩

theorem Scene.Steps.passed (steps : Scene.Steps s s') {h : HalfId} (lt : h.stream < s.kinds.length)
    (closed : s.closed h = true) : s'.passed h = s.passed h := by
  induction steps with
  | refl => rfl
  | @tail t t' steps step ih =>
      have closed := (Scene.Steps.later steps).closed h lt closed
      refine Eq.trans ?_ ih
      obtain ⟨es, events, calm | ⟨h', m, fs, w, terminal, fs', w', rfl, isOpen, -⟩⟩ := step.news
      · exact Scene.passed_eq es events (calm h)
      · refine Scene.passed_eq _ events fun m' mem => ?_
        cases List.mem_singleton.mp mem
        exact nomatch isOpen.symm.trans closed

namespace Loopback

variable {c : Config} {s s' : Scene (plugin c)} {i : StreamId} {th : Thread (plugin c)}
  {data : Bytes}
  {bucket key : String}

/-! ## Why a download is closed -/

/-- While its service does not close a download and no failure passed, only a call closes it that
abandons it. -/
theorem abandoned_step (step : Scene.Step s s') (reachable : s.Reachable) (lt : i < s.kinds.length)
    (kind : s.kindOf i = .download) (mem : th ∈ s.threads) (owner : th.owner = .service i)
    (busy : ∀ next, th.stage ≠ .closing ⟨i, .responses⟩ next)
    (sound : ∀ f, .failure f ∉ s.passed ⟨i, .responses⟩)
    (before : s.closed ⟨i, .responses⟩ = true → Event.Abandoned s.events i)
    (closed : s'.closed ⟨i, .responses⟩ = true) : Event.Abandoned s'.events i := by
  have abandoned : Event.Abandoned s.events i := by
    cases closedBefore : s.closed ⟨i, .responses⟩ with
    | true => exact before closedBefore
    | false =>
        rcases step.closes_down reachable (unforked s i) lt kind closedBefore closed with
          ⟨other, inside, owner', next, stage⟩ | abandoned | ⟨f, handed⟩
        · obtain rfl := reachable.owned.eq_service mem inside owner owner'
          exact absurd stage (busy next)
        · exact abandoned
        · exact absurd (Scene.mem_passed.mpr handed) (sound f)
  exact abandoned.later step.later.events

theorem Waits.abandoned (reachable : s.Reachable) (mem : th ∈ s.threads) (waits : Waits i th)
    (closed : s.closed ⟨i, .responses⟩ = true) : Event.Abandoned s.events i := by
  induction reachable generalizing th with
  | refl => exact absurd mem (Multiset.notMem_zero th)
  | @tail s s' steps step ih =>
      have reachable : s.Reachable := steps
      have reached : s'.Reachable := steps.tail step
      have owner := waits.attends.1
      have lt : i < s'.kinds.length :=
        (reached.cast th mem).service_lt (i := i) (by rw [owner]; rfl)
      rcases step.stream_cases lt (waits.kind reached mem) with
        ⟨old, before⟩ | ⟨rfl, call, invocation, -, rfl⟩
      · have unsent (passed : s.passed ⟨i, .responses⟩ = []) (f : Fault) :
            .failure f ∉ s.passed ⟨i, .responses⟩ := passed ▸ List.not_mem_nil
        cases outflowing reachable old before with
        | starting mem' passed =>
            exact abandoned_step step reachable old before mem' rfl nofun
              (unsent passed) (ih mem' .starting) closed
        | invited mem' passed =>
            exact abandoned_step step reachable old before mem' rfl nofun
              (unsent passed) (ih mem' .invited) closed
        | flowing flow =>
            exact absurd (flow.step reachable old before step) (waits.not_flow reached mem)
      · have isOpen :
            (s.opened call .download invocation).closed ⟨s.kinds.length, .responses⟩ = false :=
          if_pos rfl
        cases isOpen.symm.trans closed

theorem Through.not_streaming (through : Through s i data) (reachable : s.Reachable) {rest st} :
    thread i (.streaming rest) st ∉ s.threads := by
  intro mem
  cases through with
  | closing mem' => exact nomatch reachable.owned.eq_service mem mem' rfl rfl
  | ended leaves => exact nomatch leaves _ mem rfl

theorem Through.passed (through : Through s i data) :
    s.passed ⟨i, .responses⟩ = messages (slices c.chunkSize data) := by
  cases through with
  | closing _ _ passed sliced | ended _ passed sliced => rw [passed, sliced]

theorem outcomes_messages (pieces : List Bytes) :
    (messages pieces).map Message.outcome = pieces.map (.ok ∘ chunk) := by
  rw [messages, List.map_map]
  rfl

theorem Pieces.sound {passed : List Message} (pieces : Pieces passed (some data)) (f : Fault) :
    .failure f ∉ passed := by
  obtain ⟨pieces, rfl, -⟩ := pieces
  intro mem
  obtain ⟨piece, -, same⟩ := List.mem_map.mp mem
  exact nomatch same

/-- A download of an object is closed only after all of it passed, or if a call abandons it. -/
theorem through_or_abandoned (reachable : s.Reachable) {turn : HandlerTurn (plugin c)}
    (mem : turn ∈ s.turns) (state : turn.state = .get bucket key)
    (found : Store.get? turn.shared (.text bucket) (.text key) = some data)
    (closed : s.closed ⟨turn.stream, .responses⟩ = true) :
    Through s turn.stream data ∨ Event.Abandoned s.events turn.stream := by
  induction reachable with
  | refl => exact absurd mem List.not_mem_nil
  | @tail s s' steps step ih =>
      have reachable : s.Reachable := steps
      rcases step.turning mem with old | ⟨-, fs, w, inside, -⟩
      · have lt := reachable.turned old
        have kind := kind_of_get reachable old state
        have flow := Flow.of_turn reachable old state
        rw [found] at flow
        have sound := flow.pieces.sound
        generalize content : some data = found at flow
        cases flow with
        | streaming mem' inCall =>
            refine .inr
              (abandoned_step step reachable lt kind mem' rfl ?_ sound (fun closed => ?_) closed)
            · rintro next rfl
              have hasStage := inCall.resolve_left nofun
              rw [kind] at hasStage
              cases hasStage with
              | sends sends =>
                  cases sends with
                  | closing terminal => exact nomatch terminal
            · exact (ih old closed).resolve_left fun through => through.not_streaming reachable mem'
        | through through =>
            cases content
            exact .inl (through.step reachable lt kind step)
        | complaining => exact nomatch content
        | stopped leaves stops =>
            cases stops with
            | cut _ _ closed =>
                rcases ih old closed with through | abandoned
                · exact .inl (through.step reachable lt kind step)
                · exact .inr (abandoned.later step.later.events)
            | failed | refused => exact nomatch content
      · obtain ⟨i, d, o, shared⟩ := turn
        cases state
        obtain ⟨lt, rfl, rfl, serves⟩ := serves reachable inside
        have waits : Waits i (thread i (.get bucket key) (.bound o) : Thread (plugin c)) := .invited
        have sound (f : Fault) : .failure f ∉ s.passed ⟨i, .responses⟩ :=
          waits.unsent reachable inside ▸ List.not_mem_nil
        exact .inr
          (abandoned_step step reachable lt (waits.kind reachable inside) inside rfl nofun sound
          (waits.abandoned reachable inside) closed)

/-! ## What passes -/

/-- The first slices of an object pass on a download of it, and its handler took no more turns than
it takes to send them and to find out that it is done. -/
theorem Flow.sliced {content} (flow : Flow s i content) (found : content = some data) :
    ∃ j ≤ (slices c.chunkSize data).length,
      s.passed ⟨i, .responses⟩ = messages ((slices c.chunkSize data).take j) ∧
      (s.turnsOf i).length ≤ j + 2 := by
  have first {pieces : List Bytes} (part : pieces <+: slices c.chunkSize data)
      (passed : s.passed ⟨i, .responses⟩ = messages pieces)
      (turned : (s.turnsOf i).length ≤ pieces.length + 2) :
      ∃ j ≤ (slices c.chunkSize data).length,
        s.passed ⟨i, .responses⟩ = messages ((slices c.chunkSize data).take j) ∧
        (s.turnsOf i).length ≤ j + 2 :=
    ⟨pieces.length, part.length_le, List.prefix_iff_eq_take.mp part ▸ passed, turned⟩
  cases flow with
  | @streaming pieces piece rest st mem inCall passed sliced turned =>
      cases found
      rcases Stage.unsent_cases (.payload (chunk piece)) st with sent | unsent
      · rw [sent, List.append_nil] at passed
        refine first ?_ passed ?_
        · exact sliced ▸ List.prefix_append _ _
        · rw [turned, List.length_append, List.length_singleton]
          omega
      · rw [unsent, messages_append] at passed
        refine first ?_ (List.append_cancel_right passed) (by omega)
        rw [sliced, List.append_assoc]
        exact List.prefix_append _ _
  | through through =>
      cases found
      cases through with
      | closing _ _ passed sliced turned | ended _ passed sliced turned =>
          exact first (by rw [sliced]) passed (by omega)
  | complaining => cases found
  | stopped leaves stops =>
      cases stops with
      | cut passed _ _ part turned =>
          cases found
          exact first part passed turned.le
      | failed | refused => cases found

/-- Once nothing can go on, the handler of a download that is open offers the next slice. -/
theorem Flow.offers {content} (flow : Flow s i content) (found : content = some data)
    (reachable : s.Reachable) (calm : s.Quiet) (lt : i < s.kinds.length)
    (kind : s.kindOf i = .download) (isOpen : s.closed ⟨i, .responses⟩ = false) : ∃ piece rest,
      (slices c.chunkSize data)[(s.passed ⟨i, .responses⟩).length]? = some piece ∧
      thread i (.streaming rest) (.offering ⟨i, .responses⟩ (.payload (chunk piece)) false) ∈
        s.threads := by
  have gone (leaves : ∀ th ∈ s.threads, th.owner = .service i → Leaves i th) : False := by
    obtain ⟨th, mem, owner, -⟩ := calm.service reachable lt (.inr isOpen)
    exact (leaves th mem owner).not_parked (reachable.cast th mem) (calm.parked th mem)
  cases flow with
  | @streaming pieces piece rest st mem inCall passed sliced =>
      cases found
      have entry : (Method.send (chunk piece)).entry (s.kindOf i) .server =
          .sends .responses (.payload (chunk piece)) false false := by
        rw [kind]
        rfl
      obtain rfl := Upload.offering_of_parked inCall entry (calm.parked _ mem)
      rw [messages_append] at passed
      have passed : s.passed ⟨i, .responses⟩ = messages pieces := List.append_cancel_right passed
      refine ⟨piece, rest, ?_, mem⟩
      rw [sliced, passed, messages, List.length_map, List.append_assoc]
      simp
  | complaining => cases found
  | stopped leaves => exact (gone leaves).elim
  | through through =>
      cases through with
      | ended leaves => exact (gone leaves).elim
      | closing mem inCall =>
          obtain ⟨m, terminal, stage⟩ :=
            offers_download reachable lt kind mem rfl (calm.parked _ mem)
          cases stage
          rcases inCall with same | hasStage
          · cases same
          · rw [kind] at hasStage
            cases hasStage

end Loopback

/-! ## What the client receives -/

theorem take_append_replicate {α : Type} {noted unnoted xs : List α} {mark : α} {n : Nat}
    (same : noted ++ unnoted = xs ++ List.replicate n mark) :
    noted = xs.take noted.length ++ List.replicate (min (noted.length - xs.length) n) mark := by
  have taken := congrArg (List.take noted.length) same
  rwa [List.take_left, List.take_append, List.take_replicate] at taken

namespace Exchange

open Loopback

variable {c : Config} {x : Exchange (Loopback.plugin c)}
  {turns : List (HandlerTurn (Loopback.plugin c))}
  {i : StreamId} {bucket key : String} {data : Bytes}

/-- How far these pieces of an object went on a download: so many of them passed. -/
structure Passes (x : Exchange (Loopback.plugin c)) (turns : List (HandlerTurn (Loopback.plugin c)))
    (i : StreamId) (pieces : List Bytes) (j : Nat) : Prop where
  within : j ≤ pieces.length
  passed : x.passed ⟨i, .responses⟩ = messages (pieces.take j)
  /-- The handler takes one turn for each piece and two more. -/
  turned : (turns.filter (·.stream = i)).length ≤ j + 2
  closed : (x.half ⟨i, .responses⟩).closed = true →
    j = pieces.length ∨ Event.Abandoned (x.scene turns).events i
  /-- Receives in turn come to the pieces, in order, and then to the end marker. -/
  heard : Event.InTurn (x.scene turns).events i → ∃ k ends, k ≤ j ∧ (x.isQuiet = true → k = j) ∧
    (0 < ends → k = j ∧ (x.half ⟨i, .responses⟩).closed = true) ∧
    x.heard ⟨i, .responses⟩ = (pieces.take k).map (.ok ∘ chunk) ++ List.replicate ends (.ok .eof)
  /-- Nobody waits to receive. -/
  taken : x.isQuiet = true → ∀ fs w, ⟨.wanting ⟨i, .responses⟩, fs, w⟩ ∉ x.threads
  /-- The handler of a stream that is open offers the next piece. -/
  offers : x.isQuiet = true → (x.half ⟨i, .responses⟩).closed = false → ∃ piece rest,
    pieces[j]? = some piece ∧
    thread i (.streaming rest) (.offering ⟨i, .responses⟩ (.payload (chunk piece)) false) ∈
      x.threads
  /-- The handler of a stream that is closed is done. -/
  stops : x.isQuiet = true → (x.half ⟨i, .responses⟩).closed = true →
    ∀ th ∈ x.threads, th.owner ≠ .service i

theorem Passes.of_turn (history : History Command.Hosted (.empty (Loopback.plugin c)) x turns)
    {turn : HandlerTurn (Loopback.plugin c)} (mem : turn ∈ turns)
    (state : turn.state = .get bucket key)
    (found : Store.get? turn.shared (.text bucket) (.text key) = some data) :
    ∃ j, Passes x turns turn.stream (slices c.chunkSize data) j := by
  have reachable := history.reachable
  have lt := reachable.turned mem
  have kind := kind_of_get reachable mem state
  have flow := Flow.of_turn reachable mem state
  obtain ⟨j, within, passed, turned⟩ := flow.sliced found
  have count : ((x.scene turns).passed ⟨turn.stream, .responses⟩).length = j := by
    rw [passed, messages, List.length_map, List.length_take, Nat.min_eq_left within]
  have offers (quiet : x.isQuiet = true)
      (isOpen : (x.half ⟨turn.stream, .responses⟩).closed = false) :=
    count ▸ flow.offers found reachable (quiet_scene quiet turns) lt kind isOpen
  have shut {th : Thread (Loopback.plugin c)} (inside : th ∈ x.threads)
      (parked : th.stage.ParkedAt ⟨turn.stream, .responses⟩)
      (closed : (x.half ⟨turn.stream, .responses⟩).closed = true) : False := by
    cases (open_of_parked history.run inside parked).symm.trans closed
  refine ⟨j, within, (passed_scene x _ turns).symm.trans passed, turned, fun closed => ?_,
    fun inTurn => ?_, fun quiet fs w wants => ?_, offers, fun quiet closed th inside owner => ?_⟩
  · refine (through_or_abandoned reachable mem state found closed).imp_left fun through => ?_
    rw [← count, through.passed, messages, List.length_map]
  · obtain ⟨unnoted, n, gave, ends, tally⟩ := reachable.ledger_down lt kind inTurn
    have length := congrArg List.length tally
    have heard := take_append_replicate tally
    rw [List.length_map, count, passed, outcomes_messages, ← List.map_take, List.take_take] at heard
    rw [List.length_append, List.length_append, List.length_map, count, List.length_replicate]
      at length
    rw [heard_scene] at heard length
    refine ⟨_, _, Nat.min_le_right _ _, fun quiet => ?_, fun some => ?_, heard⟩
    · rw [(quiet_scene quiet turns).given, Multiset.coe_eq_zero] at gave
      rw [gave, List.length_nil] at length
      omega
    · have some : j < (x.heard ⟨turn.stream, .responses⟩).length := by omega
      exact ⟨by omega, (ends (by omega)).1⟩
  · cases closed : (x.half ⟨turn.stream, .responses⟩).closed with
    | true => exact shut wants rfl closed
    | false =>
        obtain ⟨piece, rest, -, offering⟩ := offers quiet closed
        exact not_met wants offering
  · obtain ⟨m, terminal, stage⟩ :=
      offers_download reachable lt kind inside owner ((quiet_scene quiet turns).parked th inside)
    exact shut inside (stage ▸ rfl) closed

/-- An object is cut into as few pieces as fit the chunk size, and its download hands out the first
of them: all, and then the end marker, unless a call abandons the download. After that nothing
passes any more. -/
theorem downloads_sliced (history : History Command.Hosted (.empty (Loopback.plugin c)) x turns)
    {turn : HandlerTurn (Loopback.plugin c)} (mem : turn ∈ turns)
    (state : turn.state = .get bucket key)
    (found : Store.get? turn.shared (.text bucket) (.text key) = some data) :
    ∃ pieces, Cuts c.chunkSize data pieces ∧ (∃ j, Passes x turns turn.stream pieces j) ∧
      ((x.half ⟨turn.stream, .responses⟩).closed = true → ∀ {z after},
        History Command.Hosted x z after →
        z.passed ⟨turn.stream, .responses⟩ = x.passed ⟨turn.stream, .responses⟩) := by
  refine ⟨_, cuts_slices c.chunkSize_pos data, Passes.of_turn history mem state found,
    fun closed z after more => ?_⟩
  have lt := history.reachable.turned mem
  have steps := more.steps (history.run.calm calm_empty) turns
  rw [← passed_scene z _ (after ++ turns), ← passed_scene x _ turns]
  exact steps.passed lt closed

/-- A loopback storage that sends single bytes stores two. -/
def filled : Exchange (Loopback.plugin ⟨1, [], true, Nat.one_pos⟩) :=
  ((empty _).command
    (.call (.plugin (.write "b" "k" ⟨false, [.chunk (.bytes [1, 2])]⟩)))).advance 78

def readied : Exchange (Loopback.plugin ⟨1, [], true, Nat.one_pos⟩) :=
  (filled.command (.call (.plugin (.openDownload "d" "b" "k")))).advance 4

/-- It receives the first of them and abandons the download. -/
def halved : Exchange (Loopback.plugin ⟨1, [], true, Nat.one_pos⟩) :=
  (((readied.command (.call (.plugin (.method "d" .receive)))).advance 9).command
    (.call (.plugin (.method "d" .halfClose)))).advance 25

theorem halved_sliced : halved.isQuiet = true ∧ ∃ pieces turns, Cuts 1 [1, 2] pieces ∧
    pieces.length = 2 ∧
    halved.passed ⟨1, .responses⟩ = messages (pieces.take 1) ∧
    Event.Abandoned (halved.scene turns).events 1 ∧
    ∀ th ∈ halved.threads, th.owner ≠ .service 1 := by
  have run : Run Command.Hosted (.empty _) filled :=
    (Move.command rfl trivial).run.trans (run_advance _ _)
  obtain ⟨before, first⟩ := run.history
  have asked := first.step (.command (c := .call (.plugin (.openDownload "d" "b" "k"))) rfl trivial)
  have opened : History Command.Hosted (.empty _) readied _ := asked.trans (history_advance 4 _)
  have again : Run Command.Hosted readied halved :=
    (((Move.command rfl trivial).run.trans (run_advance 9 _)).step (.command rfl trivial)).trans
    (run_advance _ _)
  obtain ⟨after, second⟩ := again.history
  obtain ⟨turn, latest, state, stream, found⟩ : ∃ turn,
      (turnsOver 4 (filled.command (.call (.plugin (.openDownload "d" "b" "k"))))).head? =
        some turn ∧
      turn.state = .get "b" "k" ∧ turn.stream = 1 ∧
      Store.get? turn.shared (.text "b") (.text "k") = some [1, 2] := ⟨_, rfl, rfl, rfl, rfl⟩
  have mem := List.mem_append_left (filled.handlerTurn?.toList ++ before) (List.mem_of_head? latest)
  obtain ⟨pieces, cuts, ⟨j, passes⟩, -⟩ :=
    downloads_sliced (opened.trans second) (List.mem_append_right after mem) state found
  rw [stream] at passes
  have count : pieces.length = 2 := cuts.count
  have length : (halved.passed ⟨1, .responses⟩).length = 1 := rfl
  obtain rfl : j = 1 := by
    rw [passes.passed, messages, List.length_map, List.length_take, Nat.min_eq_left passes.within]
      at length
    exact length
  refine ⟨rfl, pieces, _, cuts, count, passes.passed, (passes.closed rfl).resolve_left ?_,
    passes.stops rfl rfl⟩
  rw [count]
  decide

end Exchange

end ObjectTransfer
