import ObjectTransfer.Proofs.Failures
import ObjectTransfer.Proofs.Outflows
import ObjectTransfer.Proofs.Receipts

/-! # Snapshots

What is stored under a key is what one upload brought, the last that ended well, and what a download
hands out are pieces of what was stored when it was asked for. A call that reads it alone and
resolves gives all of that, whatever is stored in the meantime (`Exchange.keeps_and_delivers`).
-/

namespace ObjectTransfer

theorem eq_of_append_replicate {α : Type} {mark : α} {xs ys : List α} {m n : Nat}
    (same : xs ++ List.replicate m mark = ys ++ List.replicate n mark) (unmarked : mark ∉ xs)
    (unmarked' : mark ∉ ys) : xs = ys := by
  have nothing {more : List α} {k l : Nat}
      (ends : List.replicate k mark = more ++ List.replicate l mark)
      (free : mark ∉ more) : more = [] := by
    obtain ⟨-, marks, -⟩ := List.append_eq_replicate_iff.mp ends.symm
    rw [marks] at free
    cases length : more.length with
    | zero => exact List.length_eq_zero_iff.mp length
    | succ => simp [length] at free
  rcases List.append_eq_append_iff.mp same with ⟨more, rfl, ends⟩ | ⟨more, rfl, ends⟩
  · rw [nothing ends fun mem => unmarked' (List.mem_append_right _ mem), List.append_nil]
  · rw [nothing ends fun mem => unmarked (List.mem_append_right _ mem), List.append_nil]

theorem eq_of_map_ok {ε α : Type} {xs ys : List α}
    (same : xs.map (Except.ok : α → Except ε α) = ys.map .ok) : xs = ys :=
  List.map_injective_iff.mpr (fun _ _ same => Except.ok.inj same) same

/-- A reader that noted the end marker received all that passed. -/
theorem Fetch.heard_all {P : Plugin} {s : Scene P} {d : Fetch} {r : Reading} {payloads : List Value}
    {o : Outcome} (gathered : r.Gathered payloads)
    (heard : s.heard d.half = payloads.map .ok ++ [.ok .eof])
    (unmarked : .ok .eof ∉ (s.passed d.half).map Message.outcome) (reachable : s.Reachable)
    (lt : d.stream < s.kinds.length) (sole : d.Sole s) (finished : s.Over d.call o) :
    payloads.map .ok = (s.passed d.half).map Message.outcome ∧ s.closed d.half = true := by
  obtain ⟨ends, closes, tally⟩ := heard_of_over reachable lt sole finished
  have more : .ok .eof ∉ payloads.map (.ok : Value → Outcome) := by
    intro mem
    obtain ⟨v, mem, same⟩ := List.mem_map.mp mem
    cases same
    exact gathered.more _ mem rfl
  rw [heard] at tally
  have same := eq_of_append_replicate (m := 1) tally more unmarked
  rw [same] at tally
  have length := congrArg List.length tally
  simp only [List.length_append, List.length_replicate, List.length_singleton] at length
  exact ⟨same, closes (by omega)⟩

namespace Loopback

variable {c : Config} {s s' : Scene (plugin c)} {i : StreamId} {th : Thread (plugin c)}
  {bucket key : String}

/-! ## Uploads -/

/-- Whether these requests are those of an upload: all its chunks, and there were no more. -/
structure AllOf (u : Upload) (gates : String → Option Outcome) (bucket key : String)
    (data : Bytes) : Prop where
  bucket : u.bucket = bucket
  key : u.key = key
  ending : u.source.ending gates = .exhausted
  bytes : ∃ pieces : List Bytes, u.source.yields gates = pieces.map .bytes ∧ data = pieces.flatten

/-- What the requests of a writer brought are all the chunks of its source. -/
theorem Bring.allOf {u : Upload} {requests : List Value} {data : Bytes}
    (bring : Bring requests bucket key data) (reachable : s.Reachable) (known : u.Known s.events)
    (heard : s.heard u.half = requests.map .ok ++ [.ok .eof]) :
    AllOf u s.gates bucket key data := by
  have chunks {o : Outcome} (mem : o ∈ u.outcomes (u.source.yields s.gates)) :
      ∃ chunk, o = .ok (u.request chunk) := by
    obtain ⟨chunk, -, rfl⟩ := List.mem_map.mp mem
    exact ⟨chunk, rfl⟩
  have unmarked : .ok .eof ∉ u.outcomes (u.source.yields s.gates) := fun mem => by
    obtain ⟨chunk, same⟩ := chunks mem
    exact nomatch same
  have more : .ok .eof ∉ requests.map (.ok : Value → Outcome) := fun mem => by
    obtain ⟨v, mem, same⟩ := List.mem_map.mp mem
    cases same
    exact nomatch (bring.named _ mem).1
  rcases u.heard reachable known (unforked s u.stream) with part | ⟨tail, whole, tells⟩
  · refine absurd (part.subset ?_) unmarked
    rw [heard]
    exact List.mem_append_right _ List.mem_cons_self
  rw [heard] at whole
  generalize ending : u.source.ending s.gates = final at tells
  cases tells with
  | @failed v f ends =>
      have mem : .error (.fault f) ∈ requests.map (.ok : Value → Outcome) ++ [.ok .eof] := by
        rw [whole]
        exact List.mem_append_right _ List.mem_cons_self
      simp at mem
  | exhausted =>
      have same := eq_of_append_replicate (m := 1) whole more unmarked
      have requests_eq : requests = (u.source.yields s.gates).map u.request := by
        refine eq_of_map_ok (same.trans ?_)
        rw [List.map_map]
        rfl
      subst requests_eq
      obtain ⟨chunk, mem⟩ := List.exists_mem_of_ne_nil _ bring.some
      obtain ⟨v, inside, rfl⟩ := List.mem_map.mp mem
      obtain ⟨bucket, key⟩ := bring.named _ mem
      refine ⟨Value.text.inj bucket, Value.text.inj key, ending, ?_⟩
      obtain ⟨pieces, chunks, whole⟩ := bring.bytes
      refine ⟨pieces, ?_, whole⟩
      rw [← chunks, List.map_map]
      exact (List.map_id _).symm

/-! ## Downloads -/

/-- Whether these messages are pieces of this content, one after another from its start. -/
def Pieces (passed : List Message) : Option Bytes → Prop
  | some data => ∃ pieces, passed = messages pieces ∧ pieces.flatten <+: data
  | none => ∀ v, .payload v ∉ passed

theorem Flow.pieces {content} (flow : Flow s i content) :
    Pieces (s.passed ⟨i, .responses⟩) content := by
  cases flow with
  | @streaming pieces piece rest st mem inCall passed =>
      rcases Stage.unsent_cases (.payload (chunk piece)) st with sent | unsent
      · rw [sent, List.append_nil] at passed
        exact ⟨_, passed, List.prefix_append _ _⟩
      · rw [unsent, messages_append] at passed
        refine ⟨pieces, List.append_cancel_right passed, ?_⟩
        rw [List.flatten_append, List.append_assoc]
        exact List.prefix_append _ _
  | through through =>
      cases through with
      | closing _ _ passed | ended _ passed => exact ⟨_, passed, List.prefix_rfl⟩
  | complaining _ _ passed =>
      intro v mem
      have mem : Message.payload v ∈ [_] := passed ▸ List.mem_append_left _ mem
      exact nomatch List.mem_singleton.mp mem
  | stopped _ stops =>
      cases stops with
      | cut passed part => exact ⟨_, passed, part⟩
      | failed passed =>
          intro v mem
          rw [passed] at mem
          exact nomatch List.mem_singleton.mp mem
      | refused passed =>
          intro v mem
          exact absurd (passed ▸ mem) List.not_mem_nil

theorem service_of_entering (reachable : s.Reachable) {m fs w}
    (mem : ⟨.entering i .server m, fs, w⟩ ∈ s.threads) : w = .service i := by
  obtain ⟨j, role, m', -, calls, inCall⟩ := (reachable.cast _ mem).calls trivial
  obtain ⟨rfl, rfl, -⟩ := inCall.entered
  cases calls with
  | service owner => exact owner
  | beside frames owner =>
      exact absurd ⟨owner, _, frames⟩ (reachable.not_beside (unforked s i) _ mem)

theorem Flow.of_entering {content} (flow : Flow s i content) (reachable : s.Reachable) {fs w}
    (mem : ⟨.entering i .server .close, fs, w⟩ ∈ s.threads) :
    ∃ data, content = some data ∧ Through s i data := by
  obtain rfl := service_of_entering reachable mem
  have unentered {m} (inCall : (Stage.entering i .server .close).InCall s i .server m) :
      m = .close :=
    inCall.entered.2.2.symm
  cases flow with
  | through through => exact ⟨_, rfl, through⟩
  | streaming mem' inCall | complaining mem' inCall =>
      cases reachable.owned.eq_service mem mem' rfl rfl
      exact nomatch unentered inCall
  | stopped leaves =>
      cases leaves _ mem rfl with
      | finishing =>
          cases reachable.cast _ mem with
          | finishing _ finishes => cases finishes
          | caller _ _ owner => rcases owner with owner | owner <;> exact nomatch owner

variable {d : Fetch} {content : Option Bytes}

/-- Where one call reads, the stream comes to be closed only after a complaint passed, or all that
the handler found. -/
theorem Flow.dooms (flow : Flow s' d.stream content) (reachable : s.Reachable)
    (lt : d.stream < s.kinds.length) (kind : s.kindOf d.stream = .download) (sole : d.Sole s)
    (known : Event.Uses s.events d.call d.stream → d.Known s) (step : Scene.Step s s')
    (undoomed : ¬ s.Doomed d.half) (doomed : s'.Doomed d.half) :
    (∃ f, .handed d.half (.failure f) ∈ s'.events) ∨
      (∃ data, content = some data ∧ Through s' d.stream data) ∨
      ∃ fs w, ⟨.entering d.stream .server .close, fs, w⟩ ∈ s.threads := by
  have reached : s'.Reachable := reachable.tail step
  have isOpen : s'.closed d.half = false := by
    rw [← Bool.not_eq_true]
    exact fun closed => undoomed (step.doomed lt closed)
  obtain closed | ⟨th, inside, closing⟩ := doomed.2
  · exact nomatch isOpen.symm.trans closed
  rcases d.closes reachable sole known kind lt step inside closing with
    doomed | failed | ⟨owner, still⟩ | closes
  · exact absurd doomed undoomed
  · exact .inl failed
  · cases flow with
    | streaming mem | complaining mem =>
        obtain rfl := reached.owned.eq_service inside mem owner rfl
        exact absurd (.inr ⟨_, _, _, rfl⟩) still
    | through through => exact .inr (.inl ⟨_, rfl, through⟩)
    | stopped leaves stops =>
        cases stops with
        | cut _ _ closed | refused _ closed => exact nomatch isOpen.symm.trans closed
        | @failed f passed =>
            have mem : Message.failure f ∈ s'.passed ⟨d.stream, .responses⟩ :=
              passed ▸ List.mem_cons_self
            exact .inl ⟨f, Scene.mem_passed.mp mem⟩
  · exact .inr (.inr closes)

/-- Where one call reads what a handler found, the stream is closed only after a complaint passed,
or all of it. -/
theorem through_of_doomed (reachable : s.Reachable) {turn : HandlerTurn (plugin c)} {later earlier}
    (turns : s.turns = later ++ turn :: earlier) (first : ∀ t ∈ earlier, t.stream ≠ turn.stream)
    (state : turn.state = .get bucket key) (stream : d.stream = turn.stream) (sole : d.Sole s)
    (known : Event.Uses s.events d.call d.stream → d.Known s) (doomed : s.Doomed d.half) :
    (∃ f, .handed d.half (.failure f) ∈ s.events) ∨
      ∃ data, Store.get? turn.shared (.text bucket) (.text key) = some data ∧
        Through s d.stream data := by
  have kind : s.kindOf d.stream = .download :=
    stream ▸ kind_of_get reachable (turns ▸ List.mem_append_right _ List.mem_cons_self) state
  induction reachable generalizing later with
  | refl => exact absurd turns (List.append_ne_nil_of_right_ne_nil _ (List.cons_ne_nil _ _)).symm
  | @tail s s' steps step ih =>
      have reachable : s.Reachable := steps
      have reached : s'.Reachable := steps.tail step
      have ahead := step.later
      have soleBefore := sole.before ahead
      have knownBefore (uses : Event.Uses s.events d.call d.stream) : d.Known s :=
        (known (uses.later ahead.events)).before reached.orderly ahead reachable.orderly uses
      have flow : Flow s' d.stream (Store.get? turn.shared (.text bucket) (.text key)) :=
        stream ▸ Flow.of_turn reached (turns ▸ List.mem_append_right _ List.mem_cons_self) state
      -- The turn was taken before the step, or the step takes it.
      have origin : (∃ later, s.turns = later ++ turn :: earlier) ∨ s.turns = earlier ∧ ∃ fs w,
          ⟨.bound turn.outcome, .handling turn.stream turn.state :: fs, w⟩ ∈ s.threads := by
        rcases step.turns_eq with same | ⟨turn', more, -, fs, w, inside, -⟩
        · exact .inl ⟨later, same.symm.trans turns⟩
        · cases later with
          | nil =>
              obtain ⟨rfl, rfl⟩ := List.cons.inj (more.symm.trans turns)
              exact .inr ⟨rfl, fs, w, inside⟩
          | cons => exact .inl ⟨_, (List.cons.inj (more.symm.trans turns)).2⟩
      rcases origin with ⟨later, turnsBefore⟩ | ⟨rfl, fs, w, inside⟩
      · have mem : turn ∈ s.turns := turnsBefore ▸ List.mem_append_right _ List.mem_cons_self
        have lt : d.stream < s.kinds.length := stream ▸ reachable.turned mem
        have kindBefore := (ahead.kindOf lt).symm.trans kind
        by_cases dooms : s.Doomed d.half
        · rcases ih turnsBefore soleBefore knownBefore dooms kindBefore with
            ⟨f, handed⟩ | ⟨data, found, through⟩
          · exact .inl ⟨f, ahead.mem handed⟩
          · exact .inr ⟨data, found, through.step reachable lt kindBefore step⟩
        · rcases flow.dooms reachable lt kindBefore soleBefore knownBefore step dooms doomed with
            failed | through | ⟨fs, w, closes⟩
          · exact .inl failed
          · exact .inr through
          · have flowBefore := Flow.of_turn reachable mem state
            rw [← stream] at flowBefore
            obtain ⟨data, found, through⟩ := flowBefore.of_entering reachable closes
            exact .inr ⟨data, found, through.step reachable lt kindBefore step⟩
      · rw [← stream] at inside first
        obtain ⟨lt, rfl, rfl, -⟩ := serves reachable inside
        have kindBefore := (ahead.kindOf lt).symm.trans kind
        by_cases dooms : s.Doomed d.half
        · have unclosed : s.Unclosed d.stream := fun t mem same => absurd same (first t mem)
          have attending : s.Attending d.stream :=
            ⟨_, inside, rfl, List.mem_cons_of_mem _ List.mem_cons_self⟩
          obtain ⟨f, handed⟩ :=
            d.failed_of_doomed reachable lt soleBefore knownBefore kindBefore unclosed
            attending dooms
          exact .inl ⟨f, ahead.mem handed⟩
        · rcases flow.dooms reachable lt kindBefore soleBefore knownBefore step dooms doomed with
            failed | through | ⟨fs, w, closes⟩
          · exact .inl failed
          · exact .inr through
          · obtain rfl := service_of_entering reachable closes
            exact nomatch reachable.owned.eq_service inside closes rfl rfl

/-- What a download hands out if its handler finds this content, now or later. -/
structure HandsOut (s : Scene (plugin c)) (i : StreamId) (content : Option Bytes) : Prop where
  pieces : Pieces (s.passed ⟨i, .responses⟩) content
  /-- Where one call reads, the stream is closed only after a complaint passed, or all of it. -/
  whole : ∀ d : Fetch, d.stream = i → d.Known s → d.Sole s → s.closed d.half = true →
    (∃ f, .handed d.half (.failure f) ∈ s.events) ∨
      ∃ pieces, content = some pieces.flatten ∧ s.passed d.half = messages pieces

theorem HandsOut.of_turn (reachable : s.Reachable) {turn : HandlerTurn (plugin c)} {later earlier}
    (turns : s.turns = later ++ turn :: earlier) (first : ∀ t ∈ earlier, t.stream ≠ turn.stream)
    (state : turn.state = .get bucket key) :
    HandsOut s turn.stream (Store.get? turn.shared (.text bucket) (.text key)) where
  pieces :=
    (Flow.of_turn reachable (turns ▸ List.mem_append_right _ List.mem_cons_self) state).pieces
  whole d stream known sole closed := by
    have lt := (reachable.orderly.uses_lt known.uses).2
    rcases through_of_doomed reachable turns first state stream sole (fun _ => known)
      ⟨lt, .inl closed⟩ with
      failed | ⟨data, found, through⟩
    · exact .inl failed
    · cases through with
      | closing _ _ passed | ended _ passed => exact .inr ⟨_, found, passed⟩

/-- A service whose handler is still to look up its object. -/
inductive Waits (i : StreamId) : Thread (plugin c) → Prop where
  | starting {b k} : Waits i ⟨.starting i (.get b k), [.serving i], .service i⟩
  | invited {b k st} : Waits i (thread i (.get b k) st)

theorem Waits.attends (waits : Waits i th) : th.Attends i := by
  cases waits with
  | starting => exact ⟨rfl, List.mem_cons_self⟩
  | invited => exact ⟨rfl, List.mem_cons_of_mem _ List.mem_cons_self⟩

theorem Waits.kind (waits : Waits i th) (reachable : s.Reachable) (mem : th ∈ s.threads) :
    s.kindOf i = .download := by
  cases waits with
  | starting =>
      cases reachable.cast _ mem with
      | starting _ kind => exact kind
  | invited =>
      obtain ⟨-, -, -, serves⟩ := serves reachable mem
      generalize s.kindOf i = kind at serves
      cases serves
      rfl

theorem Waits.not_flow (waits : Waits i th) (reachable : s.Reachable) (mem : th ∈ s.threads) :
    ¬ Flow s i content := by
  intro flow
  have owner := waits.attends.1
  have busy (leaves : ∀ th ∈ s.threads, th.owner = .service i → Leaves i th) : False := by
    cases waits <;> exact nomatch leaves _ mem rfl
  cases flow with
  | streaming mem' | complaining mem' =>
      obtain rfl := reachable.owned.eq_service mem mem' owner rfl
      exact nomatch waits
  | stopped leaves => exact busy leaves
  | through through =>
      cases through with
      | closing mem' =>
          obtain rfl := reachable.owned.eq_service mem mem' owner rfl
          exact nomatch waits
      | ended leaves => exact busy leaves

theorem Waits.unsent (waits : Waits i th) (reachable : s.Reachable) (mem : th ∈ s.threads) :
    s.passed ⟨i, .responses⟩ = [] := by
  have owner := waits.attends.1
  have lt : i < s.kinds.length := (reachable.cast th mem).service_lt (i := i) (by rw [owner]; rfl)
  cases outflowing reachable lt (waits.kind reachable mem) with
  | starting _ passed | invited _ passed => exact passed
  | flowing flow => exact absurd flow (waits.not_flow reachable mem)

theorem HandsOut.of_waits (reachable : s.Reachable) (mem : th ∈ s.threads) (waits : Waits i th)
    (first : ∀ t ∈ s.turns, t.stream ≠ i) : HandsOut s i content := by
  constructor
  · rw [waits.unsent reachable mem]
    cases content with
    | some data => exact ⟨[], rfl, List.nil_prefix⟩
    | none => exact fun _ => List.not_mem_nil
  · rintro d rfl known sole closed
    have lt := (reachable.orderly.uses_lt known.uses).2
    exact .inl (d.failed_of_doomed reachable lt sole (fun _ => known) known.kind
      (fun t mem same => absurd same (first t mem)) ⟨th, mem, waits.attends⟩ ⟨lt, .inl closed⟩)

theorem Pieces.unmarked {passed : List Message} (pieces : Pieces passed content) :
    .ok .eof ∉ passed.map Message.outcome := by
  intro mem
  obtain ⟨m, mem, same⟩ := List.mem_map.mp mem
  cases m with
  | failure => exact nomatch same
  | payload v =>
      cases same
      cases content with
      | none => exact pieces _ mem
      | some data =>
          obtain ⟨pieces, rfl, -⟩ := pieces
          obtain ⟨piece, -, same⟩ := List.mem_map.mp mem
          exact nomatch same

theorem resume_of_pieces {r : Reading} {payloads : List Value} (gathered : r.Gathered payloads)
    {pieces : List Bytes}
    (same : payloads.map .ok = (messages pieces).map Message.outcome) {v : Value}
    (result : r.resume (.ok .eof) = .done (.ok v)) : v = .bytes pieces.flatten := by
  obtain rfl : payloads = pieces.map chunk := by
    refine eq_of_map_ok (same.trans ?_)
    rw [messages, List.map_map, List.map_map]
    rfl
  have chunks : r.chunks.reverse = pieces.map .bytes := by
    refine eq_of_map_ok (gathered.chunks.symm.trans ?_)
    rw [List.map_map, List.map_map]
    rfl
  simp only [Reading.resume] at result
  split at result
  next data joined =>
    cases result
    obtain ⟨pieces', same, rfl⟩ := joinChunks?_ok joined
    obtain rfl : pieces = pieces' :=
      List.map_injective_iff.mpr (fun _ _ same => Value.bytes.inj same) (chunks.symm.trans same)
    rfl
  next => cases result

/-- A call that reads alone and resolves gives all that the handler found. -/
theorem HandsOut.read (hands : HandsOut s d.stream content) (reachable : s.Reachable)
    (known : d.Known s) (sole : d.Sole s) {v : Value}
    (settled : .settled d.call (.fulfilled v) ∈ s.events) :
    ∃ data, content = some data ∧ v = .bytes data := by
  have lt := (reachable.orderly.uses_lt known.uses).2
  cases d.account reachable known sole with
  | reading mem =>
      exact absurd (Scene.mem_names.mpr ⟨_, mem, rfl⟩) (reachable.owned.settled settled).1
  | @finished o finished ended =>
      obtain rfl : o = .ok v := by
        have same := finished.settled _ settled
        cases o with
        | ok => exact congrArg _ (Settlement.fulfilled.inj same).symm
        | error => exact nomatch same
      cases ended with
      | @intro r payloads last gathered heard receives result =>
          cases Reading.resume_ok result
          obtain ⟨same, closed⟩ :=
            Fetch.heard_all gathered heard hands.pieces.unmarked reachable lt sole finished
          rcases hands.whole d rfl known sole closed with ⟨f, handed⟩ | ⟨pieces, found, passed⟩
          · have mem : .error (.fault f) ∈ payloads.map (.ok : Value → Outcome) := by
              rw [same]
              exact List.mem_map_of_mem (Scene.mem_passed.mpr handed)
            simp at mem
          · rw [passed] at same
            exact ⟨_, found, resume_of_pieces gathered same result⟩

/-! ## What is stored -/

/-- What is stored under a bucket and a key, by the turns so far, the latest first: what came on the
stream of the last upload that ended well. If a writer sent it, it is all of its source. -/
inductive Keeps (x : Exchange (plugin c)) (turns : List (HandlerTurn (plugin c)))
    (bucket key : String) : Option Bytes → Prop where
  | nothing : (∀ turn ∈ turns, ∀ t data, ¬ Stores turn bucket key t data) →
      Keeps x turns bucket key none
  | latest {later turn earlier t data requests} : turns = later ++ turn :: earlier →
    Stores turn bucket key t data → (∀ turn' ∈ later, ∀ t data, ¬ Stores turn' bucket key t data) →
    x.heard ⟨turn.stream, .requests⟩ = requests.map .ok ++ [.ok .eof] →
    Bring requests bucket key data →
    (∀ u : Upload, u.stream = turn.stream → .called u.call (.plugin u.pluginCall) ∈ x.journal →
      .opened u.call u.stream ∈ x.journal → AllOf u x.gates.outcome? bucket key data) →
    Keeps x turns bucket key (some data)

theorem LastStored.none_stores {turns : List (HandlerTurn (plugin c))}
    (last : LastStored bucket key turns none) :
    ∀ turn ∈ turns, ∀ t data, ¬ Stores turn bucket key t data := by
  generalize same : none = content at last
  induction last with
  | nothing => exact fun _ mem => absurd mem List.not_mem_nil
  | stores => exact nomatch same
  | keeps apart _ ih =>
      intro turn mem
      rcases List.mem_cons.mp mem with rfl | earlier
      · exact apart
      · exact ih same turn earlier

end Loopback

namespace Exchange

/-- The work on the agenda comes before all else. -/
theorem History.after_work {P : Plugin} {allowed : Command → Prop} {x z : Exchange P} {w rest turns}
    (history : History allowed x z turns) (agenda : x.agenda = w :: rest) :
    (z = x ∧ turns = []) ∨ ∃ turns', History allowed ({ x with agenda := rest }.work w) z turns' ∧
        turns = turns' ++ x.handlerTurn?.toList := by
  induction history with
  | refl => exact .inl ⟨rfl, rfl⟩
  | step _ move ih =>
      rcases ih with ⟨rfl, rfl⟩ | ⟨turns', since, rfl⟩
      · cases move with
        | work agenda' =>
            cases agenda.symm.trans agenda'
            exact .inr ⟨[], .refl, List.append_nil _⟩
        | resume quiet | command quiet => exact nomatch agenda.symm.trans quiet
      · exact .inr ⟨_, since.step move, (List.append_assoc _ _ _).symm⟩

variable {c : Config} {x z : Exchange (Loopback.plugin c)}
  {before after : List (HandlerTurn (Loopback.plugin c))}

theorem shared_openCall {P : Plugin} (n : Nat) (kind : StreamKind) (x : Exchange P) :
    (x.openCall n kind).shared = x.shared :=
  congrArg Scene.shared (scene_openCall n kind x [])

/-- A handler looks up its object as soon as the client asks for it. -/
theorem looks_up {allowed : Command → Prop} {p : PluginCall} {bucket key : String}
    (opens : Scene.opens? p = some (.download, .get bucket key))
    (history : History allowed (x.command (.call (.plugin p))) z after) :
    (∃ later, after = later ++ [⟨x.nextStream, .get bucket key, .ok .undefined, x.shared⟩]) ∨
      after = [] ∧ ∃ th ∈ z.threads, Loopback.Waits x.nextStream th := by
  obtain ⟨rest, agenda, shared⟩ : ∃ rest, (x.command (.call (.plugin p))).agenda =
      .serve x.nextStream (.get bucket key) :: rest ∧ (x.command (.call (.plugin p))).shared =
        x.shared := by
    cases p <;> cases opens <;> exact ⟨_, rfl, shared_openCall _ _ _⟩
  rcases history.after_work agenda with ⟨rfl, rfl⟩ | ⟨later, since, rfl⟩
  · exact .inr
      ⟨rfl, _, mem_threads_agenda (agenda ▸ List.mem_cons_self) List.mem_cons_self, .starting⟩
  have unturned : (x.command (.call (.plugin p))).handlerTurn? = none := by
    rw [handlerTurn?, agenda]
  rw [unturned]
  rcases since.after_work rfl with ⟨rfl, rfl⟩ | ⟨later, since, rfl⟩
  · exact .inr ⟨rfl, _, mem_threads_agenda List.mem_cons_self List.mem_cons_self, .invited⟩
  · refine .inl ⟨later, ?_⟩
    rw [← shared]
    exact List.append_nil _

/-- What is stored is what one upload brought, the last that ended well. What passes after a client
asks for an object are pieces of what was stored when it asked, and a call that reads it alone and
resolves gives all of that, whatever is stored in the meantime. -/
theorem keeps_and_delivers (first : History Command.Hosted (.empty (Loopback.plugin c)) x before) :
    (∀ bucket key : String, Loopback.Keeps x before bucket key
      (Store.get? x.shared (.text bucket) (.text key))) ∧
    (x.agenda = [] → ∀ (p : PluginCall) (bucket key : String),
      Scene.opens? p = some (.download, .get bucket key) →
      ∀ z after, History Command.Hosted (x.command (.call (.plugin p))) z after →
        Loopback.Pieces (z.passed ⟨x.nextStream, .responses⟩)
          (Store.get? x.shared (.text bucket) (.text key)) ∧
        ∀ d : Fetch, d.stream = x.nextStream → d.Known (z.scene (after ++ before)) →
          d.Sole (z.scene (after ++ before)) → ∀ v, .settled d.call (.fulfilled v) ∈ z.journal →
          ∃ data, Store.get? x.shared (.text bucket) (.text key) = some data ∧
          v = .bytes data) := by
  have started := first.reachable
  constructor
  · intro bucket key
    have last := started.lastStored bucket key
    change Loopback.LastStored bucket key before (Store.get? x.shared _ _) at last
    cases content : Store.get? x.shared (.text bucket) (.text key) with
    | none => exact .nothing (content ▸ last).none_stores
    | some data =>
        obtain ⟨later, turn, earlier, t, turns, stores, since⟩ := (content ▸ last).latest
        have mem : turn ∈ (x.scene before).turns :=
          turns ▸ List.mem_append_right _ List.mem_cons_self
        have kind : (x.scene before).kindOf turn.stream = .upload := by
          have serves := Loopback.turn_serves started mem
          rw [stores.state] at serves
          generalize (x.scene before).kindOf turn.stream = kind at serves
          cases serves
          rfl
        obtain ⟨requests, bring, heard⟩ := stores.brought started mem kind
        refine .latest turns stores since ((heard_scene x _ before).symm.trans heard) bring ?_
        rintro u stream called opened
        have known : u.Known (x.scene before).events :=
          ⟨(mem_events rfl before).mpr called, (mem_events rfl before).mpr opened⟩
        exact bring.allOf started known (by rw [Upload.half, stream, heard])
  · intro quiet p bucket key opens z after second
    have history : History Command.Hosted (.empty (Loopback.plugin c)) z (after ++ before) := by
      have asked := first.step (.command (c := .call (.plugin p)) quiet trivial)
      rw [handlerTurn?_of_quiet quiet] at asked
      exact asked.trans second
    have reachable := history.reachable
    have older : ∀ t ∈ before, t.stream ≠ x.nextStream := by
      intro t mem
      have lt := started.turned mem
      rw [length_kinds_scene] at lt
      exact lt.ne
    have hands : Loopback.HandsOut (z.scene (after ++ before)) x.nextStream
        (Store.get? x.shared (.text bucket) (.text key)) := by
      rcases looks_up opens second with ⟨later, rfl⟩ | ⟨rfl, th, mem, waits⟩
      · exact .of_turn reachable (List.append_cons later _ before).symm older rfl
      · exact .of_waits reachable mem waits older
    constructor
    · exact passed_scene z _ _ ▸ hands.pieces
    · rintro d stream known sole v settled
      rw [← stream] at hands
      exact hands.read reachable known sole ((mem_events rfl _).mpr settled)

/-- A loopback storage that sends single bytes, after it stored two. -/
def stored : Exchange (Loopback.plugin ⟨1, [], true, by decide⟩) :=
  ((empty _).command
    (.call (.plugin (.write "b" "k" ⟨false, [.chunk (.bytes [1, 2])]⟩)))).advance 78

/-- Another byte is stored in their place while they are read. -/
def overwritten : Exchange (Loopback.plugin ⟨1, [], true, by decide⟩) :=
  (((stored.command (.call (.plugin (.read "b" "k")))).advance 22).command
    (.call (.plugin (.write "b" "k" ⟨false, [.chunk (.bytes [3])]⟩)))).advance 112

theorem overwritten_read : (∃ turns, Loopback.Keeps stored turns "b" "k" (some [1, 2])) ∧
    Store.get? overwritten.shared (.text "b") (.text "k") = some [3] ∧
    Loopback.Pieces (overwritten.passed ⟨1, .responses⟩) (some [1, 2]) ∧
    .settled 1 (.fulfilled (.bytes [1, 2])) ∈ overwritten.journal ∧
    ∃ data, Store.get? stored.shared (.text "b") (.text "k") = some data ∧ Value.bytes [1, 2] =
      .bytes data := by
  have run : Run Command.Hosted (.empty _) stored :=
    (Move.command rfl trivial).run.trans (run_advance _ _)
  obtain ⟨before, first⟩ := run.history
  have again : Run Command.Hosted (stored.command (.call (.plugin (.read "b" "k")))) overwritten :=
    ((run_advance 22 _).step (.command rfl trivial)).trans (run_advance _ _)
  obtain ⟨after, second⟩ := again.history
  have content : Store.get? stored.shared (.text "b") (.text "k") = some [1, 2] := rfl
  have settled : .settled 1 (.fulfilled (.bytes [1, 2])) ∈ overwritten.journal :=
    List.mem_of_getElem? (i := 8) rfl
  have called : .called 1 (.plugin (.read "b" "k")) ∈ overwritten.journal :=
    List.mem_of_getElem? (i := 20) rfl
  have opened : .opened 1 1 ∈ overwritten.journal := List.mem_of_getElem? (i := 19) rfl
  have kind : overwritten.kindOf 1 = .download := rfl
  rw [← mem_events rfl (after ++ before)] at called opened
  have reachable : (overwritten.scene (after ++ before)).Reachable :=
    ((first.step (.command (c := .call (.plugin (.read "b" "k"))) rfl trivial)).trans
      second).reachable
  have owns : Event.Owns (overwritten.scene (after ++ before)).events 1 1 := ⟨opened, called, rfl⟩
  obtain ⟨keeps, reads⟩ := keeps_and_delivers first
  obtain ⟨pieces, whole⟩ := reads rfl (.read "b" "k") "b" "k" rfl overwritten after second
  refine ⟨⟨before, content ▸ keeps "b" "k"⟩, rfl, content ▸ pieces, settled, ?_⟩
  exact whole ⟨1, 1⟩ rfl ⟨⟨_, called, trivial⟩, .inl owns, (kindOf_scene _ _ _).trans kind⟩
    (.of_owns reachable.orderly owns) _ settled

end Exchange

end ObjectTransfer
