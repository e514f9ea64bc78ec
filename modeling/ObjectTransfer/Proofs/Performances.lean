import ObjectTransfer.Proofs.Failures
import ObjectTransfer.Proofs.Playbacks
import ObjectTransfer.Proofs.Writers

/-! # Methods that the service of a download performs

While one call alone reads a download whose handler follows a program (`Fetch.Directed`), the stream
stands as a playback says (`Scene.At`) until the service of the stream sends or closes
(`Fetch.Directed.stays`). A method that the service performs makes of the stream what the playback
makes of it (`Stage.Performs.step`).
-/

namespace ObjectTransfer

variable {P : Plugin}

/-! ## The service of a download -/

namespace Scene

/-- Whether what passed on a download, and whether it is closed, is what a playback says. -/
structure At (s : Scene P) (i : StreamId) (p : Playback) : Prop where
  passed : s.passed ⟨i, .responses⟩ = p.messages
  closed : s.closed ⟨i, .responses⟩ = p.ended

variable {s s' : Scene P} {h : HalfId} {i : StreamId}

theorem Step.shuts (step : Step s s') (lt : h.stream < s.kinds.length) (isOpen : s.closed h = false)
    (closed : s'.closed h = true) : ∃ th ∈ s.threads, ∃ next, th.stage = .closing h next := by
  cases step with
  | @close h' next fs w rest threads =>
      by_cases same : h = h'
      · exact ⟨⟨.closing h' next, fs, w⟩, threads ▸ Multiset.mem_cons_self _ _, next, same ▸ rfl⟩
      · have before := (Function.update_of_ne same ..).symm.trans closed
        exact nomatch isOpen.symm.trans before
  | opening =>
      have before := (if_neg (Nat.ne_of_lt lt)).symm.trans closed
      exact nomatch isOpen.symm.trans before
  | solo | start | handle | meet | gate | strike | count | notice | call =>
      exact nomatch isOpen.symm.trans closed

end Scene

namespace Fetch

variable {s s' : Scene P} {d : Fetch} {program : Program} {th : Thread P}

/-- A download that one call alone reads while its handler follows a program. -/
structure Directed (s : Scene P) (d : Fetch) (program : Program) : Prop where
  reachable : s.Reachable
  lt : d.stream < s.kinds.length
  kind : s.kindOf d.stream = .download
  sole : d.Sole s
  known : Event.Uses s.events d.call d.stream → d.Known s
  directs : program.Directs (s.turnsOf d.stream)

namespace Directed

theorem unforked (directed : d.Directed s program) : s.Unforked d.stream := by
  intro turn mem stream
  exact directed.directs.not_forks (Scene.mem_turnsOf.mpr ⟨mem, stream⟩)

theorem before (directed : d.Directed s' program) (reachable : s.Reachable)
    (lt : d.stream < s.kinds.length) (step : Scene.Step s s') : d.Directed s program where
  reachable := reachable
  lt := lt
  kind := (step.later.kindOf lt).symm.trans directed.kind
  sole := directed.sole.before step.later
  known uses := (directed.known (uses.later step.later.events)).before directed.reachable.orderly
    step.later reachable.orderly uses
  directs := by
    obtain ⟨ts, turns⟩ := step.later.turnsOf d.stream
    exact Program.Directs.earlier (turns ▸ directed.directs)

/-- Only its service closes a download, unless a failure passed. -/
theorem closer (directed : d.Directed s program) (mem : th ∈ s.threads)
    (closes : th.stage.Closes d.half) :
    th.owner = .service d.stream ∨ ∃ f, .handed d.half (.failure f) ∈ s.events := by
  obtain ⟨-, owner | beside | ⟨n, m, named, uses, -⟩⟩ :=
    (directed.reachable.cast th mem).closer closes
  · exact .inl owner
  · exact absurd beside (directed.reachable.not_beside directed.unforked th mem)
  obtain rfl := directed.sole n uses
  cases account directed.reachable (directed.known uses) directed.sole with
  | reading mem' =>
      obtain rfl := directed.reachable.owned.eq mem mem' named rfl
      rcases reader_receives directed.reachable.cast directed.kind mem with stage | receives
      · rw [thread, stage] at closes
        exact closes.elim
      · exact .inr (receives.closes closes).2
  | finished finished =>
      have stage := congrArg Thread.stage (finished.threads th mem named)
      rw [stage] at closes
      exact closes.elim

end Directed

end Fetch

/-- Whether a stage neither offers a message to the client of a stream nor is about to close its
half. -/
def Stage.Spares (i : StreamId) (st : Stage) : Prop :=
  (∀ m terminal, st ≠ .offering ⟨i, .responses⟩ m terminal) ∧
  ∀ next, st ≠ .closing ⟨i, .responses⟩ next

namespace Fetch.Directed

variable {s s' : Scene P} {d : Fetch} {program : Program} {p : Playback} {th : Thread P}

theorem stays_open (directed : d.Directed s program) (stands : s.At d.stream p)
    (isOpen : p.ended = false)
    (still : ∀ th ∈ s.threads, th.owner = .service d.stream →
      ∀ next, th.stage ≠ .closing d.half next)
    (step : Scene.Step s s') : s'.closed d.half = false := by
  rw [← Bool.not_eq_true]
  intro closed
  obtain ⟨th, mem, next, stage⟩ := step.shuts directed.lt (stands.closed.trans isOpen) closed
  have closes : th.stage.Closes d.half := by
    rw [stage]
    exact .inl rfl
  rcases directed.closer mem closes with owner | ⟨f, handed⟩
  · exact still th mem owner next stage
  · have inside : Message.failure f ∈ s.passed d.half := Scene.mem_passed.mpr handed
    rw [half, stands.passed, Playback.messages_of_open isOpen] at inside
    simp at inside

/-- While its service neither sends nor closes it, a download stands as it does. -/
theorem stays (directed : d.Directed s program) (stands : s.At d.stream p)
    (spares : ∀ th ∈ s.threads, th.owner = .service d.stream → th.stage.Spares d.stream)
    (step : Scene.Step s s') : s'.At d.stream p := by
  constructor
  · rw [← stands.passed]
    exact step.passed_of_silent directed.reachable directed.unforked fun th mem owner =>
      (spares th mem owner).1
  · cases ended : p.ended with
    | true => exact step.later.closed _ directed.lt (stands.closed.trans ended)
    | false =>
        exact directed.stays_open stands ended (fun th mem owner => (spares th mem owner).2) step

theorem stays_of_service (directed : d.Directed s program) (stands : s.At d.stream p)
    (mem : th ∈ s.threads) (owner : th.owner = .service d.stream)
    (spares : th.stage.Spares d.stream) (step : Scene.Step s s') : s'.At d.stream p :=
  directed.stays stands (fun _ mem' owner' =>
    directed.reachable.owned.eq_service mem mem' owner owner' ▸ spares) step

end Fetch.Directed

/-! ## Methods of the server of a download -/

/-- What the methods of the server of a download leave to do: nothing, or something on the half of
the responses, which a failure ends and a payload does not. -/
def Entry.Streams : Entry → Prop
  | .sends side m terminal _ => side = .responses ∧ (terminal = true ↔ ∃ f, m = .failure f)
  | .closes side => side = .responses
  | .receives _ | .closesOpen _ | .closesAndReceives => False
  | _ => True

theorem Method.entry_streams (m : Method) : (m.entry .download .server).Streams := by
  have payload {v} : (Entry.ofPayload .responses "res" false false v).Streams := by
    unfold Entry.ofPayload
    split
    · trivial
    · exact ⟨rfl, by simp⟩
  have error {v} : (Entry.ofError .responses Entry.errorParameter false v).Streams := by
    cases v with
    | fault f => exact ⟨rfl, by simp⟩
    | _ => trivial
  cases m with
  | send => exact payload
  | fail => exact error
  | sendRaw v =>
      change (Entry.ofRaw ..).Streams
      unfold Entry.ofRaw
      split
      · trivial
      · split
        · exact payload
        · exact error
        · split <;> trivial
  | close => rfl
  | _ => trivial

/-- The stages of the service of a download in a method of its server that was called when the
stream stood so. -/
inductive Stage.Performs (s : Scene P) (i : StreamId) (p : Playback) (m : Method) :
    Stage → Prop where
  | entering : s.At i p → Performs s i p m (.entering i .server m)
  | offering {message terminal relayed} :
    m.entry .download .server = .sends .responses message terminal relayed → p.ended = false →
    s.At i p → Performs s i p m (.offering ⟨i, .responses⟩ message terminal)
  | closing : (p.after (m.entry .download .server)).ended = true →
    s.passed ⟨i, .responses⟩ = (p.after (m.entry .download .server)).messages →
    Performs s i p m (.closing ⟨i, .responses⟩ (.bound (p.answer (m.entry .download .server))))

/-- A method that is entered is performed, or it is over at once. -/
theorem Stage.Performs.enter {s : Scene P} {i : StreamId} {p : Playback} {m : Method}
    (stands : s.At i p) :
    ((m.entry .download .server).stage s.closed i).Performs s i p m ∨
      (m.entry .download .server).stage s.closed i = .bound (p.answer (m.entry .download .server)) ∧
        s.At i (p.after (m.entry .download .server)) := by
  have streams := m.entry_streams
  generalize same : m.entry .download .server = e at streams
  cases e with
  | sends side message terminal relayed =>
      obtain ⟨rfl, -⟩ := streams
      cases ended : p.ended with
      | true =>
          have closed : s.closed ⟨i, .responses⟩ = true := stands.closed.trans ended
          refine .inr ⟨?_, (Playback.after_of_ended ended _).symm ▸ stands⟩
          rw [Entry.stage, if_pos closed, Playback.answer, if_pos ended]
      | false =>
          have isOpen : s.closed ⟨i, .responses⟩ = false := stands.closed.trans ended
          refine .inl ?_
          rw [Entry.stage, isOpen]
          exact .offering same ended stands
  | closes side =>
      obtain rfl : side = .responses := streams
      have performs := Stage.Performs.closing (s := s) (i := i) (p := p) (m := m)
      rw [same] at performs
      exact .inl
        (performs (Playback.ended_stop _) (stands.passed.trans Playback.messages_stop_closed.symm))
  | receives | closesOpen | closesAndReceives => exact streams.elim
  | returns | throws | fulfils | rejects => exact .inr ⟨rfl, stands⟩

theorem Stage.Performs.taken {s s' : Scene P} {i : StreamId} {p : Playback} {m : Method}
    {message terminal relayed}
    (entry : m.entry .download .server = .sends .responses message terminal relayed)
    (isOpen : p.ended = false) (stands : s.At i p) (stillOpen : s'.closed ⟨i, .responses⟩ = false)
    (passed : s'.passed ⟨i, .responses⟩ = s.passed ⟨i, .responses⟩ ++ [message]) :
    (Stage.sent ⟨i, .responses⟩ terminal true).Performs s' i p m ∨
      .sent ⟨i, .responses⟩ terminal true = Stage.bound (p.answer (m.entry .download .server)) ∧
        s'.At i (p.after (m.entry .download .server)) := by
  obtain ⟨-, final⟩ := entry ▸ m.entry_streams
  rw [stands.passed] at passed
  cases message with
  | payload v =>
      obtain rfl : terminal = false := by simpa using final
      refine .inr ⟨?_, ?_⟩
      · rw [entry, Playback.answer, isOpen]
        rfl
      · rw [entry]
        refine ⟨passed.trans (Playback.messages_send isOpen v).symm, ?_⟩
        exact stillOpen.trans (Playback.ended_send_of_open isOpen v).symm
  | failure f =>
      obtain rfl : terminal = true := by simpa using final
      have performs := Stage.Performs.closing (s := s') (i := i) (p := p) (m := m)
      rw [entry, Playback.answer, isOpen] at performs
      have final := Playback.messages_stop isOpen (.failed f)
      exact .inl (performs (Playback.ended_stop _) (passed.trans final.symm))

/-- A service that performs a method goes on with it until it is over. -/
theorem Stage.Performs.step {s s' : Scene P} {d : Fetch} {program : Program} {p : Playback}
    {m : Method} {th : Thread P} (performs : th.stage.Performs s d.stream p m)
    (directed : d.Directed s program) (mem : th ∈ s.threads) (owner : th.owner = .service d.stream)
    (step : Scene.Step s s') {es ts ths} (becomes : Scene.Becomes s s' es ts th ths)
    (events : s'.events = es ++ s.events) :
    ∃ st, ths = [{ th with stage := st }] ∧ (st.Performs s' d.stream p m ∨
      st = .bound (p.answer (m.entry .download .server)) ∧
        s'.At d.stream (p.after (m.entry .download .server))) := by
  obtain ⟨st, fs, w⟩ := th
  cases performs with
  | entering stands =>
      have stands := directed.stays_of_service stands mem owner ⟨nofun, nofun⟩ step
      rcases becomes.cases events with ⟨st, rfl, goes⟩ | turns
      · refine ⟨st, rfl, ?_⟩
        cases goes with
        | enter =>
            rw [step.later.kindOf directed.lt, directed.kind]
            exact Stage.Performs.enter stands
        | stay | release | gate => exact .inl (.entering stands)
      · cases turns
  | @offering message terminal relayed entry isOpen stands =>
      have only : ∀ other ∈ s.threads, ∀ m terminal,
          other.stage = .offering ⟨d.stream, .responses⟩ m terminal →
          other.owner.name? = some (.inr d.stream) := by
        intro other inside m terminal offers
        rw [(directed.reachable.voice directed.unforked inside offers).1]
        rfl
      have stillOpen : s'.closed d.half = false := by
        refine directed.stays_open stands isOpen (fun other inside owner' next => ?_) step
        obtain rfl := directed.reachable.owned.eq_service mem inside owner owner'
        exact nofun
      have closed : s'.closed d.half = p.ended := stillOpen.trans isOpen.symm
      rcases becomes.speaker events directed.reachable.owned (owner ▸ rfl) only nofun with
        ⟨st, rfl, goes, passed, untaken⟩ | ⟨m', terminal', stage, rfl, passed⟩ | ⟨turns, -⟩
      · refine ⟨st, rfl, .inl ?_⟩
        have stands : s'.At d.stream p := ⟨passed.trans stands.passed, closed⟩
        cases goes with
        | stay | gate => exact .offering entry isOpen stands
        | taken => exact absurd rfl (untaken _ _ rfl)
        | @release h _ shut =>
            have other : d.half ≠ h := by
              rintro rfl
              exact nomatch stillOpen.symm.trans shut
            have stays : (Stage.offering d.half message terminal).release h =
              .offering d.half message terminal := if_neg other
            rw [Fetch.half] at stays
            rw [stays]
            exact .offering entry isOpen stands
      · cases stage
        exact ⟨_, rfl, Stage.Performs.taken entry isOpen stands stillOpen passed⟩
      · cases turns
  | closing ended passed =>
      have same : s'.passed ⟨d.stream, .responses⟩ = s.passed ⟨d.stream, .responses⟩ := by
        refine step.passed_of_silent directed.reachable directed.unforked
          fun other inside owner' => ?_
        obtain rfl := directed.reachable.owned.eq_service mem inside owner owner'
        exact nofun
      have passed := same.trans passed
      rcases becomes.cases events with ⟨st, rfl, goes⟩ | turns
      · refine ⟨st, rfl, ?_⟩
        cases goes with
        | shut closed => exact .inr ⟨rfl, passed, closed.trans ended.symm⟩
        | stay | release | gate => exact .inl (.closing ended passed)
      · cases turns

end ObjectTransfer
