import Mathlib.Logic.Relation
import ObjectTransfer.Proofs.Thread

/-! # Scenes

A scene is what an exchange looks like when the order in which its tasks wait is forgotten: the
threads, which halves are closed, and what happened. `Scene.Step` says all that can happen to it,
one thread at a time, so what holds of a scene after every step is shown by the cases of one thread.

A scene also remembers the turns of the handlers, of which the journal shows nothing.
-/

namespace ObjectTransfer

variable {P : Plugin}

/-- A moment in which a handler goes on. -/
structure HandlerTurn (P : Plugin) where
  stream : StreamId
  state : P.Local
  /-- The outcome of what the handler waited for. -/
  outcome : Outcome
  /-- What the handlers share before the turn. -/
  shared : P.Shared

structure Scene (P : Plugin) where
  kinds : List StreamKind
  closed : HalfId → Bool
  threads : Multiset (Thread P)
  gates : String → Option Outcome
  shared : P.Shared
  clients : List (String × StreamId)
  active : List StreamId
  countdowns : List (Nat × Listener)
  /-- What is attached to the closure of a half that is open. -/
  hooks : HalfId → List Hook
  /-- What is still to be called because of closures. -/
  pending : Multiset Hook
  calls : Nat
  sources : Nat
  /-- What happened apart from log lines, the latest first. -/
  events : List Event
  /-- The turns of handlers, the latest first. -/
  turns : List (HandlerTurn P)

def Event.isLogged : Event → Bool
  | logged _ => true
  | _ => false

/-- The handler that is about to go on. -/
def Exchange.handlerTurn? (x : Exchange P) : Option (HandlerTurn P) :=
  match x.agenda with
  | .run (.returned o ⟨.handling i state :: _, _⟩) :: _ => some ⟨i, state, o, x.shared⟩
  | _ => none

/-- An exchange as a scene, after these turns of handlers. -/
def Exchange.scene (x : Exchange P) (turns : List (HandlerTurn P)) : Scene P where
  kinds := x.streams.map (·.kind)
  closed h := (x.half h).closed
  threads := x.threads
  gates := x.gates.outcome?
  shared := x.shared
  clients := x.clients
  active := x.active
  countdowns := x.countdowns
  hooks h := if (x.half h).closed then [] else (x.half h).hooks
  pending := ↑(x.agenda.flatMap Work.hooks) + ↑(x.ready.flatMap Wake.hooks)
  calls := x.calls
  sources := x.sources
  events := x.journal.filter (!·.isLogged)
  turns

/-! ## What a thread comes to -/

/-- The stage of a thread that did what the entry of a method leaves to do at once. -/
def Entry.stage (closed : HalfId → Bool) (i : StreamId) : Entry → Stage
  | returns v => .bound (.ok v)
  | throws f => .bound (.error (.fault f))
  | fulfils v => .bound (.ok v)
  | rejects f => .bound (.error (.fault f))
  | receives side => .asking ⟨i, side⟩
  | sends side m terminal _ =>
    if closed ⟨i, side⟩ then .bound (.error (.fault .streamClosed))
    else .offering ⟨i, side⟩ m terminal
  | closes side => .closing ⟨i, side⟩ (.bound (.ok .undefined))
  | closesOpen side =>
    if closed ⟨i, side⟩ then .bound (.error (.fault .streamClosed))
    else .closing ⟨i, side⟩ (.bound (.ok .undefined))
  | closesAndReceives => .closing ⟨i, .requests⟩ (.asking ⟨i, .responses⟩)

/-- The stage of a service that closes what its handler left open. -/
def Stage.finishing (i : StreamId) (o : Outcome) : Stage :=
  .closing ⟨i, .requests⟩ (.closing ⟨i, .responses⟩ (.bound o))

/-- The thread of a reader after a receive. -/
def Reading.Next.thread (i : StreamId) (frames : List (Frame P)) (owner : Owner) :
    Reading.Next → Thread P
  | again r => ⟨.entering i .client .receive, .reading i r :: frames, owner⟩
  | done o => ⟨.bound o, frames, owner⟩

/-- The thread of a writer after its turn. -/
def Writing.Turn.thread (gates : String → Option Outcome) (i : StreamId) (source : Nat)
    (frames : List (Frame P)) (owner : Owner) (turn : Writing.Turn) : Thread P :=
  match turn.next with
  | .rests => ⟨.bound (.ok .undefined), .writing i source turn.state :: frames, owner⟩
  | .waits gate => ⟨.ofGates gates [gate], .writing i source turn.state :: frames, owner⟩
  | .calls m => ⟨.entering i .client m, .writing i source turn.state :: frames, owner⟩
  | .done o => ⟨.bound o, frames, owner⟩

/-- The event of what a writer remarked, unless it is a log line. -/
def Writing.Remark.event? (source : Nat) : Writing.Remark → Option Event
  | pulled => some (.pulled source)
  | sourceEnded => some (.sourceEnded source)
  | logged _ => none

/-- The thread of a service after its handler ended. -/
def Thread.served (i : StreamId) (frames : List (Frame P)) (owner : Owner) (o : Outcome) :
    Thread P :=
  match o with
  | .ok _ => ⟨.finishing i (.ok .undefined), frames, owner⟩
  | .error v =>
    if v.isStreamClosed then ⟨.finishing i (.ok .undefined), frames, owner⟩
    else
      match v.toFault? with
      | .ok f => ⟨.closing ⟨i, .requests⟩ (.delivering i f), .delivering i :: frames, owner⟩
      | .error f => ⟨.finishing i (.error (.fault f)), frames, owner⟩

def Act.threads (gates : String → Option Outcome) (i : StreamId) (frames : List (Frame P))
    (owner : Owner) : Act P.Local → List (Thread P)
  | call m next => [⟨.entering i .server m, .handling i next :: frames, owner⟩]
  | wait gate next => [⟨.ofGates gates [gate], .handling i next :: frames, owner⟩]
  | rest next => [⟨.bound (.ok .undefined), .handling i next :: frames, owner⟩]
  | fork child next =>
    [⟨.bound (.ok .undefined), [.handling i child], .nobody⟩,
      ⟨.bound (.ok .undefined), .handling i next :: frames, owner⟩]
  | did _ _ _ next => [⟨.bound (.ok .undefined), .handling i next :: frames, owner⟩]
  | log _ next => [⟨.bound (.ok .undefined), .handling i next :: frames, owner⟩]
  | succeed => [⟨.bound (.ok .undefined), frames, owner⟩]
  | fail v => [⟨.bound (.error v), frames, owner⟩]
  | refuse v => [⟨.bound (.error v), frames, owner⟩]

def Act.events {σ : Type} : Act σ → List Event
  | did handler deed v _ => [.did handler deed v]
  | _ => []

theorem Act.eq_did {σ : Type} {act : Act σ} {e : Event} (mem : e ∈ act.events) :
    ∃ handler deed v, e = .did handler deed v := by
  cases act with
  | did handler deed v => exact ⟨handler, deed, v, List.mem_singleton.mp mem⟩
  | _ => exact absurd mem List.not_mem_nil

def Owner.events (o : Outcome) : Owner → List Event
  | call n => [.settled n (.ofPromise o)]
  | plain n => [.settled n (.ofPlain o)]
  | _ => []

namespace Scene

def kindOf (s : Scene P) (i : StreamId) : StreamKind := (s.kinds[i]?).getD .download

/-- What a thread does alone: the threads in its place and what happens, the latest first. -/
inductive Solo (kindOf : StreamId → StreamKind) (closed : HalfId → Bool)
    (gates : String → Option Outcome) : Thread P → List (Thread P) → List Event → Prop where
  /-- A receive comes to its outcome. -/
  | received {h m fs w} :
    Solo kindOf closed gates ⟨.received h m, fs, w⟩ [⟨.afterReceipt h m, fs, w⟩]
    [.received h (Stage.receipt m)]
  /-- A half that was closed before need not be closed. -/
  | pass {h next fs w} :
    closed h = true → Solo kindOf closed gates ⟨.closing h next, fs, w⟩ [⟨next, fs, w⟩] []
  | want {h fs w} : closed h = false →
      Solo kindOf closed gates ⟨.asking h, fs, w⟩ [⟨.wanting h, fs, w⟩] []
  | ended {h fs w} : closed h = true →
      Solo kindOf closed gates ⟨.asking h, fs, w⟩ [⟨.received h none, fs, w⟩] []
  | enter {i role m fs w} :
    Solo kindOf closed gates ⟨.entering i role m, fs, w⟩
      [⟨(m.entry (kindOf i) role).stage closed i, fs, w⟩] []
  /-- A failure need not be delivered over a half that is closed. -/
  | undelivered {i f fs w} :
    closed ⟨i, .responses⟩ = true →
      Solo kindOf closed gates ⟨.delivering i f, fs, w⟩ [⟨.bound (.ok .undefined), fs, w⟩] []
  | deliver {i f fs w} :
    closed ⟨i, .responses⟩ = false →
      Solo kindOf closed gates ⟨.delivering i f, fs, w⟩
      [⟨.entering i .server (.fail (.fault f)), fs, w⟩] []
  | read {o i r fs w} :
    Solo kindOf closed gates ⟨.bound o, .reading i r :: fs, w⟩ [(r.resume o).thread i fs w] []
  | write {o i k v fs w} :
    Solo kindOf closed gates ⟨.bound o, .writing i k v :: fs, w⟩
      [(v.resume o).thread gates i k fs w] ((v.resume o).remarks.filterMap (·.event? k)).reverse
  | serve {o i fs w} :
      Solo kindOf closed gates ⟨.bound o, .serving i :: fs, w⟩ [.served i fs w o] []
  | delivered {o i fs w} :
    Solo kindOf closed gates ⟨.bound o, .delivering i :: fs, w⟩ [⟨.finishing i o, fs, w⟩] []
  | follow {o gate fs w} :
    Solo kindOf closed gates ⟨.bound o, .following gate :: fs, w⟩
    [⟨.ofGates gates [gate], fs, w⟩] []
  /-- The owner of a task learns its outcome. -/
  | settle {o w} : Solo kindOf closed gates ⟨.bound o, [], w⟩ [] (w.events o)

/-! ## Calls on the plugin -/

def opens? : PluginCall → Option (StreamKind × Invocation)
  | .read bucket key => some (.download, .get bucket key)
  | .write _ _ _ => some (.upload, .put)
  | .openDownload _ bucket key => some (.download, .get bucket key)
  | .openUpload _ => some (.upload, .put)
  | _ => none

def keptClient? (s : Scene P) (name : String) : Option StreamId :=
  (s.clients.find? (·.1 == name)).map (·.2)

/-- The thread of a call when it starts. -/
def firstThread (s : Scene P) : PluginCall → Thread P
  | .read _ _ =>
    ⟨.entering s.kinds.length .client .receive, [.reading s.kinds.length .start], .call s.calls⟩
  | .write bucket key source =>
    ⟨.bound (.ok .undefined),
      [.writing s.kinds.length (s.sources + 1) (.start bucket key source)], .call s.calls⟩
  | .openDownload _ _ _ => ⟨.bound (.ok .undefined), [], .plain s.calls⟩
  | .openUpload _ => ⟨.bound (.ok .undefined), [], .plain s.calls⟩
  | .method name m =>
    match s.keptClient? name with
    | some i =>
      ⟨.entering i .client m, [],
        if (m.entry (s.kindOf i) .client).isPlain then .plain s.calls else .call s.calls⟩
    | none => ⟨.bound (Exchange.noClient m), [], .plain s.calls⟩
  | .readKept name =>
    match s.keptClient? name with
    | some i => ⟨.entering i .client .receive, [.reading i .start], .call s.calls⟩
    | none => ⟨.bound (Exchange.noClient .receive), [], .call s.calls⟩
  | .holds bucket key =>
    ⟨.bound (.ok (P.inspect s.shared (.holds bucket key))), [], .plain s.calls⟩
  | .keys bucket => ⟨.bound (.ok (P.inspect s.shared (.keys bucket))), [], .plain s.calls⟩

/-- The scene after a call started, without the stream that it opens. -/
def begin (s : Scene P) (c : PluginCall) : Scene P :=
  { s with
    threads := s.firstThread c ::ₘ s.threads
    clients :=
      match c with
      | .openDownload name _ _ => (name, s.kinds.length) :: s.clients
      | .openUpload name => (name, s.kinds.length) :: s.clients
      | _ => s.clients
    calls := s.calls + 1
    sources :=
      match c with
      | .write _ _ _ => s.sources + 1
      | _ => s.sources
    events := .called s.calls (.plugin c) :: s.events }

/-- The scene with another stream, opened by the call of this number. -/
def openStream (s : Scene P) (n : Nat) (kind : StreamKind) : Scene P :=
  { s with
    kinds := s.kinds ++ [kind]
    closed := fun h =>
      if h.stream = s.kinds.length then ((Stream.fresh P kind).half h.side).closed
      else s.closed h
    active := s.active ++ [s.kinds.length]
    countdowns :=
      match kind with
      | .download => s.countdowns
      | .upload => s.countdowns ++ [(2, .forget s.kinds.length)]
    hooks := fun h =>
      if h.stream = s.kinds.length then
        match kind, h.side with
        | .download, .requests => []
        | .download, .responses => [.direct (.forget s.kinds.length)]
        | .upload, _ => [.half s.countdowns.length]
      else s.hooks h
    events := .opened n s.kinds.length :: s.events }

def firstService (s : Scene P) (invocation : Invocation) : Thread P :=
  ⟨.starting s.kinds.length invocation, [.serving s.kinds.length], .service s.kinds.length⟩

/-- The scene after a call started that opens a stream. -/
def opened (s : Scene P) (c : PluginCall) (kind : StreamKind) (invocation : Invocation) :
    Scene P :=
  { (s.begin c).openStream s.calls kind with
    threads := s.firstService invocation ::ₘ (s.begin c).threads }

section Opened

variable {s : Scene P} {c : PluginCall} {kind : StreamKind} {invocation : Invocation} {i : StreamId}

theorem length_opened : (s.opened c kind invocation).kinds.length = s.kinds.length + 1 :=
  List.length_append

theorem lt_opened : i < (s.opened c kind invocation).kinds.length ↔
    i < s.kinds.length ∨ i = s.kinds.length := by
  rw [length_opened, Nat.lt_succ_iff_lt_or_eq]

theorem kindOf_opened : (s.opened c kind invocation).kindOf s.kinds.length = kind := by
  simp [Scene.kindOf, opened, openStream, begin]

theorem kindOf_opened_of_lt (lt : i < s.kinds.length) :
    (s.opened c kind invocation).kindOf i = s.kindOf i := by
  have kinds : (s.opened c kind invocation).kinds = s.kinds ++ [kind] := rfl
  rw [Scene.kindOf, Scene.kindOf, kinds, List.getElem?_append_left lt]

end Opened

/-! ## Steps -/

inductive Step : Scene P → Scene P → Prop where
  /-- A thread does something alone. -/
  | solo {s : Scene P} {th ths es rest} :
    s.threads = th ::ₘ rest → Solo s.kindOf s.closed s.gates th ths es →
    Step s { s with threads := ↑ths + rest, events := es ++ s.events }
  /-- A handler is started. -/
  | start {s : Scene P} {i invocation rest} :
    s.threads = ⟨.starting i invocation, [.serving i], .service i⟩ ::ₘ rest →
    Step s { s with
      threads :=
        ⟨.bound (.ok .undefined), [.handling i (P.invoke s.shared invocation).2, .serving i],
          .service i⟩ ::ₘ rest
      shared := (P.invoke s.shared invocation).1 }
  /-- A handler goes on. -/
  | handle {s : Scene P} {o i state fs w rest} :
    s.threads = ⟨.bound o, .handling i state :: fs, w⟩ ::ₘ rest →
    Step s { s with
      threads := ↑((P.step s.shared state o).2.threads s.gates i fs w) + rest
      shared := (P.step s.shared state o).1
      events := (P.step s.shared state o).2.events ++ s.events
      turns := ⟨i, state, o, s.shared⟩ :: s.turns }
  /-- A half is closed. -/
  | close {s : Scene P} {h next fs w rest} :
    s.threads = ⟨.closing h next, fs, w⟩ ::ₘ rest → s.closed h = false →
    Step s { s with
      threads := ⟨next, fs, w⟩ ::ₘ rest.map (·.move (.release h))
      closed := Function.update s.closed h true
      hooks := Function.update s.hooks h []
      pending := ↑(s.hooks h) + s.pending
      events := .closed h :: s.events }
  /-- A message passes from its sender to a receiver. -/
  | meet {s : Scene P} {h m terminal fs w fs' w' rest} :
    s.threads = ⟨.wanting h, fs, w⟩ ::ₘ ⟨.offering h m terminal, fs', w'⟩ ::ₘ rest →
    s.closed h = false →
    Step s { s with
      threads := ⟨.received h (some m), fs, w⟩ ::ₘ ⟨.sent h terminal true, fs', w'⟩ ::ₘ rest
      events := .handed h m :: s.events }
  /-- A gate is settled. -/
  | gate {s : Scene P} {name o} : s.gates name = none →
    Step s { s with
      gates := Function.update s.gates name (some o)
      threads := s.threads.map (·.move (.afterGate name o)) }
  /-- A download is struck off the active streams. -/
  | strike {s : Scene P} {i rest} : s.pending = .direct (.forget i) ::ₘ rest →
    Step s { s with active := s.active.erase i, pending := rest }
  /-- One half fewer is waited for; after the last one an upload is struck off the active streams.
  -/
  | count {s : Scene P} {n k i rest} :
    s.pending = .half n ::ₘ rest → s.countdowns[n]? = some (k, .forget i) →
    Step s { s with
      active := if k = 1 then s.active.erase i else s.active
      countdowns := s.countdowns.set n (k - 1, .forget i)
      pending := rest }
  /-- All that was attached to the closure of a half was called. -/
  | notice {s : Scene P} {label} :
    Step s { s with threads := ⟨.bound (.ok .undefined), [], .notice label⟩ ::ₘ s.threads }
  /-- A call on the plugin starts. -/
  | call {s : Scene P} {c} : opens? c = none → Step s (s.begin c)
  /-- A call on the plugin opens a stream. -/
  | opening {s : Scene P} {c kind invocation} : opens? c = some (kind, invocation) →
    Step s (s.opened c kind invocation)

abbrev Steps : Scene P → Scene P → Prop := Relation.ReflTransGen Step

def empty (P : Plugin) : Scene P := (Exchange.empty P).scene []

def Reachable (s : Scene P) : Prop := Steps (empty P) s

end Scene

end ObjectTransfer
