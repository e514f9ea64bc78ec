import ObjectTransfer.Emitter
import ObjectTransfer.Event
import ObjectTransfer.Exchange.Work

/-! # The state of an exchange

An exchange is everything that is under way between a host and a plugin: the streams with their
halves, the tasks that wait somewhere, and the work to do at once.

A task that can go on is in the list of ready tasks. Work that must be done before any of them is in
the agenda, the next piece in front.
-/

namespace ObjectTransfer

/-! ## Gates -/

/-- Gates are named; the first settlement of a gate counts. -/
structure Gates (P : Plugin) where
  settled : List (String × Outcome)
  /-- Tasks that wait for all of some gates. -/
  waiting : List (List String × Task P)

namespace Gates

variable {P : Plugin}

def empty : Gates P := ⟨[], []⟩

def outcome? (g : Gates P) (name : String) : Option Outcome :=
  (g.settled.find? (·.1 == name)).map (·.2)

end Gates

/-! ## Exchanges -/

structure Exchange (P : Plugin) where
  streams : List (Stream P)
  /-- The streams of calls to the plugin that are not yet fully closed. -/
  active : List StreamId
  /-- For each listener that waits for two halves: how many are still open, and the listener. -/
  countdowns : List (Nat × Listener)
  /-- The clients that are kept under names, the latest first. -/
  clients : List (String × StreamId)
  emitter : Emitter
  gates : Gates P
  /-- What the handlers of the plugin share. -/
  shared : P.Shared
  /-- How many calls were made. -/
  calls : Nat
  /-- How many sources were given. -/
  sources : Nat
  /-- The tasks that can go on, the one that waits longest in front. -/
  ready : List (Wake P)
  /-- The work to do at once, the next piece in front. -/
  agenda : List (Work P)
  /-- What happened, the latest first. -/
  journal : List Event

namespace Exchange

variable {P : Plugin}

def empty (P : Plugin) : Exchange P :=
  ⟨[], [], [], [], .empty, .empty, P.initial, 0, 0, [], [], []⟩

/-- A half; one that does not exist counts as closed. -/
def half (x : Exchange P) (h : HalfId) : Half P :=
  ((x.streams[h.stream]?).map (·.half h.side)).getD (.shut P)

def kindOf (x : Exchange P) (i : StreamId) : StreamKind :=
  ((x.streams[i]?).map (·.kind)).getD .download

/-- How log lines name the service of a stream. -/
def serviceLabel (x : Exchange P) (i : StreamId) : String :=
  ((x.streams[i]?).map (·.serviceLabel)).getD ""

def modifyHalf (x : Exchange P) (h : HalfId) (f : Half P → Half P) : Exchange P :=
  { x with streams := x.streams.modify h.stream (·.modify h.side f) }

def push (w : Work P) (x : Exchange P) : Exchange P :=
  { x with agenda := w :: x.agenda }

/-- Let a task go on later, after those that are ready. -/
def wake (w : Wake P) (x : Exchange P) : Exchange P :=
  { x with ready := x.ready ++ [w] }

def record (e : Event) (x : Exchange P) : Exchange P :=
  { x with journal := e :: x.journal }

def log (level : LogLevel) (text : String) (value : Option Value) (x : Exchange P) : Exchange P :=
  x.record (.logged ⟨level, text, value⟩)

/-- Nothing can go on before something happens outside. -/
def isQuiet (x : Exchange P) : Bool :=
  x.agenda.isEmpty && x.ready.isEmpty

end Exchange

end ObjectTransfer
