import ObjectTransfer.Call
import ObjectTransfer.Text.Utf16

/-! # Event registrations

An emitter keeps, for each event, the listeners for every emission and those for the next one, each
in the order of registration. Emissions call the former before the latter.

Listeners with the same tag are the same listener: the one that was mentioned first.

A plain emission and an awaited one do not reach the same listeners. The awaited one calls all that
are registered. The plain one depends on the past of the event as well: on whether it ever had
lasting listeners, and on what was withdrawn last.
-/

namespace ObjectTransfer

/-- The listeners for every emission of an event. -/
inductive Lasting where
  /-- There never was one. -/
  | never
  /-- The listeners that are registered now. Plain emissions pass over them while they are muted,
  which only one alone can be. -/
  | since (listeners : List Listener) (muted : Bool)

/-- The listeners for the next emission of an event. -/
inductive Waiting where
  | none
  /-- One that waits alone. -/
  | one (l : Listener)
  /-- The ones left of several that wait together. -/
  | several (ls : List Listener)

structure Registrations where
  /-- Called at every emission. -/
  lasting : Lasting
  /-- Withdrawn by the plain emission that calls them. -/
  once : Waiting

/-- The registrations of every event, and the listeners known by their tags. -/
structure Emitter where
  events : List (String × Registrations)
  known : List (String × Listener)
  /-- Whether a listener for a next emission was ever registered, for any event. Until then plain
  emissions do not look for such listeners, not even for those that are registered meanwhile. -/
  usesOnce : Bool

namespace Listener

def tag : Listener → String
  | script t _ => t
  | forget _ => ""

end Listener

/-- A list without the last of the listeners of a tag. -/
def Listener.eraseLast (tag : String) (ls : List Listener) : List Listener :=
  (ls.reverse.eraseP (·.tag == tag)).reverse

namespace Lasting

/-- The listeners, in the order in which awaited emissions call them. -/
def listeners : Lasting → List Listener
  | never => []
  | since ls _ => ls

/-- The listeners that plain emissions call. -/
def audible : Lasting → List Listener
  | never => []
  | since ls muted => if muted then [] else ls

def add (r : Lasting) (l : Listener) : Lasting :=
  since (r.listeners ++ [l]) false

/-- The listeners without the latest of a tag. One that is alone is muted, even when another was to
be withdrawn. -/
def withdraw (tag : String) : Lasting → Lasting
  | never => never
  | since ls _ => since (Listener.eraseLast tag ls) (ls.length == 1)

end Lasting

namespace Waiting

/-- The listeners, in the order in which they are called. -/
def listeners : Waiting → List Listener
  | none => []
  | one l => [l]
  | several ls => ls

def add (w : Waiting) (l : Listener) : Waiting :=
  match w with
  | none => one l
  | one k => several [k, l]
  | several ls => several (ls ++ [l])

/-- The listeners without the latest of a tag. One that waits alone is taken for it, whatever its
tag. -/
def withdraw (tag : String) : Waiting → Waiting
  | none => none
  | one _ => none
  | several ls =>
    match Listener.eraseLast tag ls with
    | [] => none
    | left => several left

end Waiting

namespace Registrations

def none : Registrations := ⟨.never, .none⟩

/-- All listeners, in the order in which they are called. -/
def listeners (r : Registrations) : List Listener :=
  r.lasting.listeners ++ r.once.listeners

/-- Whether a plain emission finds a listener. An event that has lost its lasting listeners keeps
plain emissions from those that wait. -/
def isAudible (r : Registrations) : Bool :=
  match r.lasting with
  | .never => !r.once.listeners.isEmpty
  | .since ls _ => !ls.isEmpty

end Registrations

namespace Emitter

def empty : Emitter := ⟨[], [], false⟩

/-- The listener that a tag stands for, from its first mention on. -/
def identify (e : Emitter) (l : Listener) : Emitter × Listener :=
  match e.known.find? (·.1 == l.tag) with
  | some (_, first) => (e, first)
  | none => ({ e with known := e.known ++ [(l.tag, l)] }, l)

def registrations (e : Emitter) (event : String) : Registrations :=
  ((e.events.find? (·.1 == event)).map (·.2)).getD .none

def modify (e : Emitter) (event : String) (f : Registrations → Registrations) : Emitter :=
  if e.events.any (·.1 == event) then
    { e with events := e.events.map fun r => if r.1 == event then (r.1, f r.2) else r }
  else
    { e with events := e.events ++ [(event, f .none)] }

/-- The listeners of an event, in the order in which they are called. -/
def listeners (e : Emitter) (event : String) : List Listener :=
  (e.registrations event).listeners

def subscribe (e : Emitter) (event : String) (l : Listener) : Emitter :=
  let (e, l) := e.identify l
  e.modify event fun r => { r with lasting := r.lasting.add l }

/-- Register a listener for the next emission. -/
def subscribeOnce (e : Emitter) (event : String) (l : Listener) : Emitter :=
  let (e, l) := e.identify l
  { e with usesOnce := true }.modify event fun r => { r with once := r.once.add l }

/-- Withdraw the latest registration of a listener, of either sort. -/
def unsubscribe (e : Emitter) (event : String) (l : Listener) : Emitter :=
  let (e, l) := e.identify l
  e.modify event fun r => ⟨r.lasting.withdraw l.tag, r.once.withdraw l.tag⟩

/-- Withdraw the listeners for the next emission of an event. -/
def clearOnce (e : Emitter) (event : String) : Emitter :=
  e.modify event fun r => { r with once := .none }

/-- The events that have listeners, in their order, and how many. -/
def counts (e : Emitter) : List (String × Nat) :=
  let counted := e.events.map fun r => (r.1, r.2.listeners.length)
  (counted.filter (·.2 != 0)).mergeSort fun a b => Utf16.le a.1 b.1

end Emitter

end ObjectTransfer
