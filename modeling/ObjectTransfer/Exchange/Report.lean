import ObjectTransfer.Exchange.Step

/-! # Turns and what they show

A turn makes some commands one after another, with nothing in between, and then lets the exchange go
on until it is quiet. Its report says what could be noticed meanwhile.
-/

namespace ObjectTransfer

/-- What a turn showed. -/
structure TurnReport where
  /-- The calls that settled, by their numbers. -/
  calls : List (Nat × Settlement)
  /-- The tags of the listeners that were called, with the arguments, in order. -/
  heard : List (String × Value)
  /-- What each handler did, in order. -/
  deeds : List (String × List (String × Value))
  /-- The sources that ended, by their numbers. -/
  sources : List Nat
  /-- The log lines, sorted by text. -/
  logs : List Log

namespace Log

def faultMessage (l : Log) : String :=
  match l.value with
  | some (.fault f) => f.message
  | _ => ""

/-- The order of log lines: by text, then by the message of the error. -/
def le (a b : Log) : Bool :=
  if a.text = b.text then Utf16.le a.faultMessage b.faultMessage else Utf16.le a.text b.text

end Log

namespace TurnReport

/-- Deeds in order, as one list for each handler. -/
def groupDeeds (deeds : List (String × String × Value)) : List (String × List (String × Value)) :=
  let handlers := (deeds.map (·.1)).eraseDups
  handlers.map fun name => (name, (deeds.filter (·.1 == name)).map (·.2))

def ofEvents (events : List Event) : TurnReport where
  calls :=
    (events.filterMap fun
      | .settled n s => some (n, s)
      | _ => none).mergeSort fun a b => a.1 ≤ b.1
  heard := events.filterMap fun
    | .heard tag v => some (tag, v)
    | _ => none
  deeds := groupDeeds (events.filterMap fun
    | .did handler deed v => some (handler, deed, v)
    | _ => none)
  sources :=
    (events.filterMap fun
      | .sourceEnded n => some n
      | _ => none).mergeSort fun a b => a ≤ b
  logs :=
    (events.filterMap fun
      | .logged l => some l
      | _ => none).mergeSort Log.le

end TurnReport

namespace Exchange

variable {P : Plugin}

/-- A turn. Each command's immediate work is done before the next command; the first argument bounds
the steps of everything that follows from a command or from the turn. -/
def turn (patience : Nat) (commands : List Command) (x : Exchange P) : Exchange P :=
  (commands.foldl (fun x c => (x.command c).clear patience) x).advance patience

def eventsSince (x earlier : Exchange P) : List Event :=
  (x.journal.take (x.journal.length - earlier.journal.length)).reverse

def pending (x : Exchange P) : List Nat :=
  let settled := x.journal.filterMap fun
    | .settled n _ => some n
    | _ => none
  (List.range x.calls).filter fun n => !settled.contains n

def report (patience : Nat) (commands : List Command) (x : Exchange P) :
    Exchange P × TurnReport :=
  let after := x.turn patience commands
  (after, .ofEvents (after.eventsSince x))

/-! ## Where exchanges begin -/

/-- An exchange over one stream that serves no call. -/
def ofStream (kind : StreamKind) : Exchange .idle :=
  (empty .idle).openStream (.fresh .idle kind)

/-- An exchange over a guard alone: a half that performs actions as it closes. -/
def ofGuard (label : String) (actions : List Action) : Exchange .idle :=
  let half : Half .idle := { Half.fresh .idle label with closing := .actions actions }
  (empty .idle).openStream ⟨.download, .shut .idle, half⟩

end Exchange

end ObjectTransfer
