import ObjectTransfer.Channel
import ObjectTransfer.Settlement

/-! # Numbered calls on one channel

A caller who makes several calls at once tells them apart by number. `ChannelCalls.perform` makes
one call and records which calls settled because of it, the new one among them or not.
-/

namespace ObjectTransfer

inductive ChannelCall where
  | send (item : Value)
  | receive
  | close

/-- A channel whose parked parties are call numbers, with the calls made and settled so far. -/
structure ChannelCalls where
  channel : Channel Value Nat Nat
  /-- How many calls were made; the next call has this number. -/
  count : Nat
  /-- The calls that settled, the latest first. -/
  settled : List (Nat × Settlement)

namespace ChannelCalls

def fresh : ChannelCalls := ⟨.idle, 0, []⟩

def settle (n : Nat) (s : Settlement) (c : ChannelCalls) : ChannelCalls :=
  { c with settled := (n, s) :: c.settled }

def perform (c : ChannelCalls) (call : ChannelCall) : ChannelCalls :=
  let n := c.count
  let c := { c with count := n + 1 }
  match call with
  | .send item =>
    let (channel, sent) := c.channel.send item n
    let c := { c with channel }
    match sent with
    | .parked => c
    | .taken r => (c.settle r (.fulfilled item)).settle n (.fulfilled .undefined)
    | .refused => c.settle n (.rejected (.fault .streamClosed))
  | .receive =>
    let (channel, received) := c.channel.receive n
    let c := { c with channel }
    match received with
    | .parked => c
    | .took item s => (c.settle s (.fulfilled .undefined)).settle n (.fulfilled item)
    | .ended => c.settle n (.fulfilled .eof)
  | .close =>
    match c.channel.close? with
    | none => c.settle n (.threw (.fault .closedTwice))
    | some (receivers, senders) =>
      let c := { c with channel := .closed }
      let c := receivers.foldl (fun c r => c.settle r (.fulfilled .eof)) c
      let c := senders.foldl (fun c s => c.settle s (.rejected (.fault .streamClosed))) c
      c.settle n (.returned (.number (.whole senders.length)))

def performAll (c : ChannelCalls) (calls : List ChannelCall) : ChannelCalls :=
  calls.foldl perform c

/-- The calls that settled after an earlier state of the same channel, by their numbers. -/
def settledSince (c earlier : ChannelCalls) : List (Nat × Settlement) :=
  (c.settled.take (c.settled.length - earlier.settled.length)).mergeSort fun a b => a.1 ≤ b.1

/-- The calls that have not settled, by their numbers. -/
def pending (c : ChannelCalls) : List Nat :=
  (List.range c.count).filter fun n => !c.settled.any (·.1 == n)

end ChannelCalls

end ObjectTransfer
