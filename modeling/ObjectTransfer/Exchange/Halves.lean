import ObjectTransfer.Exchange.Outcomes

/-! # Operations on a half

A half is closed through its guard: the first closing marks it closed, closes its channel, which
settles everyone parked there, and calls the listeners. Later closings do nothing.
-/

namespace ObjectTransfer.Exchange

variable {P : Plugin}

def setChannel (h : HalfId) (c : Channel Message (Offer P) (Task P)) (x : Exchange P) :
    Exchange P :=
  x.modifyHalf h fun half => { half with channel := c }

def offer (h : HalfId) (m : Message) (terminal : Bool) (t : Task P) (x : Exchange P) :
    Exchange P :=
  let (channel, sent) := (x.half h).channel.send m ⟨terminal, t⟩
  let x := x.setChannel h channel
  match sent with
  | .parked => x
  | .taken receiver =>
    ((x.record (.handed h m)).wake (.received h (some m) receiver)).wake (.sent h terminal true t)
  | .refused => x.wake (.sent h terminal false t)

def receive (h : HalfId) (t : Task P) (x : Exchange P) : Exchange P :=
  let (channel, received) := (x.half h).channel.receive t
  let x := x.setChannel h channel
  match received with
  | .parked => x
  | .took m sender =>
    ((x.record (.handed h m)).wake (.sent h sender.terminal true sender.task)).wake
      (.received h (some m) t)
  | .ended => x.wake (.received h none t)

/-- The emission that tells the listeners of a half about its closing. -/
def closureEmission (half : Half P) : Emission (Work P) :=
  ⟨none, [], half.hooks, .undefined, .closure half.label⟩

/-- Call the listeners of a half, if there are any, and then do this. -/
def announce (h : HalfId) (next : Work P) (x : Exchange P) : Exchange P :=
  let x := x.push next
  if (x.half h).hooks.isEmpty then x else x.push (.emit (closureEmission (x.half h)))

/-- Close the channel of a half, telling everyone parked there. -/
def closeChannel (h : HalfId) (receivers : List (Task P)) (senders : List (Offer P))
    (x : Exchange P) : Exchange P :=
  let x := x.setChannel h .closed
  let x := { x with
    ready := x.ready ++ receivers.map (.received h none) ++
      senders.map fun s => .sent h s.terminal false s.task }
  if senders.isEmpty then x
  else
    x.log .debug
      ("[" ++ (x.half h).label ++ "] Closed with " ++ toString senders.length ++
        " undelivered message(s).") none

/-- Close a half, if it is open, and then do this. -/
def closeHalf (h : HalfId) (next : Work P) (x : Exchange P) : Exchange P :=
  let half := x.half h
  if half.closed then x.push next
  else
    let x := (x.modifyHalf h fun half => { half with closed := true }).record (.closed h)
    match half.closing with
    | .actions as =>
      (x.record (.heard "action" .undefined)).push
        (.emit ⟨some (as, .nothing), [], [], .undefined, .closing h next⟩)
    | .channel =>
      match half.channel.close? with
      | none => x.push (next.failed (.fault .closedTwice))
      | some (receivers, senders) => (x.closeChannel h receivers senders).announce h next

/-- Do what the entry of a method leaves to do. -/
def enterEntry (i : StreamId) (e : Entry) (t : Task P) (x : Exchange P) : Exchange P :=
  match e with
  | .returns v => x.give (.ok v) t
  | .throws f => x.push (.run (.returned (.error (.fault f)) t))
  | .fulfils v => x.give (.ok v) t
  | .rejects f => x.give (.error (.fault f)) t
  | .receives side => x.receive ⟨i, side⟩ t
  | .sends side m terminal relayed =>
    if (x.half ⟨i, side⟩).closed then x.give (.error (.fault .streamClosed)) t
    else x.offer ⟨i, side⟩ m terminal (if relayed then t.under .relaying else t)
  | .closes side => x.push (.close ⟨i, side⟩ (.give (.ok .undefined) t))
  | .closesOpen side =>
    if (x.half ⟨i, side⟩).closed then x.give (.error (.fault .streamClosed)) t
    else x.push (.close ⟨i, side⟩ (.give (.ok .undefined) t))
  | .closesAndReceives => x.push (.close ⟨i, .requests⟩ (.receive ⟨i, .responses⟩ t))

/-- Enter a method of a party of a stream. -/
def enter (i : StreamId) (role : Role) (m : Method) (t : Task P) (x : Exchange P) : Exchange P :=
  x.enterEntry i (m.entry (x.kindOf i) role) t

end ObjectTransfer.Exchange
