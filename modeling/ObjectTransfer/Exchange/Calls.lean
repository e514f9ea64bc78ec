import ObjectTransfer.Exchange.Halves

/-! # Starting a call

Every call gets the next number. What it does before its first wait is put in front of the agenda,
so it is done before anything else runs.
-/

namespace ObjectTransfer.Exchange

variable {P : Plugin}

/-- Attach a hook to the closure of a half; after the closure it is called later, by itself. -/
def attach (h : HalfId) (hook : Hook) (x : Exchange P) : Exchange P :=
  if (x.half h).closed then x.wake (.late hook (x.half h).label 1)
  else x.modifyHalf h fun half => { half with hooks := half.hooks ++ [hook] }

/-- Register a listener for the closure of a stream. For an upload it waits for both halves. -/
def whenClosed (i : StreamId) (l : Listener) (x : Exchange P) : Exchange P :=
  match x.kindOf i with
  | .download => x.attach ⟨i, .responses⟩ (.direct l)
  | .upload =>
    let n := x.countdowns.length
    let x := { x with countdowns := x.countdowns ++ [(2, l)] }
    (x.attach ⟨i, .requests⟩ (.half n)).attach ⟨i, .responses⟩ (.half n)

/-- Open a stream that serves no call. -/
def openStream (s : Stream P) (x : Exchange P) : Exchange P :=
  { x with streams := x.streams ++ [s] }

def nextStream (x : Exchange P) : StreamId := x.streams.length

/-- Open a stream for a call to the plugin: it is active until it is fully closed. -/
def openCall (n : Nat) (kind : StreamKind) (x : Exchange P) : Exchange P :=
  let i := x.nextStream
  let x := (x.openStream (.fresh P kind)).record (.opened n i)
  { x with active := x.active ++ [i] }.whenClosed i (.forget i)

/-- A reader on a stream, as the first work of a call. -/
def reader (i : StreamId) (n : Nat) : Work P :=
  .enter i .client .receive ⟨[.reading i .start], .call n⟩

/-- A writer on a stream with the next source, as the first work of a call. -/
def writer (i : StreamId) (source : Nat) (w : Writing) (n : Nat) : Work P :=
  .run (.returned (.ok .undefined) ⟨[.writing i source w], .call n⟩)

/-- A plain answer to a call. -/
def answer (n : Nat) (v : Value) (x : Exchange P) : Exchange P :=
  x.settle (.plain n) (.ok v)

/-- Enter a method for a caller from outside. Whether the caller sees a promise is up to the
method. -/
def enterCall (i : StreamId) (role : Role) (m : Method) (n : Nat) (x : Exchange P) : Exchange P :=
  let e := m.entry (x.kindOf i) role
  x.enterEntry i e ⟨[], if e.isPlain then .plain n else .call n⟩

def nextSource (x : Exchange P) : Exchange P :=
  { x with sources := x.sources + 1 }

def keptClient? (x : Exchange P) (name : String) : Option StreamId :=
  (x.clients.find? (·.1 == name)).map (·.2)

/-- What calling a method of a client fails with when none is kept. -/
def noClient (m : Method) : Outcome :=
  .error (.fault
    (.typeError ("Cannot read properties of undefined (reading '" ++ m.name ++ "')")))

/-- Keep the client of a stream under a name. -/
def keep (name : String) (i : StreamId) (x : Exchange P) : Exchange P :=
  { x with clients := (name, i) :: x.clients }

def startStream (n : Nat) (i : StreamId) (c : StreamCall) (x : Exchange P) : Exchange P :=
  match c with
  | .method role m => x.enterCall i role m n
  | .close side => x.push (.close ⟨i, side⟩ (.give (.ok .undefined) ⟨[], .plain n⟩))
  | .whenClosed l => (x.whenClosed i l).answer n .undefined
  | .identified => x.answer n (.bool true)
  | .read => x.push (reader i n)
  | .write bucket key source =>
    let x := x.nextSource
    x.push (writer i x.sources (.start bucket key source) n)

/-- Start a call on the plugin. The plugin's handler runs until its first wait before the host goes
on with the stream. -/
def startPlugin (n : Nat) (c : PluginCall) (x : Exchange P) : Exchange P :=
  match c with
  | .read bucket key =>
    let i := x.nextStream
    ((x.openCall n .download).push (reader i n)).push (.serve i (.get bucket key))
  | .write bucket key source =>
    let i := x.nextStream
    let x := x.nextSource
    ((x.openCall n .upload).push (writer i x.sources (.start bucket key source) n)).push
      (.serve i .put)
  | .openDownload name bucket key =>
    let i := x.nextStream
    (((x.openCall n .download).keep name i).push (.give (.ok .undefined) ⟨[], .plain n⟩)).push
      (.serve i (.get bucket key))
  | .openUpload name =>
    let i := x.nextStream
    (((x.openCall n .upload).keep name i).push (.give (.ok .undefined) ⟨[], .plain n⟩)).push
      (.serve i .put)
  | .method name m =>
    match x.keptClient? name with
    | some i => x.enterCall i .client m n
    | none => x.settle (.plain n) (noClient m)
  | .readKept name =>
    match x.keptClient? name with
    | some i => x.push (reader i n)
    | none => x.settle (.call n) (noClient .receive)
  | .holds bucket key => x.answer n (P.inspect x.shared (.holds bucket key))
  | .keys bucket => x.answer n (P.inspect x.shared (.keys bucket))

def startEmitter (n : Nat) (event : String) (c : EmitterCall) (x : Exchange P) : Exchange P :=
  match c with
  | .subscribe l => { x with emitter := x.emitter.subscribe event l }.answer n .undefined
  | .subscribeOnce l => { x with emitter := x.emitter.subscribeOnce event l }.answer n .undefined
  | .unsubscribe l => { x with emitter := x.emitter.unsubscribe event l }.answer n .undefined
  | .emit argument =>
    let r := x.emitter.registrations event
    if r.isAudible then
      let purpose := if x.emitter.usesOnce then .plainLasting n event else .plainLast n
      x.push (.emit ⟨none, [], r.lasting.audible.map .direct, argument, purpose⟩)
    else x.answer n (.bool false)
  | .emitAndWait argument =>
    x.push (.emit ⟨none, [], (x.emitter.listeners event).map .direct, argument, .awaited n⟩)

/-- Start a call that has its number. -/
def start (n : Nat) (c : Call) (x : Exchange P) : Exchange P :=
  match c with
  | .stream i c => x.startStream n i c
  | .plugin c => x.startPlugin n c
  | .emitter event c => x.startEmitter n event c

def command (c : Command) (x : Exchange P) : Exchange P :=
  match c with
  | .settle gate o => x.settleGate gate o
  | .call c =>
    let n := x.calls
    ({ x with calls := n + 1 }.record (.called n c)).start n c

end ObjectTransfer.Exchange
