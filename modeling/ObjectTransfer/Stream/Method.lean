import ObjectTransfer.Stream.Message
import ObjectTransfer.Value.Text

/-! # The parties of a stream and their methods

A stream joins a client and a server. A download is one half, from server to client; an upload has
a half for the requests and a half for the single response. `Method.entry` says what a method does
at its start: it checks its argument, and the entry that it yields says what is left to do on the
halves. A refused argument never touches a half.
-/

namespace ObjectTransfer

inductive StreamKind where
  | download
  | upload
  deriving DecidableEq, Repr

/-- One direction of a stream. The request half of a download carries nothing: the request travels
with the call. -/
inductive Side where
  | requests
  | responses
  deriving DecidableEq, Repr

inductive Role where
  | client
  | server
  deriving DecidableEq, Repr

/-- The methods of both parties of both kinds of stream, with their arguments. -/
inductive Method where
  /-- Waits for the next message. -/
  | receive
  /-- The raw form of receiving. -/
  | receiveRaw
  /-- Hands over a payload. -/
  | send (payload : Value)
  /-- Hands over a raw message. -/
  | sendRaw (message : Value)
  /-- Ends the responses with an error. -/
  | fail (error : Value)
  /-- Ends an upload with its result. -/
  | respond (result : Value)
  /-- Ends the client's side. -/
  | halfClose
  /-- Ends the requests of an upload and waits for its response. -/
  | awaitResponse
  /-- Ends a download. -/
  | close
  | header
  | trailer
  | scope
  | setHeader
  | sendHeader
  | setTrailer

/-- What a method does once its argument is checked. -/
inductive Entry where
  /-- Returns a value: the method is a plain function. -/
  | returns (v : Value)
  /-- Throws instead of giving a promise. -/
  | throws (f : Fault)
  /-- Gives a promise that is fulfilled already. -/
  | fulfils (v : Value)
  /-- Gives a promise that is rejected already. -/
  | rejects (f : Fault)
  /-- Takes the next message of a half. -/
  | receives (side : Side)
  /-- Hands a message to a half, if it is open; a terminal message closes the half in any case once
  the handing over ended. A relayed one is handed over by a function of its own, whose outcome the
  method waits for and hands on. -/
  | sends (side : Side) (message : Message) (terminal relayed : Bool)
  /-- Closes a half, which may be closed already. -/
  | closes (side : Side)
  /-- Closes a half, which must be open. -/
  | closesOpen (side : Side)
  /-- Closes the request half and takes the next message of the response half. -/
  | closesAndReceives

namespace Entry

/-- Whether the method answers at once, without a promise. -/
def isPlain : Entry → Bool
  | returns _ => true
  | throws _ => true
  | _ => false

/-- A payload for a half; it must not be missing. -/
def ofPayload (side : Side) (parameter : String) (terminal relayed : Bool) (v : Value) : Entry :=
  if v.isNothing then
    rejects (.invalidArgument ("parameter \"" ++ parameter ++ "\" cannot be null or undefined"))
  else sends side (.payload v) terminal relayed

/-- An error for a half; it must be one. -/
def ofError (side : Side) (complaint : String) (relayed : Bool) (v : Value) : Entry :=
  match v with
  | .fault f => sends side (.failure f) true relayed
  | _ => rejects (.invalidArgument complaint)

/-- The complaint about an argument that should be an error. -/
def errorParameter : String := "parameter \"err\" must be an Error"

/-- A raw message goes where its kind says. One of no known kind is refused with its text in the
complaint; when it has no text, what becomes of the call is `textless`. -/
def ofRaw (message : Value) (payload failure : Value → Entry) (textless : Fault → Entry) : Entry :=
  if message.isNothing then rejects (.invalidArgument "invalid argument: no message")
  else
    match message.member "kind" with
    | .text "payload" => payload (message.member "payload")
    | .text "error" => failure (message.member "error")
    | _ =>
      match message.text? with
      | .ok t => rejects (.invalidArgument ("invalid argument: " ++ t))
      | .error f => textless f

end Entry

namespace Method

def name : Method → String
  | receive => "recv"
  | receiveRaw => "recvMsg"
  | send _ => "send"
  | sendRaw _ => "sendMsg"
  | fail _ => "sendError"
  | respond _ => "sendAndClose"
  | halfClose => "closeSend"
  | awaitResponse => "closeAndRecv"
  | close => "close"
  | header => "header"
  | trailer => "trailer"
  | scope => "context"
  | setHeader => "setHeader"
  | sendHeader => "sendHeader"
  | setTrailer => "setTrailer"

def missing (m : Method) : Entry :=
  .throws (.typeError (m.name ++ " is not a function"))

/-- The methods of every client. Metadata is always empty, and the scope never ends. -/
def clientEntry (m : Method) : Entry :=
  match m with
  | header => .fulfils .noMetadata
  | trailer => .returns .noMetadata
  | scope => .returns .scope
  | m => m.missing

/-- The methods of every server. Metadata is accepted and dropped. -/
def serverEntry (m : Method) : Entry :=
  match m with
  | setHeader => .fulfils .undefined
  | sendHeader => .fulfils .undefined
  | setTrailer => .returns .undefined
  | scope => .returns .scope
  | m => m.missing

/-- What a method does at its start, by the kind of the stream and the party that is called. -/
def entry (kind : StreamKind) (role : Role) (m : Method) : Entry :=
  match kind, role, m with
  | .download, .client, receive => .receives .responses
  | .download, .client, receiveRaw => .receives .responses
  | .download, .client, sendRaw _ => .fulfils .undefined
  | .download, .client, halfClose => .closesOpen .responses
  | .download, .server, send v => .ofPayload .responses "res" false false v
  | .download, .server, fail v => .ofError .responses Entry.errorParameter false v
  | .download, .server, sendRaw v =>
    .ofRaw v (.ofPayload .responses "res" false false)
      (.ofError .responses Entry.errorParameter false) .throws
  | .download, .server, receiveRaw => .fulfils .undefined
  | .download, .server, close => .closes .responses
  | .upload, .client, send v => .ofPayload .requests "req" false false v
  | .upload, .client, sendRaw v =>
    .ofRaw v (.ofPayload .requests "req" false true)
      (.ofError .requests "invalid argument: error message without an Error" true) .rejects
  | .upload, .client, halfClose => .closesOpen .requests
  | .upload, .client, awaitResponse => .closesAndReceives
  | .upload, .client, receiveRaw => .fulfils .undefined
  | .upload, .server, receive => .receives .requests
  | .upload, .server, receiveRaw => .receives .requests
  | .upload, .server, respond v => .ofPayload .responses "res" true true v
  | .upload, .server, fail v => .ofError .responses Entry.errorParameter true v
  | .upload, .server, sendRaw v =>
    .ofRaw v (.ofPayload .responses "res" true true)
      (.ofError .responses Entry.errorParameter true) .throws
  | _, .client, m => m.clientEntry
  | _, .server, m => m.serverEntry

end Method

end ObjectTransfer
