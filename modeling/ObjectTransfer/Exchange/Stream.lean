import ObjectTransfer.Channel
import ObjectTransfer.Exchange.Task

/-! # Streams and their halves

A half is a channel behind a guard, through which it is closed at most once. A stream has two
halves; the request half of a download is closed from the start.
-/

namespace ObjectTransfer

/-- What closing a half does besides marking it closed. -/
inductive Closing where
  /-- Closes its channel. -/
  | channel
  /-- Performs actions of its own. -/
  | actions (as : List Action)

/-- One half of a stream: a channel, and the guard through which it is closed at most once. -/
structure Half (P : Plugin) where
  label : String
  closed : Bool
  hooks : List Hook
  closing : Closing
  channel : Channel Message (Offer P) (Task P)

structure Stream (P : Plugin) where
  kind : StreamKind
  requests : Half P
  responses : Half P

namespace Half

/-- A fresh half. -/
def fresh (P : Plugin) (label : String) : Half P :=
  ⟨label, false, [], .channel, .idle⟩

/-- A half that is closed from the start. -/
def shut (P : Plugin) : Half P :=
  ⟨"", true, [], .channel, .closed⟩

end Half

namespace Stream

variable {P : Plugin}

def half (s : Stream P) : Side → Half P
  | .requests => s.requests
  | .responses => s.responses

def modify (s : Stream P) (side : Side) (f : Half P → Half P) : Stream P :=
  match side with
  | .requests => { s with requests := f s.requests }
  | .responses => { s with responses := f s.responses }

/-- A fresh stream. Identifiers are random text, so a label shows only where they stand. -/
def fresh (P : Plugin) : StreamKind → Stream P
  | .download => ⟨.download, .shut P, .fresh P "DownloadStream <id>"⟩
  | .upload =>
    ⟨.upload, .fresh P "UploadStream <id> requests", .fresh P "UploadStream <id> responses"⟩

def isClosed (s : Stream P) : Bool := s.requests.closed && s.responses.closed

/-- How log lines name the service of a stream. -/
def serviceLabel (s : Stream P) : String :=
  match s.kind with
  | .download => "getObject <id>"
  | .upload => "putObject <id>"

end Stream

end ObjectTransfer
