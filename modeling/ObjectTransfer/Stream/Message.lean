import ObjectTransfer.Value

/-! # Messages

Halves carry messages. A caller may also write a message as a value, an object whose kind says
whether it is a payload or an error, and hand it to the raw entry point of a party.
-/

namespace ObjectTransfer

/-- A message on a half: a payload, or an error that ends the half. -/
inductive Message where
  | payload (v : Value)
  | failure (f : Fault)

namespace Message

/-- What receiving a message comes to. -/
def outcome : Message → Outcome
  | payload v => .ok v
  | failure f => .error (.fault f)

end Message

namespace Value

def rawPayload (payload : Value) : Value :=
  object [("kind", text "payload"), ("payload", payload)]

def rawError (error : Value) : Value :=
  object [("kind", text "error"), ("error", error)]

def noMetadata : Value := metadata 0

/-- Metadata with one more entry; other metadata stays as it is. -/
def addEntry : Value → Value
  | metadata size => metadata (size + 1)
  | v => v

end Value

end ObjectTransfer
