import ObjectTransfer.Value

/-! # Log lines -/

namespace ObjectTransfer

inductive LogLevel where
  | debug
  | error
  deriving DecidableEq, Repr

/-- A log line: its level, its text, and the value it shows after the text. -/
structure Log where
  level : LogLevel
  text : String
  value : Option Value

end ObjectTransfer
