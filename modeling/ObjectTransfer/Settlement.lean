import ObjectTransfer.Value

/-! # How a call ends -/

namespace ObjectTransfer

/-- The end of a call, as its caller sees it. A plain function returns or throws; an asynchronous
one fulfils or rejects the promise that it gave. -/
inductive Settlement where
  | returned (v : Value)
  | threw (v : Value)
  | fulfilled (v : Value)
  | rejected (v : Value)

namespace Settlement

def ofPlain : Outcome → Settlement
  | .ok v => returned v
  | .error v => threw v

def ofPromise : Outcome → Settlement
  | .ok v => fulfilled v
  | .error v => rejected v

end Settlement

end ObjectTransfer
