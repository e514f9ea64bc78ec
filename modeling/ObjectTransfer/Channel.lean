/-! # Unbuffered channels

A channel hands items from senders to receivers one to one and keeps none: whoever comes first is
parked until the other side arrives. Senders and receivers are never parked at the same time, and
nobody is parked on a closed channel; the type says so.

An operation answers at once for the caller who can be served, and names the parked party that it
served. Nobody waits inside an operation; what parties are is up to the user of the channel.
-/

namespace ObjectTransfer

/-- An unbuffered channel of items `α`, with parked senders `σ` and parked receivers `ρ`. -/
inductive Channel (α σ ρ : Type) where
  /-- Open; senders wait with their items, the first in front. -/
  | offering (parked : List (α × σ))
  /-- Open; at least one receiver waits, the first in front. -/
  | wanting (first : ρ) (more : List ρ)
  | closed

namespace Channel

variable {α σ ρ : Type}

/-- An open channel where nobody waits. -/
def idle : Channel α σ ρ := offering []

instance : Inhabited (Channel α σ ρ) := ⟨idle⟩

def isClosed : Channel α σ ρ → Bool
  | closed => true
  | _ => false

def senders : Channel α σ ρ → List (α × σ)
  | offering parked => parked
  | _ => []

def receivers : Channel α σ ρ → List ρ
  | wanting first more => first :: more
  | _ => []

/-- The receivers that wait, as a channel. -/
def ofReceivers : List ρ → Channel α σ ρ
  | [] => idle
  | first :: more => wanting first more

inductive Sent (ρ : Type) where
  /-- The sender is parked with its item. -/
  | parked
  /-- This receiver has the item. -/
  | taken (receiver : ρ)
  /-- The channel is closed. -/
  | refused

def send (c : Channel α σ ρ) (item : α) (sender : σ) : Channel α σ ρ × Sent ρ :=
  match c with
  | offering parked => (offering (parked ++ [(item, sender)]), .parked)
  | wanting first more => (ofReceivers more, .taken first)
  | closed => (closed, .refused)

inductive Received (α σ : Type) where
  /-- The receiver is parked. -/
  | parked
  /-- The receiver has the item of this sender. -/
  | took (item : α) (sender : σ)
  /-- The channel is closed. -/
  | ended

def receive (c : Channel α σ ρ) (receiver : ρ) : Channel α σ ρ × Received α σ :=
  match c with
  | offering [] => (wanting receiver [], .parked)
  | offering ((item, sender) :: parked) => (offering parked, .took item sender)
  | wanting first more => (wanting first (more ++ [receiver]), .parked)
  | closed => (closed, .ended)

/-- Close: the receivers that get nothing any more, and the senders whose items are dropped.
Closing a closed channel is an error. -/
def close? (c : Channel α σ ρ) : Option (List ρ × List σ) :=
  match c with
  | closed => none
  | c => some (c.receivers, c.senders.map (·.2))

/-- Nobody waits to send while somebody waits to receive. -/
theorem senders_eq_nil_or_receivers_eq_nil (c : Channel α σ ρ) :
    c.senders = [] ∨ c.receivers = [] := by
  cases c <;> simp [senders, receivers]

/-- Sending neither closes a channel nor opens it. -/
theorem isClosed_send (c : Channel α σ ρ) (item : α) (sender : σ) :
    (c.send item sender).1.isClosed = c.isClosed := by
  cases c with
  | offering parked => rfl
  | wanting first more => cases more <;> rfl
  | closed => rfl

/-- Receiving neither closes a channel nor opens it. -/
theorem isClosed_receive (c : Channel α σ ρ) (receiver : ρ) :
    (c.receive receiver).1.isClosed = c.isClosed := by
  cases c with
  | offering parked => cases parked <;> rfl
  | wanting first more => rfl
  | closed => rfl

/-- A receiver that is parked comes last. -/
theorem of_receive_parked {c c' : Channel α σ ρ} {receiver : ρ}
    (parked : c.receive receiver = (c', .parked)) :
    c'.senders = c.senders ∧ c'.receivers = c.receivers ++ [receiver] := by
  cases c with
  | offering waiting =>
      cases waiting <;> cases parked
      exact ⟨rfl, rfl⟩
  | wanting first more =>
      cases parked
      exact ⟨rfl, rfl⟩
  | closed => cases parked

/-- Only a closed channel cannot be closed. -/
theorem close?_eq_none_iff (c : Channel α σ ρ) : c.close? = none ↔ c.isClosed = true := by
  cases c <;> simp [close?, isClosed]

end Channel

end ObjectTransfer
