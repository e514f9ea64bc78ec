import Mathlib.Data.List.Induction
import Mathlib.Data.List.Perm.Basic
import ObjectTransfer.Channel.Calls

/-! # Who meets whom on a channel

As long as a channel is open, its senders and receivers meet in the order they came: the `i`-th
receiver gets the item of the `i`-th sender, and what is left over of the longer side is parked.
So the calls made so far, as two lists, say everything about an open channel, and a closed-form
account of every call's settlement follows, whatever the calls are and in whatever order they come.
-/

namespace ObjectTransfer

namespace Channel

variable {α σ ρ : Type}

@[simp] theorem senders_ofReceivers (rs : List ρ) :
    (ofReceivers rs : Channel α σ ρ).senders = [] := by
  cases rs <;> rfl

@[simp] theorem receivers_ofReceivers (rs : List ρ) :
    (ofReceivers rs : Channel α σ ρ).receivers = rs := by
  cases rs <;> rfl

/-- The open channel that these sends and these receives leave behind. -/
def remaining (sends : List (α × σ)) (receives : List ρ) : Channel α σ ρ :=
  match receives.drop sends.length with
  | [] => offering (sends.drop receives.length)
  | first :: more => wanting first more

theorem remaining_eq_offering {sends : List (α × σ)} {receives : List ρ}
    (le : receives.length ≤ sends.length) :
    remaining sends receives = offering (sends.drop receives.length) := by
  rw [remaining, List.drop_eq_nil_of_le le]

theorem remaining_eq_ofReceivers {sends : List (α × σ)} {receives : List ρ}
    (le : sends.length ≤ receives.length) :
    remaining sends receives = ofReceivers (receives.drop sends.length) := by
  rw [remaining]
  cases receives.drop sends.length with
  | nil => rw [List.drop_eq_nil_of_le le]; rfl
  | cons first more => rfl

/-- The next send goes to the receive of its own place, if that one has been made. -/
theorem send_remaining (sends : List (α × σ)) (receives : List ρ) (item : α) (sender : σ) :
    (remaining sends receives).send item sender =
      (remaining (sends ++ [(item, sender)]) receives,
        match receives[sends.length]? with
        | none => .parked
        | some receiver => .taken receiver) := by
  rcases Nat.lt_or_ge sends.length receives.length with short | long
  · have next : (sends ++ [(item, sender)]).length ≤ receives.length := by simp; omega
    rw [remaining_eq_ofReceivers next, remaining, List.drop_eq_getElem_cons short,
      List.getElem?_eq_getElem short]
    simp only [send, List.length_append, List.length_singleton]
  · rw [remaining_eq_offering long, remaining_eq_offering (by simp; omega),
      List.getElem?_eq_none long, List.drop_append_of_le_length long]
    rfl

/-- The next receive takes the item of the send of its own place, if that one has been made. -/
theorem receive_remaining (sends : List (α × σ)) (receives : List ρ) (receiver : ρ) :
    (remaining sends receives).receive receiver =
      (remaining sends (receives ++ [receiver]),
        match sends[receives.length]? with
        | none => .parked
        | some (item, sender) => .took item sender) := by
  rcases Nat.lt_or_ge receives.length sends.length with short | long
  · have next : (receives ++ [receiver]).length ≤ sends.length := by simp; omega
    rw [remaining_eq_offering next, remaining_eq_offering (Nat.le_of_lt short),
      List.drop_eq_getElem_cons short, List.getElem?_eq_getElem short]
    simp only [receive, List.length_append, List.length_singleton]
  · rw [remaining_eq_ofReceivers long, remaining_eq_ofReceivers (by simp; omega),
      List.getElem?_eq_none long, List.drop_append_of_le_length long]
    cases receives.drop sends.length <;> rfl

theorem close?_remaining (sends : List (α × σ)) (receives : List ρ) :
    (remaining sends receives).close? =
      some (receives.drop sends.length, (sends.drop receives.length).map (·.2)) := by
  rcases Nat.lt_or_ge sends.length receives.length with short | long
  · rw [remaining, List.drop_eq_getElem_cons short, List.drop_eq_nil_of_le (Nat.le_of_lt short)]
    rfl
  · rw [remaining_eq_offering long, List.drop_eq_nil_of_le long]
    rfl

end Channel

section Zip

variable {α β γ : Type}

theorem zipWith_concat_left (f : α → β → γ) (as : List α) (a : α) (bs : List β) :
    List.zipWith f (as ++ [a]) bs =
      List.zipWith f as bs ++ (bs[as.length]?.map (f a)).toList := by
  induction as generalizing bs with
  | nil => cases bs <;> simp
  | cons _ _ ih =>
    cases bs with
    | nil => simp
    | cons _ bs => simpa using ih bs

theorem zipWith_concat_right (f : α → β → γ) (as : List α) (bs : List β) (b : β) :
    List.zipWith f as (bs ++ [b]) =
      List.zipWith f as bs ++ (as[bs.length]?.map (f · b)).toList := by
  rw [List.zipWith_comm, zipWith_concat_left, List.zipWith_comm]

end Zip

namespace ChannelCalls

def sends (calls : List ChannelCall) : List (Value × Nat) :=
  calls.zipIdx.filterMap fun
    | (.send item, n) => some (item, n)
    | _ => none

def receives (calls : List ChannelCall) : List Nat :=
  calls.zipIdx.filterMap fun
    | (.receive, n) => some n
    | _ => none

/-- The settlements of the calls that meet: the `i`-th receive gets the item of the `i`-th send. -/
def meetings (calls : List ChannelCall) : List (Nat × Settlement) :=
  (List.zipWith (fun (item, s) r => [(s, .fulfilled .undefined), (r, .fulfilled item)])
    (sends calls) (receives calls)).flatten

def unmetSends (calls : List ChannelCall) : List Nat :=
  ((sends calls).drop (receives calls).length).map (·.2)

def unmetReceives (calls : List ChannelCall) : List Nat :=
  (receives calls).drop (sends calls).length

/-- The settlements that the first close makes: its own result, and those of the calls that met
nobody. -/
def closing (calls : List ChannelCall) : List (Nat × Settlement) :=
  (calls.length, .returned (.number (.whole (unmetSends calls).length))) ::
    (unmetSends calls).map (·, .rejected (.fault .streamClosed)) ++
    (unmetReceives calls).map (·, .fulfilled .eof)

/-- How a call settles that is made on a closed channel. -/
def lateSettlement : ChannelCall → Settlement
  | .send _ => .rejected (.fault .streamClosed)
  | .receive => .fulfilled .eof
  | .close => .threw (.fault .closedTwice)

/-- The settlements of calls made on a closed channel, the first of them with the number `n`. -/
def late (n : Nat) (calls : List ChannelCall) : List (Nat × Settlement) :=
  (calls.zipIdx n).map fun (call, n) => (n, lateSettlement call)

variable {calls : List ChannelCall}

theorem performAll_concat (c : ChannelCalls) (calls : List ChannelCall) (call : ChannelCall) :
    c.performAll (calls ++ [call]) = (c.performAll calls).perform call := by
  simp [performAll]

theorem sends_concat (calls : List ChannelCall) (call : ChannelCall) :
    sends (calls ++ [call]) = sends calls ++
      match call with
      | .send item => [(item, calls.length)]
      | _ => [] := by
  cases call <;> simp [sends, List.zipIdx_append]

theorem receives_concat (calls : List ChannelCall) (call : ChannelCall) :
    receives (calls ++ [call]) = receives calls ++
      match call with
      | .receive => [calls.length]
      | _ => [] := by
  cases call <;> simp [receives, List.zipIdx_append]

theorem meetings_concat_send (calls : List ChannelCall) (item : Value) :
    meetings (calls ++ [.send item]) = meetings calls ++
      match (receives calls)[(sends calls).length]? with
      | none => []
      | some r => [(calls.length, .fulfilled .undefined), (r, .fulfilled item)] := by
  simp only [meetings, sends_concat, receives_concat, List.append_nil, zipWith_concat_left,
    List.flatten_append]
  cases (receives calls)[(sends calls).length]? <;> simp

theorem meetings_concat_receive (calls : List ChannelCall) :
    meetings (calls ++ [.receive]) = meetings calls ++
      match (sends calls)[(receives calls).length]? with
      | none => []
      | some (item, s) => [(s, .fulfilled .undefined), (calls.length, .fulfilled item)] := by
  simp only [meetings, sends_concat, receives_concat, List.append_nil, zipWith_concat_right,
    List.flatten_append]
  cases (sends calls)[(receives calls).length]? <;> simp

/-- What the calls on an open channel come to. -/
structure Open (calls : List ChannelCall) (c : ChannelCalls) : Prop where
  channel : c.channel = .remaining (sends calls) (receives calls)
  count : c.count = calls.length
  settled : c.settled.Perm (meetings calls)

theorem Open.send {c : ChannelCalls} (h : Open calls c) (item : Value) :
    Open (calls ++ [.send item]) (c.perform (.send item)) := by
  obtain ⟨channel, count, settled⟩ := h
  simp only [perform, channel, Channel.send_remaining]
  have joined := meetings_concat_send calls item
  cases met : (receives calls)[(sends calls).length]? with
  | none =>
    refine ⟨by simp [sends_concat, receives_concat, count], by simp [count], ?_⟩
    simpa [joined, met] using settled
  | some r =>
    refine ⟨by simp [settle, sends_concat, receives_concat, count], by simp [settle, count], ?_⟩
    simp only [settle, joined, met, count]
    exact (settled.append_left [(calls.length, .fulfilled .undefined), (r, .fulfilled item)]).trans
      List.perm_append_comm

theorem Open.receive {c : ChannelCalls} (h : Open calls c) :
    Open (calls ++ [.receive]) (c.perform .receive) := by
  obtain ⟨channel, count, settled⟩ := h
  simp only [perform, channel, Channel.receive_remaining]
  have joined := meetings_concat_receive calls
  cases met : (sends calls)[(receives calls).length]? with
  | none =>
    refine ⟨by simp [sends_concat, receives_concat, count], by simp [count], ?_⟩
    simpa [joined, met] using settled
  | some first =>
    obtain ⟨item, s⟩ := first
    refine ⟨by simp [settle, sends_concat, receives_concat, count], by simp [settle, count], ?_⟩
    simp only [settle, joined, met, count]
    refine (List.Perm.swap ..).trans ?_
    exact (settled.append_left [(s, .fulfilled .undefined), (calls.length, .fulfilled item)]).trans
      List.perm_append_comm

/-- Every call before the first close either meets another one or is parked. -/
theorem open_performAll (calls : List ChannelCall) (unclosed : .close ∉ calls) :
    Open calls (fresh.performAll calls) := by
  induction calls using List.reverseRecOn with
  | nil => exact ⟨rfl, rfl, .nil⟩
  | append_singleton calls call ih =>
    have before := ih fun mem => unclosed (List.mem_append_left _ mem)
    rw [performAll_concat]
    cases call with
    | send item => exact before.send item
    | receive => exact before.receive
    | close => exact absurd (by simp) unclosed

theorem foldl_settle (result : Settlement) (ns : List Nat) (c : ChannelCalls) :
    ns.foldl (fun c n => c.settle n result) c =
      { c with settled := (ns.map (·, result)).reverse ++ c.settled } := by
  induction ns generalizing c with
  | nil => rfl
  | cons n ns ih =>
    rw [List.foldl_cons, ih]
    simp [settle]

/-- What the calls come to once the channel is closed, by their settlements. -/
structure Shut (calls : List ChannelCall) (settlements : List (Nat × Settlement))
    (c : ChannelCalls) : Prop where
  channel : c.channel = .closed
  count : c.count = calls.length
  settled : c.settled.Perm settlements

/-- The first close settles itself and every call that is parked. -/
theorem Open.close {c : ChannelCalls} (h : Open calls c) :
    Shut (calls ++ [.close]) (meetings calls ++ closing calls) (c.perform .close) := by
  obtain ⟨channel, count, settled⟩ := h
  simp only [perform, channel, Channel.close?_remaining, foldl_settle]
  refine ⟨rfl, by simp [settle, count], ?_⟩
  simp only [settle, closing, count, unmetSends, unmetReceives]
  refine .trans (.cons _ ?_) List.perm_middle.symm
  rw [← List.append_assoc]
  refine .trans ?_ List.perm_append_comm
  exact ((List.reverse_perm _).append (List.reverse_perm _)).append settled

theorem perform_of_closed {c : ChannelCalls} (closed : c.channel = .closed) (call : ChannelCall) :
    c.perform call =
      { c with count := c.count + 1, settled := (c.count, lateSettlement call) :: c.settled } := by
  cases call <;>
    simp [perform, closed, Channel.send, Channel.receive, Channel.close?, settle, lateSettlement]

theorem Shut.late {settlements : List (Nat × Settlement)} {c : ChannelCalls}
    (h : Shut calls settlements c) (call : ChannelCall) :
    Shut (calls ++ [call]) (settlements ++ [(calls.length, lateSettlement call)])
      (c.perform call) := by
  obtain ⟨closed, count, settled⟩ := h
  rw [perform_of_closed closed]
  refine ⟨closed, by simp [count], ?_⟩
  rw [count]
  exact (settled.cons _).trans (List.perm_append_singleton ..).symm

/-- From the first close on, every call is settled. -/
theorem shut_performAll (before after : List ChannelCall) (unclosed : .close ∉ before) :
    Shut (before ++ .close :: after)
      (meetings before ++ closing before ++ late (before.length + 1) after)
      (fresh.performAll (before ++ .close :: after)) := by
  induction after using List.reverseRecOn with
  | nil =>
    rw [performAll_concat]
    simpa [late] using (open_performAll before unclosed).close
  | append_singleton after call ih =>
    have next := ih.late call
    have place : (before ++ .close :: after).length = before.length + 1 + after.length := by
      rw [List.length_append, List.length_cons]; omega
    rw [← performAll_concat, place] at next
    simpa [late, List.zipIdx_append] using next

theorem sends_append_receives_perm (calls : List ChannelCall) (unclosed : .close ∉ calls) :
    ((sends calls).map (·.2) ++ receives calls).Perm (List.range calls.length) := by
  induction calls using List.reverseRecOn with
  | nil => exact .nil
  | append_singleton calls call ih =>
    have before := ih fun mem => unclosed (List.mem_append_left _ mem)
    rw [sends_concat, receives_concat, List.length_append, List.length_singleton,
      List.range_succ]
    refine .trans ?_ (before.append_right _)
    cases call with
    | send item =>
      simp only [List.map_append, List.map_cons, List.map_nil, List.append_nil, List.append_assoc]
      exact List.perm_append_comm.append_left _
    | receive => simp
    | close => exact absurd (by simp) unclosed

theorem meetings_append_unmet_perm (calls : List ChannelCall) :
    ((meetings calls).map (·.1) ++ (unmetSends calls ++ unmetReceives calls)).Perm
      ((sends calls).map (·.2) ++ receives calls) := by
  rw [meetings, unmetSends, unmetReceives]
  generalize sends calls = ss
  generalize receives calls = rs
  induction ss generalizing rs with
  | nil => simp
  | cons s ss ih =>
    cases rs with
    | nil => simp
    | cons r rs =>
      simp only [List.zipWith_cons_cons, List.flatten_cons, List.map_cons, List.length_cons,
        List.drop_succ_cons, List.cons_append, List.nil_append]
      exact .cons _ (((ih rs).cons r).trans List.perm_middle.symm)

theorem late_numbers (n : Nat) (calls : List ChannelCall) :
    (late n calls).map (·.1) = List.range' n calls.length := by
  simp [late, Function.comp_def]

theorem closing_numbers (calls : List ChannelCall) :
    (closing calls).map (·.1) = calls.length :: (unmetSends calls ++ unmetReceives calls) := by
  simp [closing, Function.comp_def]

/-- **A channel against its specification.** Take any calls up to the first close, the close, and
any calls after it. Before the close the settlements are those of the `i`-th sends and receives for
each `i` up to the shorter side, and exactly the calls of the longer side that are left over are
pending. The close returns how many sends were left over, rejects them, and ends the receives that
were left over; every later call settles by itself, and a close then changes nothing. All the
while no call settles twice, and after the close every call has settled. -/
theorem performAll_settles (before after : List ChannelCall) (unclosed : .close ∉ before) :
    (fresh.performAll before).settled.Perm (meetings before) ∧
    ((fresh.performAll before).settled.map (·.1)).Nodup ∧
    (∀ n, n ∈ (fresh.performAll before).pending ↔
      n ∈ unmetSends before ++ unmetReceives before) ∧
    (fresh.performAll (before ++ .close :: after)).settled.Perm
      (meetings before ++ closing before ++ late (before.length + 1) after) ∧
    ((fresh.performAll (before ++ .close :: after)).settled.map (·.1)).Perm
      (List.range (before.length + 1 + after.length)) ∧
    fresh.performAll (before ++ .close :: after ++ [.close]) =
      let c := fresh.performAll (before ++ .close :: after)
      { c with count := c.count + 1, settled := (c.count, .threw (.fault .closedTwice)) ::
        c.settled } := by
  have unmet := meetings_append_unmet_perm before
  have numbers := unmet.trans (sends_append_receives_perm before unclosed)
  have nodup := numbers.symm.nodup List.nodup_range
  have opened := open_performAll before unclosed
  have shut := shut_performAll before after unclosed
  refine ⟨opened.settled, ?_, fun n => ?_, shut.settled, ?_, ?_⟩
  · exact (opened.settled.map _).symm.nodup (List.nodup_append.mp nodup).1
  · have settled : (fresh.performAll before).settled.any (·.1 == n) = true ↔
        n ∈ (meetings before).map (·.1) := by
      rw [← (opened.settled.map _).mem_iff]
      simp
    have apart := (List.nodup_append.mp nodup).2.2
    have all := numbers.mem_iff (a := n)
    rw [List.mem_append, List.mem_range] at all
    rw [pending, List.mem_filter, List.mem_range, opened.count, Bool.not_eq_true', ← all,
      Bool.eq_false_iff, ne_eq, settled]
    exact ⟨fun ⟨mem, off⟩ => mem.resolve_left off,
      fun mem => ⟨.inr mem, fun met => apart n met n mem rfl⟩⟩
  · refine (shut.settled.map _).trans ?_
    rw [List.map_append, List.map_append, closing_numbers, late_numbers, List.range_eq_range',
      ← List.range'_append_1, Nat.zero_add, ← List.range_eq_range', List.range_succ]
    exact (List.perm_middle.trans ((numbers.cons _).trans
      (List.perm_append_singleton ..).symm)).append_right _
  · rw [performAll_concat, perform_of_closed shut.channel]
    rfl

/-- Two sends and a receive, a close, then a receive and another close. -/
theorem performAll_settles_oneMeeting :
    ChannelCall.close ∉ [.send .null, .receive, .send .eof] ∧
    (fresh.performAll
      [.send .null, .receive, .send .eof, .close, .receive, .close]).settled.Perm
      [(0, .fulfilled .undefined), (1, .fulfilled .null),
        (3, .returned (.number (.whole 1))), (2, .rejected (.fault .streamClosed)),
        (4, .fulfilled .eof), (5, .threw (.fault .closedTwice))] :=
  have unclosed : ChannelCall.close ∉ [.send .null, .receive, .send .eof] := by simp
  ⟨unclosed, (performAll_settles [.send .null, .receive, .send .eof] [.receive, .close]
    unclosed).2.2.2.1⟩

end ChannelCalls

end ObjectTransfer
