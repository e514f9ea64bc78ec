import ObjectTransfer.Proofs.Turns

/-! # What the handler of a download brings about

A program is what the handler of a download does on its stream while it waits for each of its calls.
To play it is to say, without any schedule, what is sent before the stream ends and how the stream
ends (`Program.play`). Whether a handler follows a program is seen in its turns (`Program.Directs`).
-/

namespace ObjectTransfer

variable {P : Plugin}

/-! ## Playbacks -/

/-- How a download ended. -/
inductive Ending where
  | closed
  | failed (f : Fault)

namespace Ending

/-- How a handler that came to this outcome ends a stream that is still open. A failure because the
caller closed the stream is not reported, and a failure without a text cannot be. -/
def ofOutcome : Outcome → Ending
  | .ok _ => closed
  | .error v =>
    if v.isStreamClosed then closed
    else
      match v.toFault? with
      | .ok f => failed f
      | .error _ => closed

def message? : Ending → Option Message
  | closed => none
  | failed f => some (.failure f)

end Ending

/-- The bytes that a chunk of an object carries. -/
def Value.carried (v : Value) : Bytes :=
  match v.member? "fileChunk" with
  | .ok (.bytes data) => data
  | _ => []

/-- What was sent on a download before it ended, and how it ended, if it did. -/
structure Playback where
  chunks : List Value
  ending : Option Ending

namespace Playback

def empty : Playback := ⟨[], none⟩

def ended (p : Playback) : Bool := p.ending.isSome

def send (p : Playback) (v : Value) : Playback :=
  if p.ended then p else { p with chunks := p.chunks ++ [v] }

/-- The stream ends. Its first end counts. -/
def stop (p : Playback) (e : Ending) : Playback :=
  { p with ending := p.ending.or (some e) }

/-- What a method of the server makes of the stream. -/
def after (p : Playback) : Entry → Playback
  | .sends _ (.payload v) _ _ => p.send v
  | .sends _ (.failure f) _ _ => p.stop (.failed f)
  | .closes _ => p.stop .closed
  | _ => p

/-- What a method of the server comes to. -/
def answer (p : Playback) : Entry → Outcome
  | .returns v => .ok v
  | .fulfils v => .ok v
  | .throws f => .error (.fault f)
  | .rejects f => .error (.fault f)
  | .sends _ _ _ _ => if p.ended then .error (.fault .streamClosed) else .ok .undefined
  | _ => .ok .undefined

def messages (p : Playback) : List Message :=
  p.chunks.map .payload ++ (p.ending.bind Ending.message?).toList

/-- What a call comes to that reads the object from such a stream: the bytes of all chunks, or the
failure with which the stream ended. -/
def result? (p : Playback) : Option Outcome :=
  p.ending.map fun
    | .closed => .ok (.bytes (p.chunks.flatMap Value.carried))
    | .failed f => .error (.fault f)

variable {p : Playback}

theorem ending_eq_none (isOpen : p.ended = false) : p.ending = none := by
  simpa [ended] using isOpen

theorem messages_of_open (isOpen : p.ended = false) : p.messages = p.chunks.map .payload := by
  simp [messages, ending_eq_none isOpen]

@[simp] theorem ended_stop (e : Ending) : (p.stop e).ended = true := by
  cases ending : p.ending <;> simp [stop, ended, ending]

theorem stop_of_ended (ended : p.ended = true) (e : Ending) : p.stop e = p := by
  obtain ⟨chunks, ending⟩ := p
  cases ending with
  | none => cases ended
  | some => rfl

theorem send_of_ended (ended : p.ended = true) (v : Value) : p.send v = p := if_pos ended

theorem send_of_open (isOpen : p.ended = false) (v : Value) :
    p.send v = { p with chunks := p.chunks ++ [v] } := by
  simp [send, isOpen]

theorem ended_send_of_open (isOpen : p.ended = false) (v : Value) : (p.send v).ended = false := by
  rw [send_of_open isOpen]
  exact isOpen

theorem messages_send (isOpen : p.ended = false) (v : Value) :
    (p.send v).messages = p.messages ++ [.payload v] := by
  simp [send_of_open isOpen, messages, ending_eq_none isOpen]

theorem messages_stop (isOpen : p.ended = false) (e : Ending) :
    (p.stop e).messages = p.messages ++ e.message?.toList := by
  simp [stop, messages, ending_eq_none isOpen]

theorem messages_stop_closed : (p.stop .closed).messages = p.messages := by
  cases ended : p.ended with
  | true => rw [stop_of_ended ended]
  | false => rw [messages_stop ended, Ending.message?, Option.toList_none, List.append_nil]

/-- Nothing changes a stream that ended. -/
theorem after_of_ended (ended : p.ended = true) (e : Entry) : p.after e = p := by
  cases e with
  | sends side m terminal relayed =>
      cases m with
      | payload v => exact send_of_ended ended v
      | failure f => exact stop_of_ended ended _
  | closes => exact stop_of_ended ended _
  | _ => rfl

/-- Whether a stream that stands here can end as that playback says. -/
structure Before (p final : Playback) : Prop where
  messages : p.messages <+: final.messages
  ended : p.ended = true → final = p

theorem Before.refl (p : Playback) : p.Before p := ⟨List.prefix_rfl, fun _ => rfl⟩

theorem Before.trans {q final : Playback} (first : p.Before q) (second : q.Before final) :
    p.Before final where
  messages := first.messages.trans second.messages
  ended ended := by
    have same := first.ended ended
    rw [same] at second
    exact second.ended ended

theorem before_send (v : Value) : p.Before (p.send v) := by
  cases ended : p.ended with
  | true =>
      rw [send_of_ended ended]
      exact .refl p
  | false =>
      exact ⟨messages_send ended v ▸ List.prefix_append _ _,
        fun done => nomatch ended.symm.trans done⟩

theorem before_stop (e : Ending) : p.Before (p.stop e) := by
  cases ended : p.ended with
  | true =>
      rw [stop_of_ended ended]
      exact .refl p
  | false =>
      exact ⟨messages_stop ended e ▸ List.prefix_append _ _,
        fun done => nomatch ended.symm.trans done⟩

theorem before_after (e : Entry) : p.Before (p.after e) := by
  cases e with
  | sends side m terminal relayed =>
      cases m with
      | payload v => exact before_send v
      | failure f => exact before_stop _
  | closes => exact before_stop _
  | _ => exact .refl p

end Playback

/-! ## Programs -/

/-- What the handler of a download does on its stream: it waits for each of its calls, and how it
goes on is up to the outcome. -/
inductive Program where
  /-- Calls a method of its server. -/
  | calls (m : Method) (next : Outcome → Program)
  /-- Waits for a gate. -/
  | waits (gate : String) (next : Outcome → Program)
  /-- Is done, or fails. -/
  | ends (o : Outcome)

namespace Program

/-- Play a program on a stream, as far as these gates let it. -/
def play (gates : String → Option Outcome) : Program → Playback → Playback
  | calls m next, p =>
    (next (p.answer (m.entry .download .server))).play gates (p.after (m.entry .download .server))
  | waits gate next, p =>
    match gates gate with
    | some o => (next (o.map fun _ => .undefined)).play gates p
    | none => p
  | ends o, p => p.stop (.ofOutcome o)

variable {gates : String → Option Outcome}

theorem play_settled {gate : String} {next : Outcome → Program} {p : Playback} {o : Outcome}
    (settled : gates gate = some o) :
    (waits gate next).play gates p = (next (o.map fun _ => .undefined)).play gates p := by
  rw [play, settled]

theorem play_unsettled {gate : String} {next : Outcome → Program} {p : Playback}
    (unsettled : gates gate = none) : (waits gate next).play gates p = p := by
  rw [play, unsettled]

/-- What is sent stays sent, and what a program does after the end of its stream changes nothing. -/
theorem before_play (program : Program) (p : Playback) : p.Before (program.play gates p) := by
  induction program generalizing p with
  | calls m next ih => exact (Playback.before_after _).trans (ih _ _)
  | waits gate next ih =>
      cases settled : gates gate with
      | none =>
          rw [play_unsettled settled]
          exact .refl p
      | some o =>
          rw [play_settled settled]
          exact ih _ _
  | ends o => exact Playback.before_stop _

end Program

/-- Whether a handler does what its program says. What is left of the program then is up to the
outcome of what the handler waits for. -/
inductive Act.Obeys {σ : Type} : Act σ → Program → (Outcome → Program) → Prop where
  | calls {m state next} : Obeys (.call m state) (.calls m next) next
  | waits {gate state next} : Obeys (.wait gate state) (.waits gate next) next
  | rests {state program} : Obeys (.rest state) program fun _ => program
  | shows {handler deed v state program} :
      Obeys (.did handler deed v state) program fun _ => program
  | logs {line state program} : Obeys (.log line state) program fun _ => program
  | succeeds : Obeys .succeed (.ends (.ok .undefined)) fun _ => .ends (.ok .undefined)
  | fails {v} : Obeys (.fail v) (.ends (.error v)) fun _ => .ends (.error v)
  | refuses {v} : Obeys (.refuse v) (.ends (.error v)) fun _ => .ends (.error v)

theorem Act.Obeys.unique {σ : Type} {act : Act σ} {program : Program} {k k' : Outcome → Program}
    (obeys : act.Obeys program k) (obeys' : act.Obeys program k') : k = k' := by
  cases obeys <;> cases obeys' <;> rfl

namespace Program

variable {program : Program} {k k' : Outcome → Program}

/-- What is left of a program after these turns of the handler, the latest first. -/
def Leaves (program : Program) : List (HandlerTurn P) → (Outcome → Program) → Prop
  | [], k => k = fun _ => program
  | turn :: earlier, k => ∃ before, program.Leaves earlier before ∧
    turn.act.Obeys (before turn.outcome) k

/-- Whether a handler follows a program in its turns, the latest first. -/
def Directs (program : Program) (turns : List (HandlerTurn P)) : Prop := ∃ k, program.Leaves turns k

theorem Leaves.unique {turns : List (HandlerTurn P)} (leaves : program.Leaves turns k)
    (leaves' : program.Leaves turns k') : k = k' := by
  induction turns generalizing k k' with
  | nil => exact leaves.trans leaves'.symm
  | cons turn earlier ih =>
      obtain ⟨before, old, obeys⟩ := leaves
      obtain ⟨before', old', obeys'⟩ := leaves'
      cases ih old old'
      exact obeys.unique obeys'

theorem Directs.earlier {later earlier : List (HandlerTurn P)}
    (directs : program.Directs (later ++ earlier)) : program.Directs earlier := by
  induction later with
  | nil => exact directs
  | cons turn later ih =>
      obtain ⟨k, before, leaves, -⟩ := directs
      exact ih ⟨before, leaves⟩

theorem Directs.obeys {turn : HandlerTurn P} {earlier : List (HandlerTurn P)}
    (directs : program.Directs (turn :: earlier)) (leaves : program.Leaves earlier k) :
    ∃ k', turn.act.Obeys (k turn.outcome) k' ∧ program.Leaves (turn :: earlier) k' := by
  obtain ⟨k', before, leaves', obeys⟩ := directs
  cases leaves'.unique leaves
  exact ⟨k', obeys, k, leaves, obeys⟩

theorem Directs.not_forks {turns : List (HandlerTurn P)} (directs : program.Directs turns)
    {turn : HandlerTurn P} (mem : turn ∈ turns) : ¬ turn.Forks := by
  rintro ⟨child, next, forks⟩
  obtain ⟨later, earlier, rfl⟩ := List.append_of_mem mem
  obtain ⟨k, before, -, obeys⟩ := directs.earlier
  rw [HandlerTurn.act, forks] at obeys
  cases obeys

end Program

end ObjectTransfer
