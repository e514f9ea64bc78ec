import ObjectTransfer.Proofs.Callings
import ObjectTransfer.Proofs.Terminations

/-! # Calls that are refused at their entry

A method that sends or closes checks its argument (`Method.Proper`) and then whether the half that
it is for is open (`Method.target?`). If either check fails the call comes to nothing: it settles at
once, and the exchange is as it was (`Exchange.dismissed`).
-/

namespace ObjectTransfer

variable {P : Plugin}

namespace Value

/-- Whether a value is a raw message: one with a payload that is not missing, or one with an error.
-/
def IsMessage (v : Value) : Prop :=
  (v.member "kind" = .text "payload" ∧ (v.member "payload").isNothing = false) ∨
    (v.member "kind" = .text "error" ∧ ∃ f, v.member "error" = .fault f)

/-- Whether a value is of no known kind, and cannot be shown in a complaint about that either: what
showing it fails with. -/
structure Unshown (v : Value) (f : Fault) : Prop where
  kind : v.member "kind" ≠ .text "payload" ∧ v.member "kind" ≠ .text "error"
  text : v.text? = .error f

mutual

/-- Writing a value into a larger text fails only where the value, or an element of it, has no text
or is the end marker. -/
theorem interpolate?_error {f : Fault} (v : Value) (failed : v.interpolate? = .error f) :
    f = .noText ∨ f = .markerText := by
  cases v with
  | array items =>
      rw [interpolate?] at failed
      cases texts : elementTexts? items with
      | error g =>
          rw [texts] at failed
          cases failed
          exact elementTexts?_error items texts
      | ok ts =>
          rw [texts] at failed
          cases failed
  | object members =>
      rw [interpolate?, objectText?] at failed
      split at failed <;> cases failed
      exact .inl rfl
  | eof =>
      cases failed
      exact .inr rfl
  | unprintable =>
      cases failed
      exact .inl rfl
  | _ => cases failed

theorem elementTexts?_error {f : Fault} (vs : List Value) (failed : elementTexts? vs = .error f) :
    f = .noText ∨ f = .markerText := by
  cases vs with
  | nil => cases failed
  | cons v rest =>
      rw [elementTexts?] at failed
      split at failed
      next g first =>
        cases failed
        split at first
        · cases first
        · exact interpolate?_error v first
      next t first =>
        cases texts : elementTexts? rest with
        | error g =>
            rw [texts] at failed
            cases failed
            exact elementTexts?_error rest texts
        | ok ts =>
            rw [texts] at failed
            cases failed

end

theorem text?_error {v : Value} {f : Fault} (failed : v.text? = .error f) :
    f = .noText ∨ f = .markerText := by
  cases v with
  | eof => cases failed
  | _ => exact interpolate?_error _ failed

end Value

namespace Method

/-- The half that a method is for, if it sends on one or ends one that must be open. -/
def target? : StreamKind → Role → Method → Option Side
  | .download, .client, halfClose => some .responses
  | .download, .server, send _ => some .responses
  | .download, .server, fail _ => some .responses
  | .download, .server, sendRaw _ => some .responses
  | .upload, .client, send _ => some .requests
  | .upload, .client, sendRaw _ => some .requests
  | .upload, .client, halfClose => some .requests
  | .upload, .server, respond _ => some .responses
  | .upload, .server, fail _ => some .responses
  | .upload, .server, sendRaw _ => some .responses
  | _, _, _ => none

/-- Whether the argument of a method is what it must be. -/
def Proper : Method → Prop
  | send v => v.isNothing = false
  | respond v => v.isNothing = false
  | fail v => ∃ f, v = .fault f
  | sendRaw v => v.IsMessage
  | _ => True

/-- The errors that tell of an argument: that it is invalid, or that it has no text with which to
tell so. -/
inductive Complains : Method → Fault → Prop where
  | invalid {m} (complaint : String) : Complains m (.invalidArgument complaint)
  | unshown {v f} : v.Unshown f → Complains (.sendRaw v) f

end Method

namespace Entry

/-- What a method that is for a half comes to, as its argument goes. -/
inductive Checked (role : Role) (side : Side) (m : Method) : Entry → Prop where
  | passed {e} : m.Proper → Needs side e → Checked role side m e
  | invalid {complaint} : ¬ m.Proper → (∀ v f, m = .sendRaw v → ¬ v.Unshown f) →
    Checked role side m (.rejects (.invalidArgument complaint))
  | unshown {v f} : m = .sendRaw v → v.Unshown f →
    Checked role side m (if role = .client then .rejects f else .throws f)

end Entry

/-! ## What the methods check -/

namespace Value

theorem Unshown.not_isNothing {v : Value} {f : Fault} (unshown : v.Unshown f) :
    v.isNothing = false := by
  cases v with
  | undefined | null => cases unshown.text
  | _ => rfl

theorem Unshown.not_isMessage {v : Value} {f : Fault} (unshown : v.Unshown f) : ¬ v.IsMessage := by
  rintro (⟨kind, -⟩ | ⟨kind, -⟩)
  · exact unshown.kind.1 kind
  · exact unshown.kind.2 kind

theorem IsMessage.not_isNothing {v : Value} (message : v.IsMessage) : v.isNothing = false := by
  cases v with
  | undefined | null => rcases message with ⟨kind, -⟩ | ⟨kind, -⟩ <;> cases kind
  | _ => rfl

end Value

namespace Entry

variable {role : Role} {side : Side} {m : Method} {v : Value} {terminal relayed : Bool}

theorem Checked.ofPayload (proper : m.Proper ↔ v.isNothing = false)
    (shown : v.isNothing = true → ∀ w f, m = .sendRaw w → ¬ w.Unshown f) (parameter : String) :
    Checked role side m (.ofPayload side parameter terminal relayed v) := by
  unfold Entry.ofPayload
  split
  next none => exact .invalid (by simp [proper, none]) (shown none)
  next some => exact .passed (proper.mpr (by simpa using some)) rfl

theorem Checked.ofError (proper : m.Proper ↔ ∃ f, v = .fault f)
    (shown : (∀ f, v ≠ .fault f) → ∀ w f, m = .sendRaw w → ¬ w.Unshown f) (complaint : String) :
    Checked role side m (.ofError side complaint relayed v) := by
  unfold Entry.ofError
  split
  next f => exact .passed (proper.mpr ⟨f, rfl⟩) rfl
  next other => exact .invalid (by simpa [proper] using other) (shown other)

theorem Checked.ofRaw (parameter complaint : String) (final first second : Bool) :
    Checked role side (.sendRaw v)
      (.ofRaw v (.ofPayload side parameter final first) (.ofError side complaint second)
      fun f => if role = .client then .rejects f else .throws f) := by
  unfold Entry.ofRaw
  split
  next none =>
    refine .invalid (fun message => ?_) fun w f same unshown => ?_
    · rw [message.not_isNothing] at none
      cases none
    · cases same
      rw [unshown.not_isNothing] at none
      cases none
  · split
    next kind =>
      have proper : (Method.sendRaw v).Proper ↔ (v.member "payload").isNothing = false := by
        refine ⟨fun message => ?_, fun some => .inl ⟨kind, some⟩⟩
        rcases message with ⟨-, some⟩ | ⟨other, -⟩
        · exact some
        · exact absurd (kind.symm.trans other) (by simp)
      refine .ofPayload proper (fun _ w f same unshown => ?_) parameter
      cases same
      exact unshown.kind.1 kind
    next kind =>
      have proper : (Method.sendRaw v).Proper ↔ ∃ f, v.member "error" = .fault f := by
        refine ⟨fun message => ?_, fun error => .inr ⟨kind, error⟩⟩
        rcases message with ⟨other, -⟩ | ⟨-, error⟩
        · exact absurd (kind.symm.trans other) (by simp)
        · exact error
      refine .ofError proper (fun _ w f same unshown => ?_) complaint
      cases same
      exact unshown.kind.2 kind
    next other other' =>
      have strange : ¬ v.IsMessage := by
        rintro (⟨kind, -⟩ | ⟨kind, -⟩)
        · exact other kind
        · exact other' kind
      split
      next t shown =>
        refine .invalid strange fun w f same unshown => ?_
        cases same
        cases shown.symm.trans unshown.text
      next f failed => exact .unshown rfl ⟨⟨other, other'⟩, failed⟩

end Entry

namespace Method

variable {kind : StreamKind} {role : Role} {m : Method} {side : Side}

theorem Complains.not_streamClosed {f : Fault} (complains : m.Complains f) :
    f.isStreamClosed = false := by
  cases complains with
  | invalid => rfl
  | unshown unshown => rcases Value.text?_error unshown.text with rfl | rfl <;> rfl

/-- Every method that is for a half checks its argument first, and then the half. -/
theorem checked (target : m.target? kind role = some side) :
    Entry.Checked role side m (m.entry kind role) := by
  cases m with
  | send v =>
      cases kind <;> cases role <;> cases target
      all_goals exact .ofPayload Iff.rfl (fun _ _ _ same => by cases same) _
  | respond v =>
      cases kind <;> cases role <;> cases target
      exact .ofPayload Iff.rfl (fun _ _ _ same => by cases same) _
  | fail v =>
      cases kind <;> cases role <;> cases target
      all_goals exact .ofError Iff.rfl (fun _ _ _ same => by cases same) _
  | sendRaw v =>
      cases kind <;> cases role <;> cases target
      all_goals exact .ofRaw _ _ _ _ _
  | halfClose =>
      cases kind <;> cases role <;> cases target
      all_goals exact .passed trivial rfl
  | _ => cases kind <;> cases role <;> cases target

end Method

/-! ## Calls that come to nothing -/

namespace Call

/-- Whether a call is one of a method of a party of a stream. A client may be called under the name
under which it is kept. -/
inductive Enters (x : Exchange P) (i : StreamId) : Role → Method → Call → Prop where
  | stream {role m} : Enters x i role m (.stream i (.method role m))
  | kept {name m} : x.keptClient? name = some i → Enters x i .client m (.plugin (.method name m))

end Call

namespace Settlement

def dismissal (throws : Bool) (f : Fault) : Settlement :=
  if throws then .threw (.fault f) else .rejected (.fault f)

end Settlement

namespace Entry

/-- Whether a method comes to nothing: it is refused with an error for its argument, or by a half
that is closed. A method that does not give its caller a promise throws. -/
inductive Dismisses (closed : Side → Bool) : Fault → Bool → Entry → Prop where
  | rejects {f} : Dismisses closed f false (.rejects f)
  | throws {f} : Dismisses closed f true (.throws f)
  | needs {side e} : Needs side e → closed side = true → Dismisses closed .streamClosed false e

theorem dismisses_unshown {closed : Side → Bool} (role : Role) (f : Fault) :
    Dismisses closed f (decide (role = .server))
      (if role = .client then .rejects f else .throws f) := by
  cases role
  · exact .rejects
  · exact .throws

end Entry

namespace Scene

variable {s s' : Scene P} {n : Nat} {c : Call} {so : Settlement}

structure Decided (s : Scene P) (n : Nat) (c : Call) (so : Settlement) : Prop where
  numbered : s.Numbered
  called : .called n c ∈ s.events
  tally : s.tally n = 0
  settled : ∀ so', .settled n so' ∈ s.events ↔ so' = so

theorem Decided.shift (decided : s.Decided n c so) (other : ∀ event c', c ≠ .emitter event c')
    (shift : Shift s s') : s'.Decided n c so := by
  have apart : ¬ Event.Emitted s.events n := by
    rintro ⟨event, c', emitted⟩
    exact other event c' (decided.numbered.unique decided.called emitted)
  obtain ⟨tally, silent⟩ :=
    (shift.stir apart).silent (decided.numbered.below decided.called) decided.tally
  refine ⟨decided.numbered.shift shift, shift.later.mem decided.called, tally,
    fun so' => ⟨fun mem => ?_, ?_⟩⟩
  · exact (decided.settled so').mp (silent so' mem)
  · rintro rfl
    exact shift.later.mem ((decided.settled _).mpr rfl)

theorem Decided.shifts (decided : s.Decided n c so) (other : ∀ event c', c ≠ .emitter event c')
    (shifts : Shifts s s') : s'.Decided n c so := by
  induction shifts with
  | refl => exact decided
  | tail _ shift ih => exact ih.shift other shift

end Scene

namespace Exchange

variable {x y z : Exchange P} {i : StreamId} {role : Role} {m : Method} {f : Fault} {throws : Bool}
  {kinds : List StreamKind}

/-- The exchange after a call that came to nothing: the call is counted and has settled, and all the
rest is as it was. -/
def dismissed (c : Call) (so : Settlement) (x : Exchange P) : Exchange P :=
  { x with
    calls := x.calls + 1
    journal := .settled x.calls so :: .called x.calls c :: x.journal }

theorem enterEntry_of_dismisses {e : Entry}
    (dismisses : e.Dismisses (fun side => (x.half ⟨i, side⟩).closed) f throws) (t : Task P) :
      x.enterEntry i e t =
      if throws then x.push (.run (.returned (.error (.fault f)) t))
        else x.give (.error (.fault f)) t := by
  cases dismisses with
  | rejects | throws => rfl
  | needs needs closed =>
      cases e with
      | sends | closesOpen =>
          obtain rfl := needs
          exact if_pos closed
      | _ => exact needs.elim

theorem isPlain_of_dismisses {closed : Side → Bool} {e : Entry}
    (dismisses : e.Dismisses closed f throws) : e.isPlain = throws := by
  cases dismisses with
  | rejects | throws => rfl
  | needs needs => cases e <;> first | rfl | exact needs.elim

theorem clear_enterCall (n : Nat)
    (dismisses : (m.entry (x.kindOf i) role).Dismisses
      (fun side => (x.half ⟨i, side⟩).closed) f throws) :
    (x.enterCall i role m n).clear throws.toNat = x.record (.settled n (.dismissal throws f)) := by
  rw [enterCall, enterEntry_of_dismisses dismisses, isPlain_of_dismisses dismisses]
  cases throws <;> rfl

theorem startPlugin_kept {name : String} {n : Nat} (kept : x.keptClient? name = some i) :
    x.startPlugin n (.method name m) = x.enterCall i .client m n := by
  simp only [startPlugin, kept]

theorem clear_command {c : Call} (enters : c.Enters x i role m)
    (dismisses : (m.entry (x.kindOf i) role).Dismisses
      (fun side => (x.half ⟨i, side⟩).closed) f throws) :
    (x.command (.call c)).clear throws.toNat = x.dismissed c (.dismissal throws f) := by
  cases enters with
  | stream =>
      exact clear_enterCall (x := { x with calls := x.calls + 1 }.record (.called x.calls _))
        x.calls dismisses
  | @kept name m kept =>
      have known : ({ x with calls := x.calls + 1 }.record
          (.called x.calls (.plugin (.method name m)))).keptClient? name = some i := kept
      change (startPlugin x.calls (.method name m) _).clear _ = _
      rw [startPlugin_kept known]
      exact clear_enterCall (x := { x with calls := x.calls + 1 }.record (.called x.calls _))
        x.calls dismisses

/-- How a method is refused in a state. -/
structure Dismisses (x : Exchange P) (i : StreamId) (role : Role) (m : Method) (f : Fault)
    (throws : Bool) : Prop where
  /-- A call that begins is over with the piece of work that it puts first, if it throws, and at
  once if it does not. Apart from the call nothing is changed. -/
  unchanged : ∀ {y c}, Move (fun _ => True) x y → .called x.calls c ∈ y.journal →
    c.Enters x i role m →
    ∃ u, Poised x u ∧ y.clear throws.toNat = u.dismissed c (.dismissal throws f)
  /-- Whatever happens afterwards, this is how the call settled. -/
  settled : ∀ {y c z}, Move (fun _ => True) x y → .called x.calls c ∈ y.journal →
    c.Enters x i role m →
    Run (fun _ => True) (y.clear throws.toNat) z → ∀ so, .settled x.calls so ∈ z.journal ↔
    so = .dismissal throws f
  /-- A task that enters the method goes on with the error, and nothing else is changed. -/
  entered : ∀ {y t rest}, Move (fun _ => True) x y → x.agenda = .enter i role m t :: rest →
    y = if throws then { x with agenda := .run (.returned (.error (.fault f)) t) :: rest }
      else { x with agenda := rest }.give (.error (.fault f)) t

theorem Poised.enters {u : Exchange P} (poised : Poised x u) {c : Call}
    (enters : c.Enters x i role m) : c.Enters u i role m := by
  cases enters with
  | stream => exact .stream
  | kept kept => cases poised <;> exact .kept kept

theorem Poised.streams {u : Exchange P} (poised : Poised x u) : u.streams = x.streams := by
  cases poised <;> rfl

/-- A call that came to nothing is over. -/
theorem decided_dismissed {u : Exchange P} {c : Call} {so : Settlement}
    (run : Run (fun _ => True) (ofStreams P kinds) x) (poised : Poised x u)
    (reached : Run (fun _ => True) (ofStreams P kinds) (u.dismissed c so)) :
    ∃ ts, ((u.dismissed c so).scene ts).Decided x.calls c so := by
  obtain ⟨ts, numbered⟩ := reached.numbered
  obtain ⟨ts', before⟩ := run.numbered
  obtain ⟨calls, -, -, journal⟩ := poised.same
  have events : (u.dismissed c so).journal = .settled x.calls so :: .called x.calls c ::
      x.journal := by
    rw [dismissed, calls, journal]
  have threads : ((u.dismissed c so).scene ts).threads = (x.scene ts').threads := by
    have same := congrArg Scene.threads (poised.aside run.sober.work ts').rest
    exact same
  refine ⟨ts, numbered, (mem_events rfl ts).mpr (events ▸ by simp), ?_, fun so' => ?_⟩
  · rw [Scene.tally, threads]
    exact before.fresh.1
  · rw [mem_events rfl ts, events]
    have unsettled : .settled x.calls so' ∉ x.journal := fun mem =>
      before.fresh.2 so' ((mem_events rfl ts').mpr mem)
    simp [unsettled]

/-- A method that is refused as it begins is refused for good. -/
theorem dismisses_of_entry (run : Run (fun _ => True) (ofStreams P kinds) x)
    (dismisses : (m.entry (x.kindOf i) role).Dismisses
      (fun side => (x.half ⟨i, side⟩).closed) f throws) : x.Dismisses i role m f throws := by
  have unchanged {y c} (move : Move (fun _ => True) x y) (called : .called x.calls c ∈ y.journal)
      (enters : c.Enters x i role m) :
      ∃ u, Poised x u ∧ y.clear throws.toNat = u.dismissed c (.dismissal throws f) := by
    obtain ⟨ts, numbered⟩ := (run.step move).numbered
    obtain ⟨u, poised, rfl⟩ := move.begins numbered called
    refine ⟨u, poised, clear_command (poised.enters enters) ?_⟩
    have half (h : HalfId) : u.half h = x.half h := by rw [half, half, poised.streams]
    have kind : u.kindOf i = x.kindOf i := by rw [kindOf, kindOf, poised.streams]
    simpa only [half, kind] using dismisses
  refine ⟨unchanged, fun {y c z} move called enters later so => ?_,
    fun {y t rest} move agenda => ?_⟩
  · obtain ⟨u, poised, after⟩ := unchanged move called enters
    rw [after] at later
    have reached : Run (fun _ => True) (ofStreams P kinds) (u.dismissed c (.dismissal throws f)) :=
      after ▸ (run.step move).trans (run_clear throws.toNat y)
    obtain ⟨ts, decided⟩ := decided_dismissed run poised reached
    obtain ⟨ts', shifts⟩ := reached.shifts later ts
    have other (event : String) (c' : EmitterCall) : c ≠ .emitter event c' := by
      rintro rfl
      cases enters
    rw [← (decided.shifts other shifts).settled so]
    exact (mem_events rfl ts').symm
  · cases move with
    | @work w rest' first =>
        obtain ⟨rfl, rfl⟩ := List.cons.inj (first.symm.trans agenda)
        exact enterEntry_of_dismisses (x := { x with agenda := rest' }) dismisses t
    | resume nothing | command nothing => cases nothing.symm.trans agenda

theorem kindOf_eq {kind : StreamKind} (known : (x.streams[i]?).map (·.kind) = some kind) :
    x.kindOf i = kind := by
  rw [kindOf, known]
  rfl

/-- A method whose argument is improper, or that is for a half that is closed, comes to nothing as
it begins, whoever calls it and whatever else is under way: nothing but the call itself is changed.
The argument is checked first: the half that is closed is told of only if the argument is proper. -/
theorem calls_dismissed {kind : StreamKind} {side : Side}
    (run : Run (fun _ => True) (ofStreams P kinds) x)
    (known : (x.streams[i]?).map (·.kind) = some kind) (target : m.target? kind role = some side)
    (hindered : ¬ m.Proper ∨ (x.half ⟨i, side⟩).closed = true) :
    ∃ f throws, (m.Proper → f = .streamClosed ∧ throws = false) ∧
      (¬ m.Proper → m.Complains f ∧ f.isStreamClosed = false) ∧
      (throws = true → role = .server ∧ ∃ v, m = .sendRaw v ∧ v.Unshown f) ∧
      x.Dismisses i role m f throws := by
  have kind := kindOf_eq known
  have checked := Method.checked target
  rw [← kind] at checked
  generalize entry : m.entry (x.kindOf i) role = e at checked
  cases checked with
  | passed proper needs =>
      have closed := hindered.resolve_left (not_not_intro proper)
      refine ⟨.streamClosed, false, fun _ => ⟨rfl, rfl⟩, fun improper => absurd proper improper,
        fun serves => absurd serves Bool.false_ne_true, ?_⟩
      exact dismisses_of_entry run (entry ▸ .needs needs closed)
  | @invalid complaint improper =>
      have complains : m.Complains (.invalidArgument complaint) := .invalid complaint
      refine ⟨_, false, fun proper => absurd proper improper, fun _ => ⟨complains, rfl⟩,
        fun serves => absurd serves Bool.false_ne_true, ?_⟩
      exact dismisses_of_entry run (entry ▸ .rejects)
  | @unshown v f same unshown =>
      subst same
      have complains : (Method.sendRaw v).Complains f := .unshown unshown
      refine ⟨f, decide (role = .server), fun proper => absurd proper unshown.not_isMessage,
        fun _ => ⟨complains, complains.not_streamClosed⟩,
        fun serves => ⟨by simpa using serves, v, rfl, unshown⟩, ?_⟩
      exact dismisses_of_entry run (entry ▸ Entry.dismisses_unshown role f)

/-- The client of an upload waits for its request to be taken, and the response half is closed. -/
def halfShut : Exchange .idle :=
  let x := ((ofStreams .idle [.upload]).command
    (.call (.stream 0 (.method .client (.send (.bytes [1])))))).clear 20
  (x.command (.call (.stream 0 (.close .responses)))).clear 20

theorem run_halfShut : Run (fun _ => True) (ofStreams .idle [.upload]) halfShut := by
  have sent : Run (fun _ => True) (ofStreams .idle [.upload]) _ :=
    (Run.refl.step (.command (c := .call (.stream 0 (.method .client (.send (.bytes [1])))))
      rfl trivial)).trans (run_clear 20 _)
  exact (sent.step (.command (c := .call (.stream 0 (.close .responses))) rfl trivial)).trans
    (run_clear 20 _)

/-- A response that is missing is told of before the half that is closed, and the client waits as
before. -/
theorem halfShut_dismissed : (halfShut.half ⟨0, .responses⟩).closed = true ∧
    (halfShut.half ⟨0, .requests⟩).channel.senders.length = 1 ∧
    ∃ complaint, halfShut.command (.call (.stream 0 (.method .server (.respond .null)))) =
      halfShut.dismissed (.stream 0 (.method .server (.respond .null)))
        (.rejected (.fault (.invalidArgument complaint))) := by
  refine ⟨rfl, rfl, ?_⟩
  have known : (halfShut.streams[0]?).map (·.kind) = some .upload := rfl
  have target : (Method.respond .null).target? .upload .server = some .responses := rfl
  have improper : ¬ (Method.respond .null).Proper := by rintro ⟨⟩
  obtain ⟨f, throws, -, argument, throwing, dismisses⟩ :=
    calls_dismissed run_halfShut known target (.inl improper)
  have move : Move (fun _ => True) halfShut
      (halfShut.command (.call (.stream 0 (.method .server (.respond .null))))) :=
        .command rfl trivial
  obtain ⟨u, poised, unchanged⟩ :=
    dismisses.unchanged move (List.mem_of_getElem? (i := 1) rfl) .stream
  obtain rfl : throws = false := by
    cases throws
    · rfl
    · obtain ⟨-, v, same, -⟩ := throwing rfl
      cases same
  cases (argument improper).1 with
  | invalid complaint =>
      cases poised with
      | outside => exact ⟨complaint, unchanged⟩
      | inside agenda => cases agenda

/-- A raw message that is none is refused as it begins, by every party that takes raw messages and
in every state. The call rejects with the error that an argument is invalid, unless the complaint
would have to show a value that cannot be shown: then what fails is showing it, and servers throw.
-/
theorem malformed_dismissed {kind : StreamKind} {v : Value}
    (run : Run (fun _ => True) (ofStreams P kinds) x)
    (known : (x.streams[i]?).map (·.kind) = some kind) (raw : kind = .download → role = .server)
    (malformed : ¬ v.IsMessage) :
    ((∀ f, ¬ v.Unshown f) →
      ∃ complaint, x.Dismisses i role (.sendRaw v) (.invalidArgument complaint) false) ∧
    ∀ f, v.Unshown f → f.isInvalidArgument = false ∧
      x.Dismisses i role (.sendRaw v) f (decide (role = .server)) := by
  have kind := kindOf_eq known
  obtain ⟨side, target⟩ : ∃ side, (Method.sendRaw v).target? (x.kindOf i) role = some side := by
    rw [kind]
    cases role <;> cases ‹StreamKind› <;> first | exact ⟨_, rfl⟩ | cases raw rfl
  have checked := Method.checked target
  generalize entry : (Method.sendRaw v).entry (x.kindOf i) role = e at checked
  cases checked with
  | passed proper => exact absurd proper malformed
  | @invalid complaint _ shown =>
      refine ⟨fun _ => ⟨complaint, dismisses_of_entry run (entry ▸ .rejects)⟩, fun f unshown => ?_⟩
      exact absurd unshown (shown v f rfl)
  | @unshown w f same unshown =>
      cases same
      refine ⟨fun shown => absurd unshown (shown f), fun g unshown' => ?_⟩
      obtain rfl := Except.error.inj (unshown.text.symm.trans unshown'.text)
      refine ⟨?_, dismisses_of_entry run (entry ▸ Entry.dismisses_unshown role f)⟩
      rcases Value.text?_error unshown.text with rfl | rfl <;> rfl

/-- The server of the upload sends an error that is none, or a value that cannot be shown. -/
theorem halfShut_malformed :
    (∃ complaint, .settled 2 (.rejected (.fault (.invalidArgument complaint))) ∈ (halfShut.command
      (.call (.stream 0 (.method .server (.sendRaw (.rawError (.text "boom"))))))).journal) ∧
    .settled 2 (.threw (.fault .noText)) ∈ ((halfShut.command
      (.call (.stream 0 (.method .server (.sendRaw .unprintable))))).clear 1).journal := by
  have move (v : Value) : Move (fun _ => True) halfShut
      (halfShut.command (.call (.stream 0 (.method .server (.sendRaw v))))) := .command rfl trivial
  have known : (halfShut.streams[0]?).map (·.kind) = some .upload := rfl
  have raw : StreamKind.upload = .download → Role.server = .server := fun _ => rfl
  constructor
  · have malformed : ¬ (Value.rawError (.text "boom")).IsMessage := by
      rintro (⟨kind, -⟩ | ⟨-, f, same⟩)
      · simp [Value.rawError, Value.member, Value.ownMember?] at kind
      · cases same
    have shown (f : Fault) : ¬ (Value.rawError (.text "boom")).Unshown f :=
      fun unshown => unshown.kind.2 rfl
    obtain ⟨complaint, dismisses⟩ := (malformed_dismissed run_halfShut known raw malformed).1 shown
    refine ⟨complaint, ?_⟩
    exact (dismisses.settled (move _) (List.mem_of_getElem? (i := 1) rfl) .stream .refl _).mpr rfl
  · have malformed : ¬ Value.unprintable.IsMessage := by
      rintro (⟨⟨⟩, -⟩ | ⟨⟨⟩, -⟩)
    have unshown : Value.unprintable.Unshown .noText := ⟨⟨by rintro ⟨⟩, by rintro ⟨⟩⟩, rfl⟩
    obtain ⟨-, dismisses⟩ := (malformed_dismissed run_halfShut known raw malformed).2 _ unshown
    exact (dismisses.settled (move _) (List.mem_of_getElem? (i := 0) rfl) .stream .refl _).mpr rfl

end Exchange

end ObjectTransfer
