import ObjectTransfer.Proofs.Callings

/-! # What an awaited emission reports

The results of the listeners settle in any order after the emission, and some of them during it.
What the call that emitted comes to is told by its listeners and the gates (`Listener.verdict?`): a
throw prevails, then the failures that were there already when the last listener returned, the first
in the order of the listeners, and then the failure that comes first.
-/

namespace ObjectTransfer

variable {P : Plugin}

namespace Reply

def outcome? (gates : Gates P) : Reply → Option Outcome
  | nothing => some (.ok .undefined)
  | rejected v => some (.error v)
  | gate g => gates.outcome? g

def gate? : Reply → Option String
  | gate g => some g
  | _ => none

end Reply

/-- The settlements of gates after an earlier state, in order. -/
def Gates.since (later earlier : Gates P) : List (String × Outcome) :=
  (later.settled.take (later.settled.length - earlier.settled.length)).reverse

theorem Gates.outcome?_congr {earlier later : Gates P} (same : later.settled = earlier.settled) :
    later.outcome? = earlier.outcome? := by
  funext g
  rw [Gates.outcome?, same]
  rfl

theorem Gates.outcome?_settled {earlier later : Gates P} {name : String} {o : Outcome}
    (settled : later.settled = (name, o) :: earlier.settled) :
    later.outcome? = Function.update earlier.outcome? name (some o) := by
  funext g
  rw [Gates.outcome?, settled, List.find?_cons]
  by_cases same : g = name
  · subst same
    simp
  · have other : (name == g) = false := by simpa using Ne.symm same
    rw [Function.update_of_ne same]
    simp only [other]
    rfl

theorem Gates.since_same {earlier later : Gates P} (same : later.settled = earlier.settled) :
    later.since earlier = [] := by
  rw [Gates.since, same, Nat.sub_self]
  rfl

namespace Listener

variable {ls : List Listener} {before now now' : Gates P}

/-- The gates whose promises are results of these listeners. -/
def awaited (ls : List Listener) : List String := ls.filterMap (·.reply.gate?)

/-- The failure of an awaited emission that ended with the gates as they were before, if it has
failed now. -/
def failure? (ls : List Listener) (before now : Gates P) : Option Value :=
  (ls.findSome? Listener.thrown?).or <|
    (ls.findSome? fun l => Stage.gateFailure? (l.reply.outcome? before)).or <|
      (now.since before).findSome? fun s => if s.1 ∈ awaited ls
        then Stage.gateFailure? (some s.2) else none

/-- What an awaited emission has come to now that ended with the gates as they were before. -/
def verdict? (ls : List Listener) (before now : Gates P) : Option Outcome :=
  match failure? ls before now with
  | some v => some (.error v)
  | none => if ls.all fun l => (l.reply.outcome? now).isSome then some (.ok .undefined) else none

theorem mem_awaited {g : String} : g ∈ awaited ls ↔ ∃ l ∈ ls, l.reply = .gate g := by
  rw [awaited, List.mem_filterMap]
  refine exists_congr fun l => and_congr_right fun _ => ?_
  cases l.reply <;> simp [Reply.gate?]

theorem fine_awaited
    (unfailed : (ls.findSome? fun l => Stage.gateFailure? (l.reply.outcome? now)) = none) :
    Stage.Fine now.outcome? (awaited ls) := by
  intro g mem v failed
  obtain ⟨l, inside, reply⟩ := mem_awaited.mp mem
  have none := List.findSome?_eq_none_iff.mp unfailed l inside
  rw [reply, Reply.outcome?, failed] at none
  cases none

theorem failure?_congr (same : now'.settled = now.settled) :
    failure? ls before now' = failure? ls before now := by
  rw [failure?, Gates.since, same]
  rfl

theorem failure?_settled {name : String} {o : Outcome} (ls : List Listener)
    (past : before.settled <:+ now.settled) (settled : now'.settled = (name, o) :: now.settled) :
      failure? ls before now' =
      (failure? ls before now).or
        (if name ∈ awaited ls then Stage.gateFailure? (some o) else none) := by
  have since : now'.since before = now.since before ++ [(name, o)] := by
    have le := past.length_le
    rw [Gates.since, settled, List.length_cons, Nat.succ_sub le, List.take_succ_cons,
      List.reverse_cons]
    rfl
  rw [failure?, since, List.findSome?_append, List.findSome?_singleton, failure?, Option.or_assoc,
    Option.or_assoc]

/-- As long as nothing has failed, what an awaited emission has come to is what its gates have. -/
theorem verdict?_of_unfailed (unfailed : failure? ls before now = none)
    (fine : Stage.Fine now.outcome? (awaited ls)) {o : Outcome} :
    verdict? ls before now = some o ↔ Stage.ofGates now.outcome? (awaited ls) = .bound o := by
  have all : (ls.all fun l => (l.reply.outcome? now).isSome) =
      ((awaited ls).filter fun g => (now.outcome? g).isNone).isEmpty := by
    rw [Bool.eq_iff_iff, List.all_eq_true, List.isEmpty_iff, List.filter_eq_nil_iff]
    constructor
    · intro come g mem
      obtain ⟨l, inside, reply⟩ := mem_awaited.mp mem
      have came := come l inside
      rw [reply] at came
      simpa [Reply.outcome?, Option.isSome_iff_ne_none] using came
    · intro settled l mem
      cases reply : l.reply with
      | nothing | rejected => rfl
      | gate g =>
          simpa [Reply.outcome?, Option.isSome_iff_ne_none]
            using settled g (mem_awaited.mpr ⟨l, mem, reply⟩)
  rw [verdict?, unfailed, Stage.ofGates_of_fine fine, ← all]
  cases ls.all fun l => (l.reply.outcome? now).isSome <;> simp

end Listener

namespace Exchange

variable {x y z : Exchange P} {n : Nat} {ls : List Listener} {before : Gates P}

/-- The first result that failed is not waited for, and neither are the others then. -/
theorem awaitReplies_eq (ls : List Listener) (t : Task P) (x : Exchange P) :
    x.awaitReplies (ls.map Listener.reply) t =
      match ls.findSome? fun l => Stage.gateFailure? (l.reply.outcome? x.gates) with
      | some v => x.wake (.returned (.error v) t)
      | none => x.awaitGates (Listener.awaited ls) t := by
  have failure {f : Reply → Option Value}
      (same : ∀ r, f r = Stage.gateFailure? (r.outcome? x.gates)) :
      (ls.map Listener.reply).findSome? f =
        ls.findSome? fun l => Stage.gateFailure? (l.reply.outcome? x.gates) := by
    rw [List.findSome?_map, funext same]
    rfl
  simp only [awaitReplies, List.filterMap_map]
  rw [failure]
  · rfl
  · intro r
    cases r with
    | nothing | rejected => rfl
    | gate g =>
        simp only [Reply.outcome?]
        rcases x.gates.outcome? g with _ | _ | _ <;> rfl

/-! ## After the emission -/

/-- Whether a call failed as its listeners and the gates tell, or waits for gates none of which has
failed. -/
inductive Awaits (n : Nat) (ls : List Listener) (before : Gates P) (x : Exchange P)
    (ts : List (HandlerTurn P)) : Prop where
  | fails {v : Value} : Listener.failure? ls before x.gates = some v →
    (x.scene ts).Due n (.error v) → Awaits n ls before x ts
  | waits : Listener.failure? ls before x.gates = none →
    Stage.Fine x.gates.outcome? (Listener.awaited ls) →
    (x.scene ts).WaitsForGates n (Listener.awaited ls) → Awaits n ls before x ts

/-- Whether the call that emitted is as its listeners and the gates tell, since the emission ended.
-/
structure Told (n : Nat) (ls : List Listener) (before : Gates P) (x : Exchange P) :
    Prop extends Spared n x where
  past : before.settled <:+ x.gates.settled
  comes : ∃ ts, (x.scene ts).Accounted n ∧ Awaits n ls before x ts

variable {kinds : List StreamKind}

theorem Concludes.told (absent : Absent n x) (concludes : Concludes n ls x y) :
    Told n ls x.gates y := by
  obtain ⟨spared, -, gates⟩ := concludes.spared absent.toSpared
  obtain ⟨ts, vacant⟩ := absent.vacant
  have failure : Listener.failure? ls x.gates y.gates = (ls.findSome? Listener.thrown?).or
      (ls.findSome? fun l => Stage.gateFailure? (l.reply.outcome? x.gates)) := by
    rw [Listener.failure?, Gates.since_same gates, List.findSome?_nil, Option.or_none]
  have fails {v : Value} (scene : y.scene ts = (x.scene ts).add [⟨.bound (.error v), [], .call n⟩])
      (failed : Listener.failure? ls x.gates y.gates = some v) : Told n ls x.gates y := by
    refine ⟨spared, gates ▸ List.suffix_rfl, ts, ?_⟩
    exact ⟨scene ▸ (vacant.join _ _).1, .fails failed (scene ▸ vacant.due _)⟩
  cases concludes with
  | throws thrown =>
      refine fails ((scene_wake _ x ts).trans (Scene.await_nil _)) ?_
      rw [failure, thrown]
      rfl
  | completes return_ =>
      have none : ls.findSome? Listener.thrown? = none := List.findSome?_eq_none_iff.mpr return_
      rw [none, Option.none_or] at failure
      have replies := awaitReplies_eq ls ⟨[], .call n⟩ x
      cases failed : ls.findSome? fun l => Stage.gateFailure? (l.reply.outcome? x.gates) with
      | some v =>
          rw [failed] at replies
          refine fails ?_ (failure.trans failed)
          rw [replies]
          exact (scene_wake _ x ts).trans (Scene.await_nil _)
      | none =>
          rw [failed] at replies
          rw [replies] at failure spared gates ⊢
          have scene := scene_awaitGates (Listener.awaited ls) ⟨[], .call n⟩ x ts
          refine ⟨spared, gates ▸ List.suffix_rfl, ts, scene ▸ (vacant.join _ _).1,
            .waits (failure.trans failed) ?_ ?_⟩
          · rw [Gates.outcome?_congr gates]
            exact Listener.fine_awaited failed
          · exact scene ▸ vacant.waitsForGates _

theorem Awaits.stays {ts} (unfailed : Listener.failure? ls before x.gates = none)
    (fine : Stage.Fine x.gates.outcome? (Listener.awaited ls))
    (same : y.gates.settled = x.gates.settled)
    (waits : (y.scene ts).WaitsOrFails n (Listener.awaited ls)) : Awaits n ls before y ts := by
  cases waits with
  | waits fine waiting =>
      exact .waits ((Listener.failure?_congr same).trans unfailed) fine waiting
  | @fails name v mem failed =>
      change y.gates.outcome? name = _ at failed
      rw [Gates.outcome?_congr same] at failed
      exact absurd failed (fine name mem v)

theorem Awaits.settled {ts} (unfailed : Listener.failure? ls before x.gates = none)
    (fine : Stage.Fine x.gates.outcome? (Listener.awaited ls))
    (past : before.settled <:+ x.gates.settled) {name : String} {o : Outcome}
    (settled : y.gates.settled = (name, o) :: x.gates.settled)
    (waits : (y.scene ts).WaitsOrFails n (Listener.awaited ls)) : Awaits n ls before y ts := by
  have outcomes := Gates.outcome?_settled settled
  have failure := Listener.failure?_settled ls past settled
  rw [unfailed, Option.none_or] at failure
  cases waits with
  | waits fine' waiting =>
      refine .waits (failure.trans ?_) fine' waiting
      split
      next mem =>
        cases o with
        | ok => rfl
        | error v =>
            have failed : y.gates.outcome? name = some (.error v) := by
              rw [outcomes, Function.update_self]
            exact absurd failed (fine' name mem v)
      · rfl
  | @fails name' v mem failed due =>
      change y.gates.outcome? name' = _ at failed
      rw [outcomes] at failed
      obtain rfl : name' = name := by
        by_contra other
        rw [Function.update_of_ne other] at failed
        exact fine name' mem v failed
      rw [Function.update_self] at failed
      cases failed
      exact .fails (failure.trans (if_pos mem)) due

theorem Told.move (told : Told n ls before x) (run : Run (fun _ => True) (ofStreams P kinds) x)
    (move : Move (fun _ => True) x y) : Told n ls before y := by
  obtain ⟨ts, accounted, awaits⟩ := told.comes
  have sober (w rest) (agenda : x.agenda = w :: rest) : w.Sober (x.Others n) :=
    told.agenda w (agenda ▸ List.mem_cons_self)
  have stirs := move.stirs run.guarded sober ts
  have settles := move.gates_cases
  have past : before.settled <:+ y.gates.settled := by
    rcases settles with same | ⟨name, o, settled⟩
    · exact same ▸ told.past
    · exact settled ▸ told.past.trans (List.suffix_cons _ _)
  refine ⟨told.toSpared.move run move, past, _,
    stirs.keeps told.begun accounted Scene.Accounted.stir, ?_⟩
  cases awaits with
  | @fails v failed due =>
      refine .fails (v := v) ?_ (stirs.keeps told.begun due Scene.Due.stir)
      rcases settles with same | ⟨name, o, settled⟩
      · exact (Listener.failure?_congr same).trans failed
      · rw [Listener.failure?_settled ls told.past settled, failed]
        rfl
  | waits unfailed fine waiting =>
      have waits := stirs.keeps told.begun (.waits fine waiting) Scene.WaitsOrFails.stir
      rcases settles with same | ⟨name, o, settled⟩
      · exact .stays unfailed fine same waits
      · exact .settled unfailed fine told.past settled waits

theorem Run.told (told : Told n ls before x) (run : Run (fun _ => True) (ofStreams P kinds) x)
    (later : Run (fun _ => True) x y) : Told n ls before y := by
  induction later with
  | refl => exact told
  | step before' move ih => exact ih.move (run.trans before') move

/-- What the call settles with is what its listeners and the gates tell. -/
theorem Told.settled (told : Told n ls before x) {so : Settlement}
    (settled : .settled n so ∈ x.journal) :
    ∃ o, so = .ofPromise o ∧ Listener.verdict? ls before x.gates = some o := by
  obtain ⟨ts, -, awaits⟩ := told.comes
  have shown : .settled n so ∈ (x.scene ts).events := (mem_events rfl ts).mpr settled
  rcases awaits with ⟨failed, due⟩ | ⟨unfailed, fine, waiting⟩
  · exact ⟨_, due.settled so shown, by rw [Listener.verdict?, failed]⟩
  · obtain ⟨o, stage, rfl⟩ := waiting.settled so shown
    exact ⟨o, rfl, (Listener.verdict?_of_unfailed unfailed fine).mpr stage⟩

/-- And it settles when that is decided. -/
theorem Told.leads (told : Told n ls before x) {o : Outcome}
    (verdict : Listener.verdict? ls before x.gates = some o) : x.Leads n (.ofPromise o) := by
  obtain ⟨ts, accounted, awaits⟩ := told.comes
  refine leads_of_due accounted ?_
  rcases awaits with ⟨failed, due⟩ | ⟨unfailed, fine, waiting⟩
  · rw [Listener.verdict?, failed] at verdict
    cases verdict
    exact due
  · exact waiting.due ((Listener.verdict?_of_unfailed unfailed fine).mp verdict)

/-- It fulfils only after all the results have. -/
theorem Told.fulfilled (told : Told n ls before x) {v : Value}
    (settled : .settled n (.fulfilled v) ∈ x.journal) {l : Listener} (mem : l ∈ ls) :
    l.Returns ∧ ∃ w, l.reply.outcome? x.gates = some (.ok w) := by
  obtain ⟨o, same, verdict⟩ := told.settled settled
  obtain ⟨ts, -, ⟨failed, -⟩ | ⟨unfailed, fine, -⟩⟩ := told.comes
  · rw [Listener.verdict?, failed] at verdict
    cases verdict
    cases same
  · have unfailed' := unfailed
    rw [Listener.failure?, Option.or_eq_none_iff, Option.or_eq_none_iff] at unfailed'
    obtain ⟨unthrown, early, -⟩ := unfailed'
    refine ⟨List.findSome?_eq_none_iff.mp unthrown l mem, ?_⟩
    cases reply : l.reply with
    | nothing => exact ⟨_, rfl⟩
    | rejected w =>
        have none := List.findSome?_eq_none_iff.mp early l mem
        rw [reply] at none
        cases none
    | gate g =>
        simp only [Listener.verdict?, unfailed, List.all_eq_true] at verdict
        split at verdict
        next come =>
          have came := come l mem
          rw [reply] at came
          obtain ⟨o', outcome⟩ := Option.isSome_iff_exists.mp came
          cases o' with
          | ok w => exact ⟨w, outcome⟩
          | error w => exact absurd outcome (fine g (Listener.mem_awaited.mpr ⟨l, mem, reply⟩) w)
        · cases verdict

/-! ## Runs -/

/-- The listeners for every emission are called first. Those for the next one follow, unless one of
the others throws. -/
theorem reached_listeners (e : Emitter) (event : String) :
    Listener.reached (e.listeners event) =
      if ∀ l ∈ (e.registrations event).lasting.listeners, l.Returns then
        (e.registrations event).lasting.listeners ++
          Listener.reached (e.registrations event).once.listeners
      else Listener.reached (e.registrations event).lasting.listeners := by
  rw [Emitter.listeners_eq]
  split
  next return_ => exact Listener.reached_of_return return_ _
  next throws => exact Listener.reached_append_of_throws throws _

/-- However an emitter is used, by listeners as well: an awaited emission calls the listeners that
are registered for its event as the call begins, in their order and up to the first that throws, and
no others. Its call does not settle before. Then it settles only as a promise and as its listeners
and the gates tell, and it does as soon as that is decided; it fulfils only after every listener
returned and every result fulfilled. -/
theorem emission_reported {event : String} {v : Value} {heard : List (String × Value)}
    (run : Run (fun _ => True) (ofStreams P kinds) x) (move : Move (fun _ => True) x y)
    (called : .called x.calls (.emitter event (.emitAndWait v)) ∈ y.journal)
    (recounts : Recounts x.calls y heard z) :
    (z.Emits x.calls ∧
      heard <+: (Listener.reached (x.emitter.listeners event)).filterMap (·.hearing? v) ∧
      ∀ so, .settled x.calls so ∉ z.journal) ∨
    ¬ z.Emits x.calls ∧
      heard = (Listener.reached (x.emitter.listeners event)).filterMap (·.hearing? v) ∧
      ∃ u u', Ceases x.calls y u u' z ∧
        (∀ so, .settled x.calls so ∈ z.journal →
          ∃ o, so = .ofPromise o ∧
          Listener.verdict? (x.emitter.listeners event) u.gates z.gates = some o) ∧
        (z.isQuiet = true →
          ∀ o, Listener.verdict? (x.emitter.listeners event) u.gates z.gates = some o →
          .settled x.calls (.ofPromise o) ∈ z.journal) ∧
        ∀ w, .settled x.calls (.fulfilled w) ∈ z.journal →
          ∀ l ∈ x.emitter.listeners event, l.Returns ∧ ∃ w, l.reply.outcome? z.gates =
            some (.ok w) := by
  have reached := run.step move
  rcases recounts.underway (move.underway run called) reached with
    ⟨done, underway, rfl⟩ | ⟨all, w, w', ceases, after, absent, concludes⟩
  · obtain ⟨ts, vacant⟩ := underway.vacant
    refine .inl ⟨underway.emits, underway.prefix.filterMap _, fun so settled => ?_⟩
    exact vacant.unsettled so ((mem_events rfl ts).mpr settled)
  · have told :=
      Run.told (concludes.told absent) ((reached.trans ceases.before).step ceases.move) ceases.after
    refine .inr ⟨told.emits, all, w, w', ceases, fun so => told.settled, fun quiet o verdict => ?_,
      fun w settled l => told.fulfilled settled⟩
    exact (told.leads verdict).2 quiet

/-- Three listeners are registered, the last one for the next emission. The first of them withdraws
the second, and with it the last as that one waits alone, registers another one and waits for a
gate. -/
def shifting : Exchange .idle :=
  let first : Listener :=
    .script "a" [.performs (.call (.emitter "e" (.unsubscribe (.script "b" [])))),
    .performs (.call (.emitter "e" (.subscribe (.script "c" [])))), .waits "g"]
  let x := ((ofStreams .idle []).command (.call (.emitter "e" (.subscribe first)))).advance 9
  let x := (x.command (.call (.emitter "e" (.subscribe (.script "b" []))))).advance 9
  (x.command (.call (.emitter "e" (.subscribeOnce (.script "d" [.waits "h"]))))).advance 9

/-- The event is emitted with waiting, and then the gates are settled. -/
def shifted : Exchange .idle :=
  let x := (shifting.command (.call (.emitter "e" (.emitAndWait .null)))).advance 30
  let x := (x.command (.settle "h" (.error (.text "late")))).advance 9
  (x.command (.settle "g" (.error (.text "later")))).advance 9

/-- The other two listeners are called although they are withdrawn by then, and the new one is not.
-/
theorem shifted_reported : (shifted.emitter.listeners "e").map Listener.tag = ["a", "c"] ∧
    .settled 3 (.rejected (.text "late")) ∈ shifted.journal ∧
    ∃ heard,
      Recounts 3 (shifting.command (.call (.emitter "e" (.emitAndWait .null)))) heard shifted ∧
      heard = [("a", .null), ("b", .null), ("d", .null)] := by
  have run : Run (fun _ => True) (ofStreams .idle []) shifting :=
    ((Run.refl.command rfl trivial (c := .call (.emitter "e" (.subscribe _))) 9).command rfl trivial
      (c := .call (.emitter "e" (.subscribe (.script "b" [])))) 9).command rfl trivial
      (c := .call (.emitter "e" (.subscribeOnce (.script "d" [.waits "h"])))) 9
  have move :
      Move (fun _ => True) shifting
      (shifting.command (.call (.emitter "e" (.emitAndWait .null)))) :=
    .command rfl trivial
  have later :
      Run (fun _ => True) (shifting.command (.call (.emitter "e" (.emitAndWait .null)))) shifted :=
    ((run_advance 30 _).command rfl trivial (c := .settle "h" (.error (.text "late"))) 9).command
      rfl trivial (c := .settle "g" (.error (.text "later"))) 9
  obtain ⟨heard, recounts⟩ := later.recounts 3
  refine ⟨rfl, List.mem_of_getElem? (i := 0) rfl, heard, recounts, ?_⟩
  have called : .called 3 (.emitter "e" (.emitAndWait .null)) ∈
      (shifting.command (.call (.emitter "e" (.emitAndWait .null)))).journal := List.mem_cons_self
  rcases emission_reported run move called recounts with ⟨emits, -⟩ | ⟨-, all, -⟩
  · obtain ⟨w, mem, -⟩ := emits
    cases mem
  · exact all

/-- Two listeners wait for gates that failed before the emission, in the other order. -/
def crossed : Exchange .idle :=
  let x :=
    ((ofStreams .idle []).command
      (.call (.emitter "e" (.subscribe (.script "a" [.waits "g"]))))).advance 9
  let x := (x.command (.call (.emitter "e" (.subscribe (.script "b" [.waits "h"]))))).advance 9
  let x := (x.command (.settle "h" (.error (.text "first")))).advance 9
  let x := (x.command (.settle "g" (.error (.text "second")))).advance 9
  (x.command (.call (.emitter "e" (.emitAndWait .null)))).advance 9

/-- The earlier failure is not the one that is reported. -/
theorem crossed_rejected :
    (crossed.emitter.listeners "e").map Listener.reply = [.gate "g", .gate "h"] ∧
    crossed.gates.settled.reverse =
      [("h", .error (.text "first")), ("g", .error (.text "second"))] ∧
    .settled 2 (.rejected (.text "second")) ∈ crossed.journal ∧
    .settled 2 (.rejected (.text "first")) ∉ crossed.journal := by
  refine ⟨rfl, rfl, List.mem_of_getElem? (i := 0) rfl, ?_⟩
  have journal :
      ∃ c c' c'', crossed.journal = [.settled 2 (.rejected (.text "second")), .heard "b" .null,
      .heard "a" .null, .called 2 c, .settled 1 (.returned .undefined), .called 1 c',
      .settled 0 (.returned .undefined), .called 0 c''] := ⟨_, _, _, rfl⟩
  obtain ⟨c, c', c'', journal⟩ := journal
  simp [journal]

end Exchange

end ObjectTransfer
