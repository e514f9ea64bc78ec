import ObjectTransfer.Proofs.Lines
import ObjectTransfer.Proofs.Quiet

/-! # Exactly once, in order

Over one stream that serves no call, any calls of the methods of its parties may overlap, and its
halves may be closed from outside at any time. On each half the messages that are obtained are the
first ones offered, each by the call whose turn it is, and every call learns what became of its own
(`Exchange.inOrder`).
-/

namespace ObjectTransfer

variable {P : Plugin}

/-- What may be done to a single stream. -/
def Command.OnStream : Command → Prop
  | .call (.stream i (.method _ _)) => i = 0
  | .call (.stream i (.close _)) => i = 0
  | _ => False

def StreamKind.Carries (kind : StreamKind) (side : Side) : Prop :=
  kind = .upload ∨ side = .responses

theorem Method.carries {kind : StreamKind} {role : Role} {m : Method}
    {side message terminal relayed}
    (entry : m.entry kind role = .sends side message terminal relayed) : kind.Carries side := by
  cases kind with
  | upload => exact .inl rfl
  | download =>
      refine .inr ?_
      have payload {v} (sends : Entry.ofPayload .responses "res" false false v =
          .sends side message terminal relayed) : side = .responses := by
        simp only [Entry.ofPayload] at sends
        split at sends <;> cases sends
        rfl
      have error {v} (sends : Entry.ofError .responses Entry.errorParameter false v =
          .sends side message terminal relayed) : side = .responses := by
        simp only [Entry.ofError] at sends
        split at sends <;> cases sends
        rfl
      cases role with
      | client => cases m <;> cases entry
      | server =>
          cases m with
          | send => exact payload entry
          | fail => exact error entry
          | sendRaw v =>
              simp only [Method.entry, Entry.ofRaw] at entry
              split at entry
              · cases entry
              · split at entry
                · exact payload entry
                · exact error entry
                · split at entry <;> cases entry
          | _ => cases entry

theorem Work.asker?_thread {h : HalfId} {w : Work P} {o : Owner} (asker : w.asker? h = some o) :
    ∃ th ∈ w.threads, th.owner = o := by
  fun_induction Work.asker? h w with
  | case1 h' next ih =>
      obtain ⟨th, mem, owner⟩ := ih asker
      exact ⟨_, List.mem_map_of_mem mem, owner⟩
  | case2 t => exact ⟨_, List.mem_singleton_self _, Option.some.inj asker⟩
  | case3 | case4 => exact nomatch asker

/-! ## What the events tell -/

def Event.number? : Event → Option Nat
  | called n _ => some n
  | _ => none

theorem Event.number?_of_not_call {e : Event} (quiet : ¬ e.IsCall) : e.number? = none := by
  cases e with
  | called => exact absurd trivial quiet
  | _ => rfl

namespace Scene

/-- What the events tell of the numbers of calls, and of the halves of the only stream. -/
structure Tracked (kind : StreamKind) (s : Scene P) : Prop where
  owned : s.Owned
  kinds : [kind] <+: s.kinds
  rising : (Event.history (·.number?) s.events).Pairwise (· < ·)
  below : ∀ n ∈ Event.history (·.number?) s.events, n < s.calls
  closures : ∀ side, kind.Carries side →
    s.closed ⟨0, side⟩ = s.events.any (·.closes ⟨0, side⟩)

variable {kind : StreamKind} {s s' : Scene P}

theorem Step.closures (step : Step s s') {h : HalfId} (lt : h.stream < s.kinds.length)
    (closures : s.closed h = s.events.any (·.closes h)) :
    s'.closed h = s'.events.any (·.closes h) := by
  have silent (es : List Event) (none : ∀ e ∈ es, e.closes h = false) :
      s.closed h = (es ++ s.events).any (·.closes h) := by
    rw [List.any_append, List.any_eq_false.mpr (by simpa using none), closures]
    rfl
  cases step with
  | @solo th ths es rest threads solo =>
      refine silent _ fun e mem => ?_
      cases solo with
      | received =>
          obtain rfl := List.mem_singleton.mp mem
          rfl
      | write =>
          obtain ⟨r, -, remarked⟩ := List.mem_filterMap.mp (List.mem_reverse.mp mem)
          cases r <;> cases remarked <;> rfl
      | @settle o w =>
          cases w <;> simp only [Owner.events, List.mem_singleton, List.not_mem_nil] at mem <;>
            subst mem <;> rfl
      | _ => exact absurd mem List.not_mem_nil
  | @handle o i state =>
      refine silent _ fun e mem => ?_
      obtain ⟨_, _, _, rfl⟩ := Act.eq_did mem
      rfl
  | @close h' =>
      change Function.update s.closed h' true h = (Event.closes h (.closed h') || _)
      by_cases same : h = h'
      · subst same
        simp [Event.closes]
      · rw [Function.update_of_ne same, closures]
        simp [Event.closes, Ne.symm same]
  | start | gate | strike | count | notice => exact closures
  | meet => exact silent [_] (List.forall_mem_singleton.mpr rfl)
  | call => exact silent [_] (List.forall_mem_singleton.mpr rfl)
  | opening =>
      refine .trans (if_neg (Nat.ne_of_lt lt)) (silent [_, _] ?_)
      simp [Event.closes]

theorem Tracked.called (tracked : s.Tracked kind) {c : Call} (es : List Event)
    (events : s'.events = es ++ .called s.calls c :: s.events) (other : ∀ e ∈ es, e.number? = none)
    (calls : s'.calls = s.calls + 1) :
    (Event.history (·.number?) s'.events).Pairwise (· < ·) ∧
      ∀ n ∈ Event.history (·.number?) s'.events, n < s'.calls := by
  have grown : Event.history (·.number?) s'.events =
      Event.history (·.number?) s.events ++ [s.calls] := by
    rw [events, Event.history_append, Event.history_of_none other, List.append_nil,
      ← List.singleton_append, Event.history_append]
    rfl
  rw [grown, calls, List.pairwise_append]
  refine ⟨⟨tracked.rising, List.pairwise_singleton _ _, ?_⟩, ?_⟩
  · simpa using tracked.below
  · intro n mem
    rcases List.mem_append.mp mem with old | new
    · exact Nat.lt_succ_of_lt (tracked.below n old)
    · exact List.mem_singleton.mp new ▸ Nat.lt_succ_self _

theorem Tracked.step (tracked : s.Tracked kind) (step : Step s s') : s'.Tracked kind := by
  have numbers : (Event.history (·.number?) s'.events).Pairwise (· < ·) ∧
      ∀ n ∈ Event.history (·.number?) s'.events, n < s'.calls := by
    rcases step.events_cases with ⟨es, events, quiet, -, calls, -⟩ | ⟨c, -, rfl⟩ | ⟨c, _, _, -, rfl⟩
    · have silent := Event.history_of_none fun e mem => Event.number?_of_not_call (quiet e mem)
      rw [events, Event.history_append, silent, List.append_nil, calls]
      exact ⟨tracked.rising, tracked.below⟩
    · exact tracked.called [] rfl nofun rfl
    · exact tracked.called [_] rfl (List.forall_mem_singleton.mpr rfl) rfl
  refine ⟨tracked.owned.step step, tracked.kinds.trans step.later.kinds, numbers.1, numbers.2,
    fun side carries => ?_⟩
  exact step.closures tracked.kinds.length_le (tracked.closures side carries)

theorem Tracked.steps (tracked : s.Tracked kind) (steps : Steps s s') : s'.Tracked kind := by
  induction steps with
  | refl => exact tracked
  | tail _ step ih => exact ih.step step

end Scene

/-! ## Steps of an exchange -/

namespace Exchange

variable {kind : StreamKind} {x y : Exchange P} {h : HalfId}

/-- An exchange over one stream, where everybody waits in line. -/
structure Orderly (kind : StreamKind) (x : Exchange P) : Prop where
  direct : x.Direct
  tracked : (x.scene []).Tracked kind
  lines : ∀ h, ∃ met sends receives, Line kind x x.Due h []
    (x.agenda.filterMap (·.asker? h)) met sends receives

theorem kindOf_of_tracked (tracked : (x.scene []).Tracked kind) : x.kindOf 0 = kind := by
  obtain ⟨rest, kinds⟩ := tracked.kinds
  rw [← kindOf_scene x [] 0, Scene.kindOf, ← kinds]
  rfl

/-- Turns of handlers aside, steps of the scene keep what is known. -/
theorem tracked_of_steps {s : Scene P} (tracked : s.Tracked kind) {ts}
    (steps : Scene.Steps s (y.scene ts)) : (y.scene []).Tracked kind := by
  have after := tracked.steps steps
  exact ⟨⟨after.owned.nodup, after.owned.settled, after.owned.calls, after.owned.services,
    after.owned.kept⟩, after.kinds, after.rising, after.below, after.closures⟩

/-- The scene in which a call on the stream begins. -/
def beginning (c : StreamCall) (st : Stage) (owner : Owner) (x : Exchange P) : Scene P :=
  ((x.begun 0 c).scene []).add [⟨st, [], owner⟩]

theorem beginning_tracked (tracked : (x.scene []).Tracked kind) (c : StreamCall) (st : Stage)
    (owner : Owner) (named : owner.name? = some (.inl x.calls)) :
    (x.beginning c st owner).Tracked kind := by
  have events : (x.beginning c st owner).events =
      .called x.calls (.stream 0 c) :: (x.scene []).events := rfl
  obtain ⟨rising, below⟩ := tracked.called (c := .stream 0 c) [] events nofun rfl
  have threads : (x.beginning c st owner).threads = ⟨st, [], owner⟩ ::ₘ (x.scene []).threads := rfl
  have owned : (x.beginning c st owner).Owned :=
    tracked.owned.entered threads named rfl rfl events nofun
  refine ⟨owned, tracked.kinds, rising, below, fun side carries => ?_⟩
  rw [events]
  exact tracked.closures side carries

theorem beginning_due (tracked : (x.scene []).Tracked kind) (c : StreamCall) (st : Stage)
    {owner : Owner} (named : owner.name? = some (.inl x.calls)) {n : Nat} {o : Outcome}
    (due : x.Due n o) : (x.beginning c st owner).Due n o ∧ n < (x.beginning c st owner).calls := by
  have lt := due.lt tracked.owned
  exact ⟨due.due.entered lt rfl named rfl nofun, Nat.lt_succ_of_lt lt⟩

theorem Orderly.next {w : Work P} {rest : List (Work P)} (orderly : x.Orderly kind)
    (agenda : x.agenda = w :: rest) :
    rest = [] ∧ w.Direct ∧ Exchange.push w { x with agenda := [] } = x := by
  obtain ⟨rfl, wd⟩ : rest = [] ∧ w.Direct := by
    rcases orderly.direct.agenda with nothing | ⟨w', only, direct⟩
    · exact nomatch agenda.symm.trans nothing
    · obtain ⟨rfl, rfl⟩ := List.cons.inj (agenda.symm.trans only)
      exact ⟨rfl, direct⟩
  exact ⟨rfl, wd, by rw [push, ← agenda]⟩

theorem Orderly.work_steps {w : Work P} {rest : List (Work P)} (orderly : x.Orderly kind)
    (agenda : x.agenda = w :: rest) :
    Scene.Steps (x.scene []) ((Exchange.work w { x with agenda := rest }).scene []) := by
  obtain ⟨rfl, wd, pushed⟩ := orderly.next agenda
  have steps := scene_work orderly.direct.idle.calm (wd.calm _).1 []
  rw [pushed] at steps
  have unturned : x.handlerTurn? = none := by
    unfold handlerTurn?
    split
    next ahead =>
      cases agenda.symm.trans ahead
      exact nomatch wd _ List.mem_cons_self
    next => rfl
  rwa [unturned] at steps

theorem Orderly.work {w : Work P} {rest : List (Work P)} (orderly : x.Orderly kind)
    (agenda : x.agenda = w :: rest) : (Exchange.work w { x with agenda := rest }).Orderly kind := by
  have steps := orderly.work_steps agenda
  obtain ⟨rfl, wd, pushed⟩ := orderly.next agenda
  have idle := orderly.direct.idle
  refine ⟨idle.work rfl wd, tracked_of_steps orderly.tracked steps, fun h => ?_⟩
  obtain ⟨met, sends, receives, line⟩ := orderly.lines h
  have asker : x.agenda.filterMap (·.asker? h) = (w.asker? h).toList := by
    rw [← pushed]
    exact askers_push rfl w
  rw [asker] at line
  have idleLine : Line kind { x with agenda := [] } x.Due h [] (w.asker? h).toList met sends
      receives :=
    ⟨line.accepted, line.asked, line.passed, line.finished, line.senders, line.receivers,
      line.refused, line.ended, line.asking⟩
  exact idleLine.work idle rfl wd
    (.of_steps orderly.tracked.owned (fun due => ⟨due.due, due.lt orderly.tracked.owned⟩) steps)

theorem Orderly.resume (orderly : x.Orderly kind) (quiet : x.agenda = []) {place : Nat}
    (lt : place < x.ready.length) : (x.resume place).Orderly kind := by
  have scene := scene_resume quiet lt []
  have steps : Scene.Steps (x.scene []) ((x.resume place).scene []) := .of_eq scene.symm
  refine ⟨orderly.direct.resume place, tracked_of_steps orderly.tracked steps, fun h => ?_⟩
  obtain ⟨met, sends, receives, line⟩ := orderly.lines h
  have silent : (x.resume place).agenda.filterMap (·.asker? h) = [] := by
    unfold Exchange.resume
    rw [List.getElem?_eq_getElem lt]
    rfl
  have spares : Spares h x (x.resume place) := by
    unfold Exchange.resume
    rw [List.getElem?_eq_getElem lt]
    exact ⟨rfl, rfl, [], rfl, nofun⟩
  rw [quiet] at line
  rw [silent]
  exact ⟨met, sends, receives, line.spared spares
    (.of_steps orderly.tracked.owned (fun due => ⟨due.due, due.lt orderly.tracked.owned⟩) steps)⟩

/-- Where messages are offered the events tell whether the half is closed. -/
theorem guarded_of_tracked (tracked : (x.scene []).Tracked kind) (h : HalfId) (role : Role)
    (m : Method) :
    (x.half h).closed = x.journal.any (·.closes h) ∨
      (Event.called x.calls (.stream 0 (.method role m))).offerOn? kind h = none := by
  simp only [Event.offerOn?, Event.entry?]
  split
  next n i side message terminal relayed same =>
    obtain ⟨rfl, rfl, entry⟩ : x.calls = n ∧ 0 = i ∧ m.entry kind role =
        .sends side message terminal relayed := by
      simpa using same
    by_cases here : (⟨0, side⟩ : HalfId) = h
    · subst here
      left
      have closures : (x.half ⟨0, side⟩).closed =
          (x.journal.filter (!·.isLogged)).any (·.closes ⟨0, side⟩) :=
        tracked.closures side (Method.carries entry)
      rw [closures, List.any_filter]
      congr
      funext e
      cases e <;> simp [Event.isLogged, Event.closes]
    · exact .inr (if_neg here)
  next => exact .inr rfl

def nextOwner (x : Exchange P) (e : Entry) : Owner :=
  if e.isPlain then .plain x.calls else .call x.calls

theorem nextOwner_name (x : Exchange P) (e : Entry) :
    (x.nextOwner e).name? = some (.inl x.calls) := by
  unfold nextOwner
  split <;> rfl

theorem command_method (kindOf : x.kindOf 0 = kind) (role : Role) (m : Method) :
    x.command (.call (.stream 0 (.method role m))) =
      (x.begun 0 (.method role m)).enterEntry 0 (m.entry kind role)
        ⟨[], x.nextOwner (m.entry kind role)⟩ := by
  rw [← kindOf]
  rfl

theorem Orderly.enter_steps (orderly : x.Orderly kind) (role : Role) (m : Method) :
    Scene.Steps
      (x.beginning (.method role m) ((m.entry kind role).stage (x.scene []).closed 0)
        (x.nextOwner (m.entry kind role)))
      ((x.command (.call (.stream 0 (.method role m)))).scene []) := by
  rw [command_method (kindOf_of_tracked orderly.tracked)]
  have begun := orderly.direct.begun 0 (.method role m)
  exact scene_enterEntry (fun h => (begun.halves h).toGuarded) 0 (m.entry kind role)
    ⟨[], x.nextOwner (m.entry kind role)⟩ []

theorem Orderly.enter (orderly : x.Orderly kind) (quiet : x.agenda = []) (role : Role)
    (m : Method) : (x.command (.call (.stream 0 (.method role m)))).Orderly kind := by
  have steps := orderly.enter_steps role m
  obtain ⟨direct, tracked, lines⟩ := orderly
  have kindOf := kindOf_of_tracked tracked
  have named := x.nextOwner_name (m.entry kind role)
  have before := beginning_tracked tracked (.method role m)
    ((m.entry kind role).stage (x.scene []).closed 0) _ named
  refine ⟨?_, tracked_of_steps before steps, fun h => ?_⟩
  · rw [command_method kindOf]
    exact (direct.begun 0 (.method role m)).enterEntry quiet 0 _ nofun
  · obtain ⟨met, sends, receives, line⟩ := lines h
    rw [quiet] at line
    apply line.enter direct quiet kindOf (guarded_of_tracked tracked h role m)
    exact .of_steps before.owned (beginning_due tracked _ _ named) steps

theorem close_steps (x : Exchange P) (side : Side) :
    Scene.Steps
      (x.beginning (.close side) (.closing ⟨0, side⟩ (.bound (.ok .undefined))) (.plain x.calls))
      ((x.command (.call (.stream 0 (.close side)))).scene []) := by
  have command : x.command (.call (.stream 0 (.close side))) = (x.begun 0 (.close side)).push
      (.close ⟨0, side⟩ (.give (.ok .undefined) ⟨[], .plain x.calls⟩)) := rfl
  rw [command, scene_push_calm rfl]
  exact .refl

theorem Orderly.close (orderly : x.Orderly kind) (quiet : x.agenda = []) (side : Side) :
    (x.command (.call (.stream 0 (.close side)))).Orderly kind := by
  obtain ⟨direct, tracked, lines⟩ := orderly
  have begun := direct.begun 0 (.close side)
  have command : x.command (.call (.stream 0 (.close side))) = (x.begun 0 (.close side)).push
      (.close ⟨0, side⟩ (.give (.ok .undefined) ⟨[], .plain x.calls⟩)) := rfl
  have steps := x.close_steps side
  have before := beginning_tracked tracked (.close side)
    (.closing ⟨0, side⟩ (.bound (.ok .undefined))) (.plain x.calls) rfl
  have keeps : Keeps x.Due (x.command (.call (.stream 0 (.close side)))) :=
    .of_steps before.owned (beginning_due tracked _ _ rfl) steps
  refine ⟨begun.push quiet nofun, tracked_of_steps before steps, fun h => ?_⟩
  obtain ⟨met, sends, receives, line⟩ := lines h
  rw [quiet] at line
  have silent := line.begin (y := x.begun 0 (.close side)) rfl rfl rfl (.inr rfl)
  refine ⟨met, sends, receives, ?_⟩
  have idle : (x.begun 0 (.close side)).agenda = [] := quiet
  rw [command, askers_push idle]
  have same : Line kind (x.begun 0 (.close side)) x.Due h [] [] met sends receives := by
    simpa [Event.offerOn?, Event.askOn?, Event.entry?] using silent
  exact same.spared (Spares.push h _ _) keeps

theorem Orderly.command (orderly : x.Orderly kind) (quiet : x.agenda = []) {c : Command}
    (allowed : c.OnStream) : (x.command c).Orderly kind := by
  unfold Command.OnStream at allowed
  split at allowed
  · exact allowed ▸ orderly.enter quiet _ _
  · exact allowed ▸ orderly.close quiet _
  · exact allowed.elim

theorem half_ofStream (kind : StreamKind) (h : HalfId) : (ofStream kind).half h = .shut .idle ∨
    ∃ label, (ofStream kind).half h = .fresh .idle label := by
  obtain ⟨i, side⟩ := h
  cases i with
  | succ i => exact .inl rfl
  | zero =>
      cases kind with
      | upload => cases side <;> exact .inr ⟨_, rfl⟩
      | download =>
          cases side with
          | requests => exact .inl rfl
          | responses => exact .inr ⟨_, rfl⟩

theorem Orderly.ofStream (kind : StreamKind) : (ofStream kind).Orderly kind := by
  have halves := half_ofStream kind
  have nobody : (Exchange.ofStream kind).threads = 0 := by cases kind <;> rfl
  have kinds : [kind] = ((Exchange.ofStream kind).scene []).kinds := by cases kind <;> rfl
  refine ⟨⟨fun h => ?_, rfl, .inl rfl, nofun⟩,
    ⟨.fresh nobody rfl rfl, ⟨[], kinds⟩, .nil, nofun, ?_⟩, fun h => ⟨[], [], [], ?_⟩⟩
  · rcases halves h with shut | ⟨label, fresh⟩
    · rw [shut]
      exact ⟨⟨rfl, rfl⟩, rfl, nofun, nofun⟩
    · rw [fresh]
      exact ⟨⟨rfl, rfl⟩, rfl, nofun, nofun⟩
  · intro side carries
    cases kind with
    | upload => cases side <;> rfl
    | download =>
        obtain rfl := carries.resolve_left nofun
        rfl
  · rcases halves h with shut | ⟨label, fresh⟩
    · refine ⟨rfl, rfl, rfl, nofun, ?_, ?_, nofun, nofun, nofun⟩
      · rw [shut]
        exact nofun
      · rw [shut]
        exact nofun
    · refine ⟨rfl, rfl, rfl, nofun, ?_, ?_, nofun, nofun, nofun⟩
      · rw [fresh]
        exact fun _ => rfl
      · rw [fresh]
        exact fun _ => rfl

theorem Run.orderly {x : Exchange .idle} (run : Run Command.OnStream (ofStream kind) x) :
    x.Orderly kind := by
  refine run.keeps (.ofStream kind) fun x y orderly move => ?_
  cases move with
  | work agenda => exact orderly.work agenda
  | resume quiet lt => exact orderly.resume quiet lt
  | command quiet allowed => exact orderly.command quiet allowed

/-! ## Whose turn came -/

theorem mem_threads_of_half {th : Thread P} (mem : th ∈ (x.half h).threads h) :
    th ∈ (x.scene []).threads := by
  refine Multiset.mem_add.mpr (.inl (Multiset.mem_add.mpr (.inr ?_)))
  exact mem_parked.mpr ⟨h, mem⟩

namespace Line

variable {offers : List (Owner × Message)} {met : List ((Nat × Message) × Nat)}
  {sends : List (Nat × Message)} {receives : List Nat}

theorem unsettled_send
    (line : Line kind x x.Due h [] (x.agenda.filterMap (·.asker? h)) met sends receives)
    (owned : (x.scene []).Owned) (isOpen : (x.half h).closed = false) {s : Nat × Message}
    (mem : s ∈ sends) (so : Settlement) : .settled s.1 so ∉ (x.scene []).events := by
  intro settled
  have waits := List.mem_map_of_mem (f := fun s => (Owner.call s.1, s.2)) mem
  rw [← line.senders isOpen, List.append_nil] at waits
  obtain ⟨⟨m, offer⟩, inside, same⟩ := List.mem_map.mp waits
  obtain ⟨owner, -⟩ := Prod.mk.inj same
  apply (owned.settled settled).1
  refine Scene.mem_names.mpr ⟨_, mem_threads_of_half (List.mem_append_left _
    (List.mem_map_of_mem inside)), ?_⟩
  exact congrArg Owner.name? owner

theorem unsettled_receive (owned : (x.scene []).Owned) {r : Nat}
    (waits : .call r ∈ (x.half h).channel.receivers.map (·.owner) ++
      x.agenda.filterMap (·.asker? h))
    (so : Settlement) : .settled r so ∉ (x.scene []).events := by
  intro settled
  apply (owned.settled settled).1
  rcases List.mem_append.mp waits with parked | asks
  · obtain ⟨t, inside, owner⟩ := List.mem_map.mp parked
    refine Scene.mem_names.mpr ⟨_, mem_threads_of_half (List.mem_append_right _
      (List.mem_map_of_mem inside)), ?_⟩
    exact congrArg Owner.name? owner
  · obtain ⟨w, inside, asker⟩ := List.mem_filterMap.mp asks
    obtain ⟨th, mem, owner⟩ := Work.asker?_thread asker
    refine Scene.mem_names.mpr ⟨th, ?_, congrArg Owner.name? owner⟩
    refine Multiset.mem_add.mpr
      (.inl (Multiset.mem_add.mpr (.inl (Multiset.mem_add.mpr (.inl ?_)))))
    exact List.mem_flatMap.mpr ⟨w, inside, mem⟩

end Line

/-- When nothing can go on, a call whose outcome is certain has settled. -/
theorem Due.settled_of_quiet {n : Nat} {o : Outcome} (due : x.Due n o) (quiet : x.isQuiet = true) :
    .settled n (.ofPromise o) ∈ x.journal := by
  rcases due.began with mem | ⟨so, settled⟩
  · obtain ⟨th, inside, named⟩ := Scene.mem_names.mp mem
    obtain ⟨-, -, outcome⟩ := due.due.threads th inside named
    have parked := (quiet_scene quiet []).parked th inside
    cases stage : th.stage <;> rw [stage] at parked outcome <;>
      first
      | exact parked.elim
      | exact nomatch outcome
  · obtain rfl := due.due.settled so settled
    exact (mem_events rfl []).mp settled

/-- A call whose outcome is certain settles with it. -/
theorem Due.learned {n : Nat} {o : Outcome} {so : Settlement} (due : x.Due n o)
    (settled : .settled n so ∈ x.journal) : so = .ofPromise o :=
  due.due.settled so ((mem_events rfl []).mpr settled)

namespace Line

variable {offers : List (Owner × Message)} {askers : List Owner}
  {met : List ((Nat × Message) × Nat)} {sends : List (Nat × Message)} {receives : List Nat}

theorem length_passed (line : Line kind x x.Due h offers askers met sends receives) :
    (x.passed h).length = met.length := by
  rw [line.passed, List.length_map]

/-- A call that settled without its turn was refused by a half that closed. -/
theorem refused_of_settled
    (line : Line kind x x.Due h [] (x.agenda.filterMap (·.asker? h)) met sends receives)
    (owned : (x.scene []).Owned) {n : Nat} {m : Message} {so : Settlement} (waits : (n, m) ∈ sends)
    (settled : .settled n so ∈ x.journal) :
    (x.half h).closed = true ∧ so = .rejected (.fault .streamClosed) := by
  have closed : (x.half h).closed = true := by
    by_contra isOpen
    exact line.unsettled_send owned (Bool.eq_false_iff.mpr isOpen) waits so
      ((mem_events rfl []).mpr settled)
  exact ⟨closed, (line.refused closed _ waits).learned settled⟩

/-- A call that settled without a message learned that the half closed. -/
theorem ended_of_settled
    (line : Line kind x x.Due h [] (x.agenda.filterMap (·.asker? h)) met sends receives)
    (owned : (x.scene []).Owned) {r : Nat} {so : Settlement} (waits : r ∈ receives)
    (settled : .settled r so ∈ x.journal) :
    (x.half h).closed = true ∧ so = .fulfilled .eof := by
  have unsettled (waits) := Line.unsettled_receive (h := h) owned waits so
    ((mem_events rfl []).mpr settled)
  have closed : (x.half h).closed = true := by
    by_contra isOpen
    apply unsettled
    rw [line.receivers (Bool.eq_false_iff.mpr isOpen)]
    exact List.mem_map_of_mem waits
  rcases line.ended closed r waits with due | asks
  · exact ⟨closed, due.learned settled⟩
  · exact absurd (List.mem_append_right _ asks) unsettled

end Line

/-- Who offered and who obtained what on a half. A payload may be `Value.eof` itself, which no
receiver can tell from the end of the half; it takes its turn like any other. -/
structure InOrder (kind : StreamKind) (h : HalfId) (x : Exchange P) : Prop where
  /-- The messages that were obtained are the first ones accepted. -/
  passed : x.passed h <+: (Event.accepted kind h x.journal).map (·.2)
  /-- Each of them went to a call of its own. -/
  enough : (x.passed h).length ≤ (Event.asked kind h x.journal).length
  sends : ((Event.accepted kind h x.journal).map (·.1)).Pairwise (· < ·)
  receives : (Event.asked kind h x.journal).Pairwise (· < ·)
  /-- A call whose message was obtained resolves, and another one is refused once the half closed.
  -/
  sent : ∀ {j n m so}, (Event.accepted kind h x.journal)[j]? = some (n, m) →
    .settled n so ∈ x.journal →
    (j < (x.passed h).length ∧ so = .fulfilled .undefined) ∨
      ((x.passed h).length ≤ j ∧ (x.half h).closed = true ∧
        so = .rejected (.fault .streamClosed))
  /-- A call gets the message at its place, and after the last one it gets the end of the half. -/
  received : ∀ {j r so}, (Event.asked kind h x.journal)[j]? = some r → .settled r so ∈ x.journal →
    (∃ m, (x.passed h)[j]? = some m ∧ so = .ofPromise m.outcome) ∨
      ((x.passed h).length ≤ j ∧ (x.half h).closed = true ∧ so = .fulfilled .eof)
  /-- Nobody whose turn came, or who waited when the half closed, waits forever. -/
  sentAll : x.isQuiet = true → ∀ {j n m}, (Event.accepted kind h x.journal)[j]? = some (n, m) →
    j < (x.passed h).length ∨ (x.half h).closed = true → ∃ so, .settled n so ∈ x.journal
  receivedAll : x.isQuiet = true → ∀ {j r}, (Event.asked kind h x.journal)[j]? = some r →
    j < (x.passed h).length ∨ (x.half h).closed = true → ∃ so, .settled r so ∈ x.journal

theorem accepted_sublist (kind : StreamKind) (h : HalfId) (events : List Event) :
    ((Event.accepted kind h events).map (·.1)).Sublist (Event.history (·.number?) events) := by
  induction events with
  | nil => exact .slnil
  | cons e events ih =>
      rw [Event.accepted, List.map_append, ← List.singleton_append, Event.history_append]
      apply ih.append
      split
      · exact List.nil_sublist _
      · cases offer : e.offerOn? kind h with
        | none => exact List.nil_sublist _
        | some p =>
            obtain ⟨c, rfl⟩ := Event.called_of_offerOn? offer
            exact .refl _

theorem asked_sublist (kind : StreamKind) (h : HalfId) (events : List Event) :
    (Event.asked kind h events).Sublist (Event.history (·.number?) events) := by
  induction events with
  | nil => exact .slnil
  | cons e events ih =>
      rw [Event.asked, ← List.singleton_append, Event.history_append, Event.history_append]
      apply ih.append
      cases ask : e.askOn? kind h with
      | none => simp [Event.history, ask]
      | some r =>
          obtain ⟨c, rfl⟩ := Event.called_of_askOn? ask
          simp [Event.history, ask, Event.number?]

theorem number_of_scene (x : Exchange P) :
    Event.history (·.number?) (x.scene []).events = Event.history (·.number?) x.journal :=
  history_scene (fun _ => rfl) x []

/-- A place in line is that of a pair that met, or of a call whose turn is still to come. -/
theorem place_cases {α β : Type} {met : List α} {f : α → β} {rest : List β} {j : Nat} {b : β}
    (place : (met.map f ++ rest)[j]? = some b) :
    (∃ p, met[j]? = some p ∧ f p = b) ∨ met.length ≤ j ∧ b ∈ rest := by
  by_cases lt : j < met.length
  · rw [List.getElem?_append_left (by simpa using lt), List.getElem?_map] at place
    exact .inl (Option.map_eq_some_iff.mp place)
  · have le := Nat.le_of_not_lt lt
    rw [List.getElem?_append_right (by simpa using le)] at place
    exact .inr ⟨le, List.mem_of_getElem? place⟩

theorem Orderly.placed (orderly : x.Orderly kind) (h : HalfId) : InOrder kind h x := by
  obtain ⟨direct, tracked, lines⟩ := orderly
  obtain ⟨met, sends, receives, line⟩ := lines h
  have owned := tracked.owned
  have rising := tracked.rising
  rw [number_of_scene] at rising
  constructor
  case passed =>
    rw [line.passed, line.accepted, List.map_append, List.map_map]
    exact List.prefix_append _ _
  case enough =>
    rw [line.length_passed, line.asked, List.length_append, List.length_map]
    exact Nat.le_add_right _ _
  case sends => exact rising.sublist (accepted_sublist kind h _)
  case receives => exact rising.sublist (asked_sublist kind h _)
  case sent =>
    intro j n m so place settled
    rw [line.accepted] at place
    rw [line.length_passed]
    rcases place_cases place with ⟨p, there, same⟩ | ⟨le, waits⟩
    · have due := (line.finished p (List.mem_of_getElem? there)).1
      rw [same] at due
      exact .inl ⟨(List.getElem?_eq_some_iff.mp there).1, due.learned settled⟩
    · exact .inr ⟨le, line.refused_of_settled owned waits settled⟩
  case received =>
    intro j r so place settled
    rw [line.asked] at place
    rw [line.length_passed, line.passed]
    rcases place_cases place with ⟨p, there, same⟩ | ⟨le, waits⟩
    · left
      have due := (line.finished p (List.mem_of_getElem? there)).2
      rw [same] at due
      refine ⟨p.1.2, ?_, due.learned settled⟩
      rw [List.getElem?_map, there]
      rfl
    · exact .inr ⟨le, line.ended_of_settled owned waits settled⟩
  case sentAll =>
    intro quiet j n m place finished
    rw [line.accepted] at place
    rw [line.length_passed] at finished
    rcases place_cases place with ⟨p, there, same⟩ | ⟨le, waits⟩
    · have due := (line.finished p (List.mem_of_getElem? there)).1
      rw [same] at due
      exact ⟨_, due.settled_of_quiet quiet⟩
    · have closed := finished.resolve_left (Nat.not_lt.mpr le)
      exact ⟨_, (line.refused closed _ waits).settled_of_quiet quiet⟩
  case receivedAll =>
    intro quiet j r place finished
    rw [line.asked] at place
    rw [line.length_passed] at finished
    rcases place_cases place with ⟨p, there, same⟩ | ⟨le, waits⟩
    · have due := (line.finished p (List.mem_of_getElem? there)).2
      rw [same] at due
      exact ⟨_, due.settled_of_quiet quiet⟩
    · have closed := finished.resolve_left (Nat.not_lt.mpr le)
      rcases line.ended closed r waits with due | asks
      · exact ⟨_, due.settled_of_quiet quiet⟩
      · rw [(isQuiet_iff.mp quiet).1] at asks
        exact absurd asks List.not_mem_nil

/-- Whatever calls are made on the parties of one stream, and in whatever order they go on: on each
half every message is obtained at most once, in order, and every call learns what became of its
message. -/
theorem inOrder {x : Exchange .idle} (run : Run Command.OnStream (ofStream kind) x) (h : HalfId) :
    InOrder kind h x :=
  run.orderly.placed h

/-- A server sends twice over a download before the client asks for a message. -/
def twiceSent : Exchange .idle :=
  (((ofStream .download).command (.call (.stream 0 (.method .server (.send (.bytes [1])))))).command
    (.call (.stream 0 (.method .server (.send (.bytes [2])))))).command
      (.call (.stream 0 (.method .client .receive)))

/-- The client gives up after it got the first message. -/
def halfHeard : Exchange .idle :=
  ((twiceSent.advance 20).command (.call (.stream 0 (.method .client .halfClose)))).advance 20

/-- The first send resolved, the client obtained its message, and the second send was rejected. -/
theorem halfHeard_inOrder : halfHeard.isQuiet = true ∧ halfHeard.calls = 4 ∧
    .settled 0 (.fulfilled .undefined) ∈ halfHeard.journal ∧
    .settled 2 (.fulfilled (.bytes [1])) ∈ halfHeard.journal ∧
    .settled 1 (.rejected (.fault .streamClosed)) ∈ halfHeard.journal ∧
    InOrder .download ⟨0, .responses⟩ halfHeard := by
  have sent : Run Command.OnStream (ofStream .download) twiceSent :=
    ((Run.refl.step (.command (by rfl) (by rfl))).step (.command (by rfl) (by rfl))).step
      (.command (by rfl) (by rfl))
  have heard := sent.trans (run_advance 20 twiceSent)
  have closed : Run Command.OnStream (ofStream .download) halfHeard :=
    (heard.step (.command (by rfl) (by rfl))).trans (run_advance 20 _)
  exact ⟨rfl, rfl, List.mem_of_getElem? (i := 7) rfl, List.mem_of_getElem? (i := 5) rfl,
    List.mem_of_getElem? (i := 0) rfl, inOrder closed _⟩

end Exchange

end ObjectTransfer
