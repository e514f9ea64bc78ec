import ObjectTransfer.Proofs.Closures

/-! # Deliveries

The messages that passed on a half and the outcomes of the receives on it are read off the events.
When one party alone receives on a half, its receives come to the messages that passed, in order,
and to the end marker once the half is closed (`Scene.Ledger`).
-/

namespace ObjectTransfer

variable {P : Plugin}

namespace Event

variable {α : Type} (f : Event → Option α)

/-- What the events show, in order; the latest event is the first of them. -/
def history (events : List Event) : List α := (events.filterMap f).reverse

theorem history_append (es events : List Event) :
    history f (es ++ events) = history f events ++ history f es := by
  simp [history, List.filterMap_append]

variable {f}

theorem mem_history {events : List Event} {a : α} :
    a ∈ history f events ↔ ∃ e ∈ events, f e = some a := by
  simp [history]

theorem history_of_none {es : List Event} (none : ∀ e ∈ es, f e = none) : history f es = [] := by
  rw [history, List.reverse_eq_nil_iff, List.filterMap_eq_nil_iff]
  exact none

/-- The message that an event shows on a half. -/
def handedOn? (h : HalfId) : Event → Option Message
  | handed h' m => if h' = h then some m else none
  | _ => none

/-- The outcome of a receive that an event shows on a half. -/
def receivedOn? (h : HalfId) : Event → Option Outcome
  | received h' o => if h' = h then some o else none
  | _ => none

theorem handedOn?_eq_some {h : HalfId} {e : Event} {m : Message} :
    e.handedOn? h = some m ↔ e = .handed h m := by
  cases e <;> simp [handedOn?]

theorem receivedOn?_eq_some {h : HalfId} {e : Event} {o : Outcome} :
    e.receivedOn? h = some o ↔ e = .received h o := by
  cases e <;> simp [receivedOn?]

end Event

namespace Scene

/-- The messages that passed on a half, in order. -/
def passed (s : Scene P) (h : HalfId) : List Message := Event.history (·.handedOn? h) s.events

/-- The outcomes of the receives on a half, in order. -/
def heard (s : Scene P) (h : HalfId) : List Outcome := Event.history (·.receivedOn? h) s.events

variable {s s' : Scene P} {h : HalfId}

theorem mem_passed {m : Message} : m ∈ s.passed h ↔ .handed h m ∈ s.events := by
  rw [passed, Event.mem_history]
  simp [Event.handedOn?_eq_some]

theorem mem_heard {o : Outcome} : o ∈ s.heard h ↔ .received h o ∈ s.events := by
  rw [heard, Event.mem_history]
  simp [Event.receivedOn?_eq_some]

theorem Later.passed (later : Later s s') : s.passed h <+: s'.passed h := by
  obtain ⟨es, events⟩ := later.events
  rw [Scene.passed, Scene.passed, ← events, Event.history_append]
  exact List.prefix_append _ _

theorem passed_eq (es : List Event) (events : s'.events = es ++ s.events)
    (calm : ∀ m, .handed h m ∉ es) : s'.passed h = s.passed h := by
  have none : ∀ e ∈ es, e.handedOn? h = none := by
    intro e mem
    rw [Option.eq_none_iff_forall_ne_some]
    exact fun m shows => calm m (Event.handedOn?_eq_some.mp shows ▸ mem)
  rw [passed, events, Event.history_append, Event.history_of_none none, List.append_nil, passed]

theorem passed_handed {m : Message} (events : s'.events = .handed h m :: s.events) :
    s'.passed h = s.passed h ++ [m] := by
  have shown : Event.history (·.handedOn? h) [.handed h m] = [m] := by
    simp [Event.history, Event.handedOn?]
  rw [passed, events, ← List.singleton_append, Event.history_append, shown, passed]

theorem heard_eq (es : List Event) (events : s'.events = es ++ s.events)
    (calm : ∀ o, .received h o ∉ es) : s'.heard h = s.heard h := by
  have none : ∀ e ∈ es, e.receivedOn? h = none := by
    intro e mem
    rw [Option.eq_none_iff_forall_ne_some]
    exact fun o shows => calm o (Event.receivedOn?_eq_some.mp shows ▸ mem)
  rw [heard, events, Event.history_append, Event.history_of_none none, List.append_nil, heard]

theorem heard_received {o : Outcome} (events : s'.events = .received h o :: s.events) :
    s'.heard h = s.heard h ++ [o] := by
  have shown : Event.history (·.receivedOn? h) [.received h o] = [o] := by
    simp [Event.history, Event.receivedOn?]
  rw [heard, events, ← List.singleton_append, Event.history_append, shown, heard]

end Scene

namespace Exchange

/-- The messages that passed on a half, in order. -/
def passed (x : Exchange P) (h : HalfId) : List Message := Event.history (·.handedOn? h) x.journal

/-- The outcomes of the receives on a half, in order. -/
def heard (x : Exchange P) (h : HalfId) : List Outcome :=
  Event.history (·.receivedOn? h) x.journal

theorem history_scene {α : Type} {f : Event → Option α} (silent : ∀ line, f (.logged line) = none)
    (x : Exchange P) (ts) : Event.history f (x.scene ts).events = Event.history f x.journal := by
  simp only [scene, Event.history, List.filterMap_filter]
  congr 2
  funext e
  cases e with
  | logged line => exact (silent line).symm
  | _ => rfl

theorem passed_scene (x : Exchange P) (h : HalfId) (ts) : (x.scene ts).passed h = x.passed h :=
  history_scene (fun _ => rfl) x ts

theorem heard_scene (x : Exchange P) (h : HalfId) (ts) : (x.scene ts).heard h = x.heard h :=
  history_scene (fun _ => rfl) x ts

end Exchange

/-! ## What was given and not yet noted -/

namespace Stage

def given? (h : HalfId) : Stage → Option Outcome
  | received h' m => if h' = h then some (receipt m) else none
  | _ => none

def noted? : Stage → Option Outcome
  | bound o => some o
  | closing _ (bound o) => some o
  | _ => none

def Hears (h : HalfId) : Stage → Prop
  | asking h' => h' = h
  | wanting h' => h' = h
  | received h' _ => h' = h
  | _ => False

variable {h h' : HalfId} {st : Stage}

theorem given?_of_not_hears (deaf : ¬ st.Hears h) : st.given? h = none := by
  cases st with
  | received h' m => exact if_neg deaf
  | _ => rfl

theorem Hears.stage (hears : st.Hears h) :
    st = .asking h ∨ st = .wanting h ∨ ∃ m, st = .received h m := by
  cases st with
  | asking => exact .inl (congrArg _ hears)
  | wanting => exact .inr (.inl (congrArg _ hears))
  | received h' m => exact .inr (.inr ⟨m, congrArg (received · m) hears⟩)
  | _ => exact hears.elim

theorem given?_ofGates (gates : String → Option Outcome) (names : List String) :
    (ofGates gates names).given? h = none := by
  have rests := rests_ofGates gates names
  generalize ofGates gates names = st at rests
  cases rests <;> rfl

theorem given?_afterGate (name : String) (o : Outcome) :
    (st.afterGate name o).given? h = st.given? h := by
  cases st with
  | waiting names =>
      simp only [afterGate]
      split
      · cases o with
        | error => rfl
        | ok =>
            simp only
            split <;> rfl
      · rfl
  | _ => rfl

theorem given?_sent (terminal taken : Bool) : (sent h' terminal taken).given? h = none := by
  cases terminal <;> rfl

theorem given?_release (other : st ≠ .wanting h ∨ h' ≠ h) :
    (st.release h').given? h = st.given? h := by
  cases st with
  | wanting h'' =>
      simp only [release]
      split
      next same =>
        subst same
        refine if_neg ?_
        rcases other with other | other
        · exact fun same => other (same ▸ rfl)
        · exact other
      next => rfl
  | offering h'' m terminal =>
      simp only [release]
      split
      · exact given?_sent _ _
      · rfl
  | _ => rfl

theorem given?_stage (closed : HalfId → Bool) (i : StreamId) (e : Entry) :
    (e.stage closed i).given? h = none := by
  cases e <;> simp only [Entry.stage] <;> first | rfl | split <;> rfl

end Stage

theorem Stage.Follows.given? {h : HalfId} {next : Stage} (follows : next.Follows) :
    next.given? h = none := by
  cases follows <;> rfl

namespace Scene

def given (h : HalfId) (ths : Multiset (Thread P)) : Multiset Outcome :=
  ths.filterMap fun th => th.stage.given? h

variable {s s' : Scene P} {h : HalfId}

@[simp] theorem given_add (ths ths' : Multiset (Thread P)) :
    given h (ths + ths') = given h ths + given h ths' :=
  Multiset.filterMap_add _ _ _

theorem given_cons_of_none {th : Thread P} (none : th.stage.given? h = none)
    (ths : Multiset (Thread P)) : given h (th ::ₘ ths) = given h ths :=
  Multiset.filterMap_cons_none _ _ none

theorem given_cons_of_some {th : Thread P} {o : Outcome} (some : th.stage.given? h = some o)
    (ths : Multiset (Thread P)) : given h (th ::ₘ ths) = o ::ₘ given h ths :=
  Multiset.filterMap_cons_some _ _ _ some

theorem given_eq_zero {ths : Multiset (Thread P)} (none : ∀ th ∈ ths, th.stage.given? h = none) :
    given h ths = 0 := by
  induction ths using Multiset.induction with
  | empty => rfl
  | cons th ths ih =>
      obtain ⟨first, rest⟩ := Multiset.forall_mem_cons.mp none
      rw [given_cons_of_none first, ih rest]

theorem given_map {ths : Multiset (Thread P)} {f : Stage → Stage}
    (same : ∀ th ∈ ths, (f th.stage).given? h = th.stage.given? h) :
    given h (ths.map (·.move f)) = given h ths := by
  induction ths using Multiset.induction with
  | empty => rfl
  | cons th ths ih =>
      obtain ⟨first, rest⟩ := Multiset.forall_mem_cons.mp same
      rw [Multiset.map_cons]
      cases gave : th.stage.given? h with
      | none => rw [given_cons_of_none gave, given_cons_of_none (first.trans gave), ih rest]
      | some o => rw [given_cons_of_some gave, given_cons_of_some (first.trans gave), ih rest]

theorem Solo.given {kindOf closed gates} {th : Thread P} {ths es} {s : Scene P}
    (solo : Solo kindOf closed gates th ths es) (proper : th.Proper s) (h : HalfId) :
    (th.stage.given? h = none ∧ (∀ th' ∈ ths, th'.stage.given? h = none) ∧
      ∀ o, .received h o ∉ es) ∨
    (∃ m, th.stage = .received h m ∧ (∀ th' ∈ ths, th'.stage.given? h = none) ∧
      es = [.received h (Stage.receipt m)]) ∨
    th.stage = .asking h ∧ closed h = true ∧ es = [] ∧
      ∃ th', ths = [th'] ∧ th'.stage = .received h none := by
  cases solo with
  | @received h' m fs w =>
      have after : (Stage.afterReceipt h' m).given? h = none := by
        rcases m with _ | v | f <;> rfl
      by_cases same : h' = h
      · subst same
        exact .inr (.inl ⟨m, rfl, List.forall_mem_singleton.mpr after, rfl⟩)
      · refine .inl ⟨if_neg same, List.forall_mem_singleton.mpr after, fun o mem => ?_⟩
        cases List.mem_singleton.mp mem
        exact same rfl
  | @ended h' fs w isClosed =>
      by_cases same : h' = h
      · subst same
        exact .inr (.inr ⟨rfl, isClosed, rfl, _, rfl, rfl⟩)
      · exact .inl ⟨rfl, List.forall_mem_singleton.mpr (if_neg same), fun _ => List.not_mem_nil⟩
  | pass =>
      exact .inl ⟨rfl, List.forall_mem_singleton.mpr proper.follows.given?,
        fun _ => List.not_mem_nil⟩
  | enter =>
      exact .inl ⟨rfl, List.forall_mem_singleton.mpr (Stage.given?_stage _ _ _),
        fun _ => List.not_mem_nil⟩
  | @read o i r fs w =>
      refine .inl ⟨rfl, List.forall_mem_singleton.mpr ?_, fun _ => List.not_mem_nil⟩
      cases r.resume o <;> rfl
  | @write o i k v fs w =>
      refine .inl ⟨rfl, List.forall_mem_singleton.mpr ?_, fun o mem => ?_⟩
      · rw [Writing.Turn.thread]
        split
        · rfl
        · exact Stage.given?_ofGates _ _
        · rfl
        · rfl
      · obtain ⟨r, -, remarked⟩ := List.mem_filterMap.mp (List.mem_reverse.mp mem)
        cases r <;> cases remarked
  | @serve o i fs w =>
      refine .inl ⟨rfl, List.forall_mem_singleton.mpr ?_, fun _ => List.not_mem_nil⟩
      cases o with
      | ok => rfl
      | error v =>
          simp only [Thread.served]
          split
          · rfl
          · split <;> rfl
  | follow =>
      exact .inl ⟨rfl, List.forall_mem_singleton.mpr (Stage.given?_ofGates _ _),
        fun _ => List.not_mem_nil⟩
  | @settle o w =>
      refine .inl ⟨rfl, fun _ mem => absurd mem List.not_mem_nil, fun o mem => ?_⟩
      cases w <;> simp [Owner.events] at mem
  | want | undelivered | deliver | delivered =>
      exact .inl ⟨rfl, List.forall_mem_singleton.mpr rfl, fun _ => List.not_mem_nil⟩

end Scene

theorem Act.given?_threads {act : Act P.Local} {gates : String → Option Outcome} {i : StreamId}
    {fs : List (Frame P)} {w : Owner} {h : HalfId} :
    ∀ th ∈ act.threads gates i fs w, th.stage.given? h = none := by
  cases act with
  | wait => exact List.forall_mem_singleton.mpr (Stage.given?_ofGates _ _)
  | fork => simp [Act.threads, Stage.given?]
  | _ => exact List.forall_mem_singleton.mpr rfl

theorem Scene.given?_firstThread {h : HalfId} (s : Scene P) (c : PluginCall) :
    (s.firstThread c).stage.given? h = none := by
  rcases s.firstThread_stage c with ⟨o, stage⟩ | ⟨i, m, stage⟩ <;> rw [stage] <;> rfl

/-! ## Ledgers -/

namespace Scene

/-- Whether at most one thread is in the middle of a receive on a half. -/
def Solitary (s : Scene P) (h : HalfId) : Prop :=
  ∀ th rest, s.threads = th ::ₘ rest → th.stage.Hears h → ∀ other ∈ rest, ¬ other.stage.Hears h

/-- The receives on a half came to the messages that passed, in order, and to the end marker after
the half was closed, which has its reason. The last of these outcomes may not have been noted yet.
-/
def Ledger (s : Scene P) (h : HalfId) (why : Prop) : Prop :=
  ∃ (unnoted : List Outcome) (ends : Nat), ↑unnoted = given h s.threads ∧
    (0 < ends → s.closed h = true ∧ why) ∧
    s.heard h ++ unnoted = (s.passed h).map Message.outcome ++ List.replicate ends (.ok .eof)

variable {s s' : Scene P} {h : HalfId} {why : Prop}

theorem Solitary.given_rest (solitary : s.Solitary h) {th : Thread P} {rest}
    (threads : s.threads = th ::ₘ rest) (hears : th.stage.Hears h) : given h rest = 0 :=
  given_eq_zero fun other mem =>
    Stage.given?_of_not_hears (solitary th rest threads hears other mem)

theorem Ledger.quiet (ledger : s.Ledger h why) (lt : h.stream < s.kinds.length)
    (step : Step s s') (es : List Event) (events : s'.events = es ++ s.events)
    (handed : ∀ m, .handed h m ∉ es) (received : ∀ o, .received h o ∉ es)
    (same : given h s'.threads = given h s.threads) : s'.Ledger h why := by
  obtain ⟨unnoted, ends, gave, closed, tally⟩ := ledger
  refine ⟨unnoted, ends, gave.trans same.symm,
    fun some => (closed some).imp_left (step.later.closed h lt), ?_⟩
  rw [passed_eq es events handed, heard_eq es events received, tally]

theorem Ledger.of_none (ledger : s.Ledger h why) (none : given h s.threads = 0) :
    ∃ ends, (0 < ends → s.closed h = true ∧ why) ∧
      s.heard h = (s.passed h).map Message.outcome ++ List.replicate ends (.ok .eof) := by
  obtain ⟨unnoted, ends, gave, closed, tally⟩ := ledger
  rw [none, Multiset.coe_eq_zero] at gave
  rw [gave, List.append_nil] at tally
  exact ⟨ends, closed, tally⟩

theorem Ledger.of_open (ledger : s.Ledger h why) (none : given h s.threads = 0)
    (isOpen : s.closed h = false) : s.heard h = (s.passed h).map Message.outcome := by
  obtain ⟨ends, closed, tally⟩ := ledger.of_none none
  cases ends with
  | zero => simpa using tally
  | succ => exact absurd (closed (Nat.succ_pos _)).1 (by simp [isOpen])

theorem Ledger.ended (ledger : s.Ledger h why) (none : given h s.threads = 0)
    (closed : s'.closed h = true) (because : why) (gave : given h s'.threads = {.ok .eof})
    (passed : s'.passed h = s.passed h) (heard : s'.heard h = s.heard h) : s'.Ledger h why := by
  obtain ⟨ends, -, tally⟩ := ledger.of_none none
  refine ⟨[.ok .eof], ends + 1, gave.symm, fun _ => ⟨closed, because⟩, ?_⟩
  rw [heard, tally, passed, List.append_assoc, List.replicate_succ']

theorem Ledger.noted (ledger : s.Ledger h why) {o : Outcome} (gave : given h s.threads = {o})
    (none : given h s'.threads = 0) (closed : s'.closed = s.closed)
    (passed : s'.passed h = s.passed h) (heard : s'.heard h = s.heard h ++ [o]) :
    s'.Ledger h why := by
  obtain ⟨unnoted, ends, same, known, tally⟩ := ledger
  obtain rfl := Multiset.coe_eq_singleton.mp (same.trans gave)
  exact ⟨[], ends, none.symm, closed ▸ known, by rw [heard, passed, List.append_nil, tally]⟩

theorem Ledger.handed (ledger : s.Ledger h why) {m : Message} (none : given h s.threads = 0)
    (isOpen : s.closed h = false) (gave : given h s'.threads = {m.outcome})
    (passed : s'.passed h = s.passed h ++ [m]) (heard : s'.heard h = s.heard h) :
    s'.Ledger h why := by
  refine ⟨[m.outcome], 0, gave.symm, nofun, ?_⟩
  rw [heard, passed, ledger.of_open none isOpen, List.map_append]
  exact (List.append_nil _).symm

/-- A thread that works alone leaves the ledger as it is, takes note of what it was given, or is
told that the half is closed. -/
theorem Ledger.solo {th : Thread P} {ths es rest} (ledger : s.Ledger h why)
    (lt : h.stream < s.kinds.length) (cast : s.Cast) (solitary : s.Solitary h)
    (threads : s.threads = th ::ₘ rest) (solo : Solo s.kindOf s.closed s.gates th ths es)
    (because : s.closed h = true → th.stage.Hears h → why) :
    Ledger { s with threads := ↑ths + rest, events := es ++ s.events } h why := by
  have handed : ∀ m, .handed h m ∉ es := by
    intro m mem
    have causes := solo.causes mem trivial
    cases solo <;> obtain ⟨_, stage⟩ := causes <;> cases stage
  have proper := cast th (threads ▸ Multiset.mem_cons_self _ _)
  rcases solo.given proper h with
    ⟨none, after, received⟩ | ⟨m, stage, after, rfl⟩ | ⟨stage, closed, rfl, th', rfl, stage'⟩
  · refine ledger.quiet lt (.solo threads solo) es rfl handed received ?_
    rw [threads, given_cons_of_none none, given_add, given_eq_zero after, zero_add]
  · have alone := solitary.given_rest threads (by rw [stage]; rfl)
    have gave : th.stage.given? h = some (Stage.receipt m) := by
      rw [stage]
      exact if_pos rfl
    refine ledger.noted ?_ ?_ rfl (passed_eq _ rfl handed) (heard_received rfl)
    · rw [threads, given_cons_of_some gave, alone]
      rfl
    · rw [given_add, given_eq_zero after, alone]
      rfl
  · have hears : th.stage.Hears h := by
      rw [stage]
      rfl
    have alone := solitary.given_rest threads hears
    refine ledger.ended ?_ closed (because closed hears) ?_ (passed_eq [] rfl nofun)
      (heard_eq [] rfl nofun)
    · rw [threads, given_cons_of_none (by rw [stage]; rfl), alone]
    · have gave : th'.stage.given? h = some (.ok .eof) := by
        rw [stage']
        exact if_pos rfl
      rw [given_add, alone, Multiset.coe_singleton, ← Multiset.cons_zero, given_cons_of_some gave]
      rfl

theorem Ledger.release {th : Thread P} {next fs w others} (ledger : s.Ledger h why)
    (solitary : s.Solitary h)
    (threads : s.threads = ⟨.closing h next, fs, w⟩ ::ₘ th ::ₘ others)
    (stage : th.stage = .wanting h) (after : next.given? h = none) (because : why) :
    Ledger { s with
      threads := ⟨next, fs, w⟩ ::ₘ (th ::ₘ others).map (·.move (.release h))
      closed := Function.update s.closed h true
      hooks := Function.update s.hooks h []
      pending := ↑(s.hooks h) + s.pending
      events := .closed h :: s.events } h why := by
  have hears : th.stage.Hears h := by
    rw [stage]
    rfl
  have deaf := solitary th _ (threads.trans (Multiset.cons_swap _ _ _)) hears
  have alone := solitary.given_rest (threads.trans (Multiset.cons_swap _ _ _)) hears
  rw [given_cons_of_none rfl] at alone
  have gave : (th.move (.release h)).stage.given? h = some (.ok .eof) := by
    simp [Thread.move, stage, Stage.release, Stage.given?, Stage.receipt]
  have same : given h (others.map (·.move (.release h))) = given h others := by
    refine given_map fun other mem => Stage.given?_release (.inl fun stage => ?_)
    refine deaf other (Multiset.mem_cons_of_mem mem) ?_
    rw [stage]
    rfl
  refine ledger.ended ?_ (Function.update_self ..) because ?_ (passed_eq [_] rfl (by simp))
    (heard_eq [_] rfl (by simp))
  · rw [threads, given_cons_of_none rfl, given_cons_of_none (by rw [stage]; rfl), alone]
  · rw [given_cons_of_none after, Multiset.map_cons, given_cons_of_some gave, same, alone]
    rfl

theorem Ledger.close {h' : HalfId} {next fs w rest} (ledger : s.Ledger h why)
    (lt : h.stream < s.kinds.length) (cast : s.Cast) (solitary : s.Solitary h)
    (threads : s.threads = ⟨.closing h' next, fs, w⟩ ::ₘ rest) (isOpen : s.closed h' = false)
    (because : h' = h → (∃ th ∈ s.threads, th.stage.Hears h) → why) :
    Ledger { s with
      threads := ⟨next, fs, w⟩ ::ₘ rest.map (·.move (.release h'))
      closed := Function.update s.closed h' true
      hooks := Function.update s.hooks h' []
      pending := ↑(s.hooks h') + s.pending
      events := .closed h' :: s.events } h why := by
  have after : next.given? h = none :=
    (cast _ (threads ▸ Multiset.mem_cons_self _ _)).follows.given?
  by_cases waits : h' = h ∧ ∃ th ∈ rest, th.stage = .wanting h
  · obtain ⟨rfl, th, mem, stage⟩ := waits
    obtain ⟨others, rfl⟩ := Multiset.exists_cons_of_mem mem
    refine ledger.release solitary threads stage after (because rfl ⟨th, ?_, by rw [stage]; rfl⟩)
    exact threads ▸ Multiset.mem_cons_of_mem mem
  · refine ledger.quiet lt (.close threads isOpen) [_] rfl (by simp) (by simp) ?_
    rw [threads, given_cons_of_none after, given_map]
    · exact (given_cons_of_none rfl rest).symm
    intro th mem
    refine Stage.given?_release ?_
    by_contra both
    rw [not_or, not_not, not_not] at both
    exact waits ⟨both.2, th, mem, both.1⟩

theorem Ledger.meet {h' : HalfId} {m terminal fs w fs' w' rest} (ledger : s.Ledger h why)
    (lt : h.stream < s.kinds.length) (solitary : s.Solitary h)
    (threads : s.threads = ⟨.wanting h', fs, w⟩ ::ₘ ⟨.offering h' m terminal, fs', w'⟩ ::ₘ rest)
    (isOpen : s.closed h' = false) :
    Ledger { s with
      threads := ⟨.received h' (some m), fs, w⟩ ::ₘ ⟨.sent h' terminal true, fs', w'⟩ ::ₘ rest
      events := .handed h' m :: s.events } h why := by
  by_cases same : h' = h
  · subst same
    have alone := solitary.given_rest threads rfl
    rw [given_cons_of_none rfl] at alone
    have nothing : given h' s.threads = 0 := by
      rw [threads, given_cons_of_none rfl, given_cons_of_none rfl, alone]
    refine ledger.handed nothing isOpen ?_ (passed_handed rfl) (heard_eq [_] rfl (by simp))
    have gave : (Stage.received h' (some m)).given? h' = some m.outcome := if_pos rfl
    rw [given_cons_of_some gave, given_cons_of_none (Stage.given?_sent _ _), alone]
    rfl
  · refine ledger.quiet lt (.meet threads isOpen) [_] rfl (by simp [Ne.symm same]) (by simp) ?_
    have gave : (Stage.received h' (some m)).given? h = none := if_neg same
    rw [threads, given_cons_of_none gave, given_cons_of_none (Stage.given?_sent _ _)]
    exact ((given_cons_of_none rfl _).trans (given_cons_of_none rfl _)).symm

theorem Ledger.step (ledger : s.Ledger h why) (lt : h.stream < s.kinds.length) (cast : s.Cast)
    (solitary : s.Solitary h) (step : Step s s')
    (because : s'.closed h = true → (∃ th ∈ s.threads, th.stage.Hears h) → why) :
    s'.Ledger h why := by
  cases step with
  | solo threads solo =>
      refine ledger.solo lt cast solitary threads solo fun closed hears =>
        because closed ⟨_, ?_, hears⟩
      exact threads ▸ Multiset.mem_cons_self _ _
  | start threads =>
      refine ledger.quiet lt (.start threads) [] rfl nofun nofun ?_
      rw [threads, given_cons_of_none rfl, given_cons_of_none rfl]
  | @handle o i state fs w rest threads =>
      have events {e} (mem : e ∈ (P.step s.shared state o).2.events) : ¬ e.IsPassage := by
        obtain ⟨_, _, _, rfl⟩ := Act.eq_did mem
        exact id
      refine ledger.quiet lt (.handle threads) _ rfl (fun m mem => events mem trivial)
        (fun o mem => events mem trivial) ?_
      rw [threads, given_cons_of_none rfl, given_add, given_eq_zero Act.given?_threads, zero_add]
  | close threads isOpen =>
      refine ledger.close lt cast solitary threads isOpen fun same => because ?_
      subst same
      exact Function.update_self ..
  | meet threads isOpen => exact ledger.meet lt solitary threads isOpen
  | gate unsettled =>
      refine ledger.quiet lt (.gate unsettled) [] rfl nofun nofun ?_
      exact given_map fun th _ => Stage.given?_afterGate _ _
  | strike pending => exact ledger.quiet lt (.strike pending) [] rfl nofun nofun rfl
  | count pending counted => exact ledger.quiet lt (.count pending counted) [] rfl nofun nofun rfl
  | notice =>
      refine ledger.quiet lt .notice [] rfl nofun nofun ?_
      exact given_cons_of_none rfl _
  | call opens =>
      refine ledger.quiet lt (.call opens) [_] rfl (by simp) (by simp) ?_
      exact given_cons_of_none (given?_firstThread _ _) _
  | opening opens =>
      refine ledger.quiet lt (.opening opens) [_, _] rfl (by simp) (by simp) ?_
      exact (given_cons_of_none rfl _).trans (given_cons_of_none (given?_firstThread _ _) _)

/-! ## Who receives -/

/-- Whoever notes what a receive came to was in the middle of it. -/
theorem Step.receives (step : Step s s') : ∃ es, s'.events = es ++ s.events ∧
    ∀ h o, .received h o ∈ es → ∃ th ∈ s.threads, th.stage.Hears h := by
  cases step with
  | @solo th ths es rest threads solo =>
      refine ⟨es, rfl, fun h o mem => ⟨th, threads ▸ Multiset.mem_cons_self _ _, ?_⟩⟩
      obtain ⟨m, stage⟩ := solo.causes mem trivial
      rw [stage]
      rfl
  | @handle o i state =>
      refine ⟨_, rfl, fun h o mem => ?_⟩
      obtain ⟨_, _, _, did⟩ := Act.eq_did mem
      exact nomatch did
  | start | gate | strike | count | notice => exact ⟨[], rfl, nofun⟩
  | close | meet | call => exact ⟨[_], rfl, by simp⟩
  | opening => exact ⟨[_, _], rfl, by simp⟩

theorem Step.received (step : Step s s') {o : Outcome} (received : .received h o ∈ s'.events) :
    .received h o ∈ s.events ∨ ∃ th ∈ s.threads, th.stage.Hears h := by
  obtain ⟨es, events, hears⟩ := step.receives
  rw [events, List.mem_append] at received
  exact received.symm.imp_right (hears h o)

theorem Cast.hears (cast : s.Cast) {th : Thread P} (mem : th ∈ s.threads)
    (hears : th.stage.Hears h) :
    h.stream < s.kinds.length ∧
      ∃ role m, h.side = Role.hears role ∧ th.Calls s h.stream role m := by
  have stage := hears.stage
  have calling : th.stage.IsCalling := by
    rcases stage with stage | stage | ⟨m, stage⟩ <;> rw [stage] <;> trivial
  obtain ⟨i, role, m, lt, calls, inCall⟩ := (cast th mem).calls calling
  obtain ⟨rfl, -⟩ := inCall.hears stage
  exact ⟨lt, role, m, rfl, calls⟩

theorem Reachable.received (reachable : s.Reachable) {o : Outcome}
    (received : .received h o ∈ s.events) :
    h.stream < s.kinds.length ∧ (h.side = .responses → ∃ n, Event.Uses s.events n h.stream) := by
  induction reachable with
  | refl => exact absurd received List.not_mem_nil
  | @tail s s' steps step ih =>
      have later := step.later
      rcases step.received received with old | ⟨th, mem, hears⟩
      · obtain ⟨lt, uses⟩ := ih old
        exact ⟨later.lt lt, fun side => (uses side).imp fun _ uses => uses.later later.events⟩
      · obtain ⟨lt, role, m', side, calls⟩ := (Reachable.cast steps).hears mem hears
        refine ⟨later.lt lt, fun responses => ?_⟩
        cases role with
        | server => exact nomatch side.symm.trans responses
        | client =>
            obtain ⟨n, -, uses⟩ := calls.uses
            exact ⟨n, uses.later later.events⟩

theorem Step.silent (step : Step s s') (reached : s.Reachable)
    (unopened : ¬ h.stream < s.kinds.length) : s'.passed h = [] ∧ s'.heard h = [] := by
  constructor
  · refine List.eq_nil_iff_forall_not_mem.mpr fun m mem => ?_
    rcases step.handed (mem_passed.mp mem) with
      handed | ⟨-, fs, w, terminal, fs', w', wants, -⟩
    · exact unopened (reached.seals _ _ handed).1
    · exact unopened (reached.cast.hears wants rfl).1
  · refine List.eq_nil_iff_forall_not_mem.mpr fun o mem => ?_
    rcases step.received (mem_heard.mp mem) with received | ⟨th, mem, hears⟩
    · exact unopened (reached.received received).1
    · exact unopened (reached.cast.hears mem hears).1

theorem Solitary.of_name (owned : s.Owned) {name : Nat ⊕ StreamId}
    (named : ∀ th ∈ s.threads, th.stage.Hears h → th.owner.name? = some name) : s.Solitary h := by
  intro th rest threads hears other mem hears'
  have pair : th ::ₘ {other} ≤ s.threads := by
    rw [threads, Multiset.cons_le_cons_iff]
    exact Multiset.singleton_le.mpr mem
  refine owned.unique pair (named th (threads ▸ Multiset.mem_cons_self _ _) hears) ?_
  exact named other (threads ▸ Multiset.mem_cons_of_mem mem) hears'

theorem Reachable.ledger (reachable : s.Reachable) (lt : h.stream < s.kinds.length)
    (solitary : ∀ t, t.Reachable → Steps t s → t.Solitary h)
    (because : ∀ t t', t.Reachable → Step t t' → Steps t' s → t'.closed h = true →
      (∃ th ∈ t.threads, th.stage.Hears h) → why) : s.Ledger h why := by
  induction reachable with
  | refl => exact absurd lt (Nat.not_lt_zero _)
  | @tail s s' steps step ih =>
      have reached : s.Reachable := steps
      by_cases old : h.stream < s.kinds.length
      · have ledger := ih old (fun t reachable steps => solitary t reachable (steps.tail step))
          fun t t' reachable first steps => because t t' reachable first (steps.tail step)
        exact ledger.step old reached.cast (solitary s reached (.single step)) step
          (because s s' reached step .refl)
      -- The step opens the stream, and nobody receives on it yet.
      · obtain ⟨passed, heard⟩ := step.silent reached old
        obtain ⟨parts⟩ := step.parts
        rcases parts.enters.service lt with before | ⟨-, c, kind, invocation, -, rfl⟩
        · exact absurd before old
        · refine ⟨[], 0, (given_eq_zero fun th mem => ?_).symm, nofun, by simp [passed, heard]⟩
          rcases Multiset.mem_cons.mp mem with rfl | mem
          · rfl
          rcases Multiset.mem_cons.mp mem with rfl | mem
          · exact given?_firstThread s c
          · refine Stage.given?_of_not_hears fun hears => old ?_
            exact (reached.cast.hears mem hears).1

/-! ## One receiver, one sender -/

/-- A thread goes on, and takes note of an outcome on a half as it does. -/
def GoesNoting (s s' : Scene P) (h : HalfId) (th : Thread P) (ths : List (Thread P)) : Prop :=
  ∃ st' news, ths = [{ th with stage := st' }] ∧ th.stage.Goes s' st' ∧
    s'.heard h = s.heard h ++ news ∧ st'.noted?.toList = th.stage.noted?.toList ++ news

theorem GoesNoting.calm {th : Thread P} {st' : Stage} {es} (events : s'.events = es ++ s.events)
    (calm : ∀ o, .received h o ∉ es) (goes : th.stage.Goes s' st')
    (same : st'.noted? = th.stage.noted?) : GoesNoting s s' h th [{ th with stage := st' }] :=
  ⟨st', [], rfl, goes, by rw [heard_eq es events calm, List.append_nil],
    by rw [same, List.append_nil]⟩

section Receiver

variable {i : StreamId} {side : Side} {role : Role} {th : Thread P} {es ts ths}

/-- What a thread in a receive does alone: it goes on, and takes note of an outcome as it does, or
its function goes on with the outcome. -/
theorem Solo.receiver (solo : Solo s.kindOf s.closed s.gates th ths es)
    (events : s'.events = es ++ s.events)
    (goesOn : (∃ st', ths = [{ th with stage := st' }] ∧ th.stage.Goes s' st') ∨ th.Turns s ths es)
    (stages : th.stage = .entering i role .receive ∨ th.stage.Receives s ⟨i, side⟩)
    (entry : Method.receive.entry (s.kindOf i) role = .receives side) :
    GoesNoting s s' ⟨i, side⟩ th ths ∨
      ∃ o, th.stage = .bound o ∧ th.Turns s ths es ∧ s'.heard ⟨i, side⟩ = s.heard ⟨i, side⟩ := by
  have calm (o) (bound : th.stage = .bound o) : ∀ o, .received ⟨i, side⟩ o ∉ es := by
    intro o mem
    obtain ⟨m, stage⟩ := solo.causes mem trivial
    exact nomatch stage.symm.trans bound
  cases solo with
  | @received h m =>
      obtain ⟨st', same, goes⟩ := goesOn.resolve_right nofun
      cases same
      obtain rfl : h = ⟨i, side⟩ := by
        rcases stages with stage | receives
        · exact nomatch stage
        · cases receives <;> rfl
      refine .inl ⟨_, [Stage.receipt m], rfl, goes, heard_received events, ?_⟩
      rcases m with _ | v | f <;> rfl
  | pass =>
      obtain ⟨st', same, goes⟩ := goesOn.resolve_right nofun
      cases same
      refine .inl (.calm events (fun _ => List.not_mem_nil) goes ?_)
      rcases stages with stage | receives
      · exact nomatch stage
      · cases receives
        rfl
  | want | ended =>
      obtain ⟨st', same, goes⟩ := goesOn.resolve_right nofun
      cases same
      exact .inl (.calm events (fun _ => List.not_mem_nil) goes rfl)
  | enter =>
      obtain ⟨st', same, goes⟩ := goesOn.resolve_right nofun
      cases same
      refine .inl (.calm events (fun _ => List.not_mem_nil) goes ?_)
      rcases stages with stage | receives
      · cases stage
        rw [entry]
        rfl
      · cases receives
  | undelivered | deliver =>
      rcases stages with stage | receives
      · exact nomatch stage
      · cases receives
  | read => exact .inr ⟨_, rfl, .read, heard_eq _ events (calm _ rfl)⟩
  | write => exact .inr ⟨_, rfl, .write, heard_eq _ events (calm _ rfl)⟩
  | serve => exact .inr ⟨_, rfl, .serve, heard_eq _ events (calm _ rfl)⟩
  | delivered => exact .inr ⟨_, rfl, .delivered, heard_eq _ events (calm _ rfl)⟩
  | follow => exact .inr ⟨_, rfl, .follow, heard_eq _ events (calm _ rfl)⟩
  | settle => exact .inr ⟨_, rfl, .settle, heard_eq _ events (calm _ rfl)⟩

/-- What becomes of a thread in a receive on a half on which nobody else receives: it goes on, and
takes note of an outcome as it does, or its function goes on with the outcome. -/
theorem Becomes.receiver {name} (becomes : Becomes s s' es ts th ths)
    (events : s'.events = es ++ s.events) (owned : s.Owned) (named : th.owner.name? = some name)
    (only : ∀ other ∈ s.threads, other.stage.Hears ⟨i, side⟩ → other.owner.name? = some name)
    (inCall : th.stage.InCall s i role .receive)
    (entry : Method.receive.entry (s.kindOf i) role = .receives side) :
    GoesNoting s s' ⟨i, side⟩ th ths ∨
      ∃ o, th.stage = .bound o ∧ th.Turns s ths es ∧ s'.heard ⟨i, side⟩ = s.heard ⟨i, side⟩ := by
  have stages : th.stage = .entering i role .receive ∨ th.stage.Receives s ⟨i, side⟩ := by
    refine inCall.imp_right fun hasStage => ?_
    rw [entry] at hasStage
    cases hasStage with
    | receives receives => exact receives
  have goesOn := becomes.cases events
  cases becomes with
  | aside others =>
      refine .inl (.calm events (fun o mem => ?_) .stay rfl)
      obtain ⟨other, pair, m, stage⟩ := others _ mem trivial
      have inside : other ∈ s.threads :=
        Multiset.mem_of_le pair (Multiset.mem_cons_of_mem (Multiset.mem_singleton_self other))
      exact owned.unique pair named (only other inside (by rw [stage]; rfl))
  | solo solo => exact solo.receiver events goesOn stages entry
  | start =>
      rcases stages with stage | receives
      · exact nomatch stage
      · cases receives
  | handle es =>
      refine .inr ⟨_, rfl, es ▸ .handle, heard_eq _ events fun o mem => ?_⟩
      rw [es] at mem
      obtain ⟨_, _, _, did⟩ := Act.eq_did mem
      exact nomatch did
  | shut es _ _ closed =>
      refine .inl (.calm events (by simp [es]) (.shut closed) ?_)
      rcases stages with stage | receives
      · exact nomatch stage
      · cases receives
        rfl
  | @released h _ es _ closed =>
      refine .inl (.calm events (by simp [es]) (.release closed) ?_)
      obtain ⟨stage, fs, w⟩ := th
      rcases stages with rfl | receives
      · rfl
      · cases receives with
        | wanting =>
            change (if (⟨i, side⟩ : HalfId) = h then Stage.received h none
                else .wanting ⟨i, side⟩).noted? = none
            split <;> rfl
        | _ => rfl
  | takes es =>
      have handed := events ▸ List.mem_append_left s.events (es ▸ List.mem_singleton_self _)
      exact .inl (.calm events (by simp [es]) (.take handed) rfl)
  | yields es =>
      rcases stages with stage | receives
      · exact nomatch stage
      · cases receives
  | gate es _ settled =>
      refine .inl (.calm events (by simp [es]) (.gate settled) ?_)
      obtain ⟨stage, fs, w⟩ := th
      rcases stages with rfl | receives
      · rfl
      · cases receives <;> rfl

end Receiver

/-- What becomes of a thread if nobody else offers messages on a half: it goes on while nothing
passes there, its message passes, or its function goes on. -/
theorem Becomes.speaker {th : Thread P} {es ts ths name} (becomes : Becomes s s' es ts th ths)
    (events : s'.events = es ++ s.events) (owned : s.Owned) (named : th.owner.name? = some name)
    (only : ∀ other ∈ s.threads, ∀ m terminal, other.stage = .offering h m terminal →
      other.owner.name? = some name)
    (deaf : th.stage ≠ .wanting h) :
    (∃ st', ths = [{ th with stage := st' }] ∧ th.stage.Goes s' st' ∧ s'.passed h = s.passed h ∧
      ∀ m terminal, th.stage = .offering h m terminal → st' ≠ .sent h terminal true) ∨
    (∃ m terminal, th.stage = .offering h m terminal ∧
      ths = [{ th with stage := .sent h terminal true }] ∧
      s'.passed h = s.passed h ++ [m]) ∨
    th.Turns s ths es ∧ s'.passed h = s.passed h := by
  have quiet (calm : ∀ m, .handed h m ∉ es) : s'.passed h = s.passed h := passed_eq es events calm
  have goesOn := becomes.cases events
  have untaken {terminal} : ∀ m t, Stage.offering h m t ≠ .sent h terminal true := by
    cases terminal <;> rintro _ _ ⟨⟩
  cases becomes with
  | aside others =>
      refine .inl ⟨th.stage, rfl, .stay, quiet fun m mem => ?_, ?_⟩
      · obtain ⟨other, pair, terminal, stage⟩ := others _ mem trivial
        have inside : other ∈ s.threads :=
          Multiset.mem_of_le pair (Multiset.mem_cons_of_mem (Multiset.mem_singleton_self other))
        exact owned.unique pair named (only other inside m terminal stage)
      · intro m terminal stage
        exact stage ▸ untaken m terminal
  | solo solo =>
      have passed := quiet fun m mem => by
        obtain ⟨terminal, stage⟩ := solo.causes mem trivial
        cases solo <;> cases stage
      rcases goesOn with ⟨st', same, goes⟩ | turns
      · refine .inl ⟨st', same, goes, passed, fun m terminal stage => ?_⟩
        cases solo <;> cases stage
      · exact .inr (.inr ⟨turns, passed⟩)
  | start es => exact .inr (.inr ⟨es ▸ .start, quiet (by simp [es])⟩)
  | handle es =>
      refine .inr (.inr ⟨es ▸ .handle, quiet fun m mem => ?_⟩)
      rw [es] at mem
      obtain ⟨_, _, _, did⟩ := Act.eq_did mem
      cases did
  | shut es _ _ closed =>
      exact .inl ⟨_, rfl, .shut closed, quiet (by simp [es]), (by rintro _ _ ⟨⟩)⟩
  | @released h' _ es _ closed =>
      refine .inl ⟨_, rfl, .release closed, quiet (by simp [es]), ?_⟩
      intro m terminal stage
      rw [stage, Stage.release]
      split
      · cases terminal <;> rintro ⟨⟩
      · exact untaken m terminal
  | @takes h' m fs w es =>
      have handed := events ▸ List.mem_append_left s.events (es ▸ List.mem_singleton_self _)
      refine .inl ⟨_, rfl, .take handed, quiet fun m' mem => ?_, (by rintro _ _ ⟨⟩)⟩
      obtain ⟨rfl, -⟩ : h = h' ∧ _ := by simpa [es] using mem
      exact deaf rfl
  | @yields h' m terminal fs w es =>
      by_cases same : h' = h
      · subst same
        refine .inr (.inl ⟨m, terminal, rfl, rfl, passed_handed (events.trans ?_)⟩)
        rw [es]
        rfl
      · have handed := events ▸ List.mem_append_left s.events (es ▸ List.mem_singleton_self _)
        refine .inl ⟨_, rfl, .taken handed, quiet fun m' mem => ?_, fun m' t stage => ?_⟩
        · obtain ⟨rfl, -⟩ : h = h' ∧ _ := by simpa [es] using mem
          exact same rfl
        · cases stage
          exact absurd rfl same
  | @gate name o _ es _ settled =>
      refine .inl ⟨_, rfl, .gate settled, quiet (by simp [es]), ?_⟩
      intro m terminal stage
      rw [stage]
      exact untaken m terminal

end Scene

end ObjectTransfer
