import Mathlib.Data.Multiset.Bind
import ObjectTransfer.Proofs.Operations

/-! # What a step means for each thread

A step of a scene takes every thread to what becomes of it, and may bring new threads
(`Scene.Step.parts`). Most threads are bystanders: whatever is noted then was caused by another.
-/

namespace ObjectTransfer

variable {P : Plugin}

def Event.IsPassage : Event → Prop
  | handed _ _ => True
  | received _ _ => True
  | _ => False

/-- Whether a thread is at the stage that brings about such an event. -/
def Thread.Causes (th : Thread P) : Event → Prop
  | .handed h m => ∃ terminal, th.stage = .offering h m terminal
  | .received h _ => ∃ m, th.stage = .received h m
  | _ => False

/-- Whether a thread takes a turn of a handler. -/
def Thread.Takes (th : Thread P) (turn : HandlerTurn P) : Prop :=
  ∃ fs, th.frames = .handling turn.stream turn.state :: fs

namespace Scene

/-- What becomes of a thread in a step that notes these events and turns. -/
inductive Becomes (s s' : Scene P) (es : List Event) (ts : List (HandlerTurn P)) :
    Thread P → List (Thread P) → Prop where
  /-- Others do something. -/
  | aside {th} :
    (∀ e ∈ es, e.IsPassage → ∃ other, th ::ₘ {other} ≤ s.threads ∧ other.Causes e) →
    (∀ t ∈ ts, ∃ other, th ::ₘ {other} ≤ s.threads ∧ other.Takes t) →
    Becomes s s' es ts th [th]
  | solo {th ths} :
    Solo s.kindOf s.closed s.gates th ths es → ts = [] →
    s'.kinds = s.kinds → s'.closed = s.closed → s'.gates = s.gates →
    Becomes s s' es ts th ths
  | start {i invocation} :
    es = [] → ts = [] →
    Becomes s s' es ts ⟨.starting i invocation, [.serving i], .service i⟩
      [⟨.bound (.ok .undefined), [.handling i (P.invoke s.shared invocation).2, .serving i],
        .service i⟩]
  | handle {o i state fs w} :
    es = (P.step s.shared state o).2.events → ts = [⟨i, state, o, s.shared⟩] →
    s'.gates = s.gates →
    Becomes s s' es ts ⟨.bound o, .handling i state :: fs, w⟩
      ((P.step s.shared state o).2.threads s.gates i fs w)
  | shut {h next fs w} :
    es = [.closed h] → ts = [] → s.closed h = false → s'.closed h = true →
    Becomes s s' es ts ⟨.closing h next, fs, w⟩ [⟨next, fs, w⟩]
  | released {h th} :
    es = [.closed h] → ts = [] → s'.closed h = true →
    Becomes s s' es ts th [th.move (.release h)]
  /-- It receives a message. -/
  | takes {h m fs w} :
    es = [.handed h m] → ts = [] → s.closed h = false →
    Becomes s s' es ts ⟨.wanting h, fs, w⟩ [⟨.received h (some m), fs, w⟩]
  /-- Its message is received. -/
  | yields {h m terminal fs w} :
    es = [.handed h m] → ts = [] → s.closed h = false →
    Becomes s s' es ts ⟨.offering h m terminal, fs, w⟩ [⟨.sent h terminal true, fs, w⟩]
  | gate {name o th} :
    es = [] → ts = [] → s'.gates name = some o →
    Becomes s s' es ts th [th.move (.afterGate name o)]

/-- The threads that come in with a step. -/
inductive Enters (s s' : Scene P) : List (Thread P) → Prop where
  | none : s'.kinds = s.kinds → s'.calls = s.calls → s'.clients = s.clients → Enters s s' []
  | notice {label} :
    s'.kinds = s.kinds → s'.calls = s.calls → s'.clients = s.clients →
    Enters s s' [⟨.bound (.ok .undefined), [], .notice label⟩]
  | call {c} : opens? c = Option.none → s' = s.begin c → Enters s s' [s.firstThread c]
  | opening {c kind invocation} :
    opens? c = some (kind, invocation) → s' = s.opened c kind invocation →
    Enters s s' [s.firstService invocation, s.firstThread c]

theorem Enters.cases {s s' : Scene P} {ths : List (Thread P)} (enters : Enters s s' ths)
    {th : Thread P} (mem : th ∈ ths) :
    (∃ label, th = ⟨.bound (.ok .undefined), [], .notice label⟩) ∨ (∃ c, th = s.firstThread c) ∨
      ∃ invocation, th = s.firstService invocation := by
  cases enters with
  | none => exact absurd mem List.not_mem_nil
  | notice => exact .inl ⟨_, List.mem_singleton.mp mem⟩
  | call => exact .inr (.inl ⟨_, List.mem_singleton.mp mem⟩)
  | opening =>
      simp only [List.mem_cons, List.not_mem_nil, or_false] at mem
      rcases mem with service | call
      · exact .inr (.inr ⟨_, service⟩)
      · exact .inr (.inl ⟨_, call⟩)

def results (fates : Multiset (Thread P × List (Thread P))) : Multiset (Thread P) :=
  fates.bind fun fate => (fate.2 : Multiset (Thread P))

@[simp] theorem results_cons (fate : Thread P × List (Thread P)) (fates) :
    results (fate ::ₘ fates) = ↑fate.2 + results fates :=
  Multiset.cons_bind _ _ _

/-- A step as what becomes of each thread. -/
structure Parts (s s' : Scene P) where
  events : List Event
  turns : List (HandlerTurn P)
  fresh : List (Thread P)
  fates : Multiset (Thread P × List (Thread P))
  events_eq : s'.events = events ++ s.events
  turns_eq : s'.turns = turns ++ s.turns
  enters : Enters s s' fresh
  before : s.threads = fates.map Prod.fst
  after : s'.threads = ↑fresh + results fates
  becomes : ∀ fate ∈ fates, Becomes s s' events turns fate.1 fate.2

variable {s s' : Scene P}

theorem Solo.causes {th : Thread P} {ths es e}
    (solo : Solo s.kindOf s.closed s.gates th ths es) (mem : e ∈ es) (passage : e.IsPassage) :
    th.Causes e := by
  cases solo with
  | received =>
      obtain rfl := List.mem_singleton.mp mem
      exact ⟨_, rfl⟩
  | write =>
      obtain ⟨r, -, remarked⟩ := List.mem_filterMap.mp (List.mem_reverse.mp mem)
      cases r <;> simp only [Writing.Remark.event?, Option.some.injEq, reduceCtorEq] at remarked <;>
        subst remarked <;> exact passage.elim
  | settle =>
      rename_i o w
      cases w <;> simp only [Owner.events, List.mem_singleton, List.not_mem_nil] at mem <;>
        subst mem <;> exact passage.elim
  | _ => exact absurd mem List.not_mem_nil

def each (f : Thread P → Thread P) (ths : Multiset (Thread P)) :
    Multiset (Thread P × List (Thread P)) :=
  ths.map fun th => (th, [f th])

@[simp] theorem map_fst_each (f : Thread P → Thread P) (ths : Multiset (Thread P)) :
    (each f ths).map Prod.fst = ths := by
  simp [each]

@[simp] theorem results_each (f : Thread P → Thread P) (ths : Multiset (Thread P)) :
    results (each f ths) = ths.map f := by
  simp [each, results, Multiset.bind_map]

theorem pair_le {th other : Thread P} {rest : Multiset (Thread P)} (mem : th ∈ rest) :
    th ::ₘ {other} ≤ other ::ₘ rest := by
  have swap : th ::ₘ {other} = other ::ₘ {th} := Multiset.cons_swap th other 0
  rw [swap, Multiset.cons_le_cons_iff]
  exact Multiset.singleton_le.mpr mem

section Parts

variable (es : List Event) (ts : List (HandlerTurn P)) (f : Thread P → Thread P)

theorem Parts.of_each {fresh : List (Thread P)} (events : s'.events = es ++ s.events)
    (turns : s'.turns = ts ++ s.turns) (enters : Enters s s' fresh)
    (after : s'.threads = ↑fresh + s.threads.map f)
    (becomes : ∀ th ∈ s.threads, Becomes s s' es ts th [f th]) : Nonempty (Parts s s') := by
  refine ⟨⟨es, ts, fresh, each f s.threads, events, turns, enters, ?_, ?_, ?_⟩⟩
  · rw [map_fst_each]
  · rw [after, results_each]
  · intro fate mem
    obtain ⟨th, inside, rfl⟩ := Multiset.mem_map.mp mem
    exact becomes th inside

theorem Parts.of_cons {th : Thread P} {ths : List (Thread P)} {rest}
    (threads : s.threads = th ::ₘ rest)
    (events : s'.events = es ++ s.events) (turns : s'.turns = ts ++ s.turns)
    (enters : Enters s s' []) (after : s'.threads = ↑ths + rest.map f)
    (becomes : Becomes s s' es ts th ths)
    (others : ∀ other ∈ rest, Becomes s s' es ts other [f other]) : Nonempty (Parts s s') := by
  refine ⟨⟨es, ts, [], (th, ths) ::ₘ each f rest, events, turns, enters, ?_, ?_, ?_⟩⟩
  · rw [threads, Multiset.map_cons, map_fst_each]
  · rw [after, results_cons, results_each, Multiset.coe_nil, zero_add]
  · intro fate mem
    rcases Multiset.mem_cons.mp mem with rfl | mem
    · exact becomes
    · obtain ⟨other, inside, rfl⟩ := Multiset.mem_map.mp mem
      exact others other inside

end Parts

theorem Step.parts (step : Step s s') : Nonempty (Parts s s') := by
  cases step with
  | @solo th ths es rest threads solo =>
      refine Parts.of_cons es [] id threads rfl rfl (.none rfl rfl rfl) (by simp)
        (.solo solo rfl rfl rfl rfl)
        fun other inside => .aside (fun e noted passage => ⟨th, ?_, ?_⟩) nofun
      · exact threads ▸ pair_le inside
      · exact solo.causes noted passage
  | start threads =>
      exact Parts.of_cons [] [] id threads rfl rfl (.none rfl rfl rfl) (by simp) (.start rfl rfl)
        fun _ _ => .aside nofun nofun
  | @handle o i state fs w rest threads =>
      refine Parts.of_cons (P.step s.shared state o).2.events [⟨i, state, o, s.shared⟩] id threads
        rfl rfl (.none rfl rfl rfl) (by simp) (.handle rfl rfl rfl)
        fun other inside => .aside (fun e noted passage => ?_) fun t took => ?_
      · obtain ⟨_, _, _, rfl⟩ := Act.eq_did noted
        exact passage.elim
      · obtain rfl := List.mem_singleton.mp took
        exact ⟨_, threads ▸ pair_le inside, fs, rfl⟩
  | @close h next fs w rest threads isOpen =>
      have closed : Function.update s.closed h true h = true := Function.update_self ..
      exact Parts.of_cons [.closed h] [] (·.move (.release h)) threads rfl rfl (.none rfl rfl rfl)
        (by simp) (.shut rfl rfl isOpen closed) fun _ _ => .released rfl rfl closed
  | @meet h m terminal fs w fs' w' rest threads isOpen =>
      -- Two threads take part in this step, so `Parts.of_cons` does not apply.
      refine ⟨⟨[.handed h m], [], [], (⟨.wanting h, fs, w⟩, [⟨.received h (some m), fs, w⟩]) ::ₘ
        (⟨.offering h m terminal, fs', w'⟩, [⟨.sent h terminal true, fs', w'⟩]) ::ₘ each id rest,
        rfl, rfl, .none rfl rfl rfl, ?_, ?_, ?_⟩⟩
      · rw [threads, Multiset.map_cons, Multiset.map_cons, map_fst_each]
      · simp [Multiset.cons_swap]
      · intro fate mem
        rcases Multiset.mem_cons.mp mem with rfl | mem
        · exact .takes rfl rfl isOpen
        rcases Multiset.mem_cons.mp mem with rfl | mem
        · exact .yields rfl rfl isOpen
        · obtain ⟨other, inside, rfl⟩ := Multiset.mem_map.mp mem
          refine .aside (fun e noted _ => ⟨⟨.offering h m terminal, fs', w'⟩, ?_, ?_⟩) nofun
          · rw [threads]
            exact (pair_le inside).trans (Multiset.le_cons_self _ _)
          · obtain rfl := List.mem_singleton.mp noted
            exact ⟨terminal, rfl⟩
  | @gate name o fresh =>
      exact Parts.of_each [] [] (·.move (.afterGate name o)) rfl rfl (.none rfl rfl rfl) (by simp)
        fun _ _ => .gate rfl rfl (Function.update_self ..)
  | strike | count =>
      exact Parts.of_each [] [] id rfl rfl (.none rfl rfl rfl) (by simp)
        fun _ _ => .aside nofun nofun
  | @notice label =>
      exact Parts.of_each [] [] id rfl rfl (@Enters.notice P _ _ label rfl rfl rfl) (by simp)
        fun _ _ => .aside nofun nofun
  | @call c opens =>
      refine Parts.of_each [.called s.calls (.plugin c)] [] id rfl rfl (.call opens rfl)
        (by simp [begin]) fun _ _ => .aside (fun e noted passage => ?_) nofun
      obtain rfl := List.mem_singleton.mp noted
      exact passage.elim
  | @opening c kind invocation opens =>
      refine Parts.of_each [.opened s.calls s.kinds.length, .called s.calls (.plugin c)] [] id
        rfl rfl (.opening opens rfl) (by simp [opened, begin, ← Multiset.cons_coe])
        fun _ _ => .aside (fun e noted passage => ?_) nofun
      simp only [List.mem_cons, List.not_mem_nil, or_false] at noted
      rcases noted with rfl | rfl <;> exact passage.elim

namespace Parts

variable (parts : Parts s s')

/-- Where a thread comes from. -/
theorem origin {th' : Thread P} (mem : th' ∈ s'.threads) :
    th' ∈ parts.fresh ∨
      ∃ th ∈ s.threads, ∃ ths, Becomes s s' parts.events parts.turns th ths ∧ th' ∈ ths := by
  rw [parts.after, Multiset.mem_add] at mem
  rcases mem with mem | mem
  · exact .inl mem
  · obtain ⟨fate, inside, mem⟩ := Multiset.mem_bind.mp mem
    refine .inr ⟨fate.1, ?_, fate.2, parts.becomes fate inside, mem⟩
    rw [parts.before]
    exact Multiset.mem_map_of_mem Prod.fst inside

/-- What becomes of a thread. -/
theorem fate {th : Thread P} (mem : th ∈ s.threads) :
    ∃ ths, Becomes s s' parts.events parts.turns th ths ∧ ∀ th' ∈ ths, th' ∈ s'.threads := by
  rw [parts.before] at mem
  obtain ⟨fate, inside, rfl⟩ := Multiset.mem_map.mp mem
  refine ⟨fate.2, parts.becomes fate inside, fun th' mem => ?_⟩
  rw [parts.after, Multiset.mem_add]
  exact .inr (Multiset.mem_bind.mpr ⟨fate, inside, mem⟩)

end Parts

/-! ## Later scenes -/

structure Later (s s' : Scene P) : Prop where
  kinds : s.kinds <+: s'.kinds
  closed : ∀ h, h.stream < s.kinds.length → s.closed h = true → s'.closed h = true
  gates : ∀ name o, s.gates name = some o → s'.gates name = some o
  events : s.events <:+ s'.events
  turns : s.turns <:+ s'.turns
  calls : s.calls ≤ s'.calls
  clients : s.clients <:+ s'.clients

theorem Later.refl (s : Scene P) : Later s s :=
  ⟨List.prefix_rfl, fun _ _ => id, fun _ _ => id, List.suffix_rfl, List.suffix_rfl, le_rfl,
    List.suffix_rfl⟩

theorem Later.trans {s'' : Scene P} (first : Later s s') (second : Later s' s'') : Later s s'' where
  kinds := first.kinds.trans second.kinds
  closed h lt closed :=
    second.closed h (Nat.lt_of_lt_of_le lt first.kinds.length_le) (first.closed h lt closed)
  gates name o settled := second.gates name o (first.gates name o settled)
  events := first.events.trans second.events
  turns := first.turns.trans second.turns
  calls := first.calls.trans second.calls
  clients := first.clients.trans second.clients

theorem begin_later (s : Scene P) (c : PluginCall) : Later s (s.begin c) where
  kinds := List.prefix_rfl
  closed _ _ := id
  gates _ _ := id
  events := List.suffix_cons _ _
  turns := List.suffix_rfl
  calls := Nat.le_succ _
  clients := by
    cases c with
    | openDownload | openUpload => exact List.suffix_cons _ _
    | read | write | method | readKept | holds | keys => exact List.suffix_rfl

theorem Step.later (step : Step s s') : Later s s' := by
  cases step with
  | solo => exact { Later.refl s with events := List.suffix_append _ _ }
  | start | strike | count | notice => exact { Later.refl s with }
  | handle =>
      exact { Later.refl s with events := List.suffix_append _ _, turns := List.suffix_cons _ _ }
  | @close h next fs w rest threads isOpen =>
      refine { Later.refl s with events := List.suffix_cons _ _, closed := fun h' _ closed => ?_ }
      by_cases same : h' = h
      · rw [same]
        exact Function.update_self ..
      · exact (Function.update_of_ne same ..).trans closed
  | meet => exact { Later.refl s with events := List.suffix_cons _ _ }
  | @gate name o fresh =>
      refine { Later.refl s with gates := fun name' o' settled => ?_ }
      have other : name' ≠ name := fun same => by simp [same, fresh] at settled
      exact (Function.update_of_ne other ..).trans settled
  | @call c opens => exact s.begin_later c
  | @opening c kind invocation opens =>
      have begun := s.begin_later c
      refine { begun with
        kinds := List.prefix_append _ _
        closed := fun h lt closed => ?_
        events := begun.events.trans (List.suffix_cons _ _) }
      exact (if_neg (Nat.ne_of_lt lt)).trans closed

theorem Steps.later (steps : Steps s s') : Later s s' := by
  induction steps with
  | refl => exact .refl s
  | tail _ step ih => exact ih.trans step.later

end Scene

/-! ## Stages and frames -/

/-- How a stage goes on while the same functions wait, seen from the scene after. -/
inductive Stage.Goes (s' : Scene P) : Stage → Stage → Prop where
  | stay {st} : Goes s' st st
  | note {h m} : .received h (receipt m) ∈ s'.events → Goes s' (.received h m) (.afterReceipt h m)
  | shut {h next} : s'.closed h = true → Goes s' (.closing h next) next
  | want {h} : Goes s' (.asking h) (.wanting h)
  | ended {h} : s'.closed h = true → Goes s' (.asking h) (.received h none)
  | enter {i role m} :
    Goes s' (.entering i role m) ((m.entry (s'.kindOf i) role).stage s'.closed i)
  | undelivered {i f} :
    s'.closed ⟨i, .responses⟩ = true → Goes s' (.delivering i f) (.bound (.ok .undefined))
  | deliver {i f} : Goes s' (.delivering i f) (.entering i .server (.fail (.fault f)))
  | release {h st} : s'.closed h = true → Goes s' st (st.release h)
  | take {h m} : .handed h m ∈ s'.events → Goes s' (.wanting h) (.received h (some m))
  | taken {h m terminal} :
    .handed h m ∈ s'.events → Goes s' (.offering h m terminal) (.sent h terminal true)
  | gate {name o st} : s'.gates name = some o → Goes s' st (st.afterGate name o)

/-- How the innermost function of a thread goes on: the threads in its place and what happens. -/
inductive Thread.Turns (s : Scene P) : Thread P → List (Thread P) → List Event → Prop where
  | start {i invocation} :
    Turns s ⟨.starting i invocation, [.serving i], .service i⟩
      [⟨.bound (.ok .undefined), [.handling i (P.invoke s.shared invocation).2, .serving i],
        .service i⟩] []
  | handle {o i state fs w} :
    Turns s ⟨.bound o, .handling i state :: fs, w⟩
      ((P.step s.shared state o).2.threads s.gates i fs w) (P.step s.shared state o).2.events
  | read {o i r fs w} :
    Turns s ⟨.bound o, .reading i r :: fs, w⟩ [(r.resume o).thread i fs w] []
  | write {o i k v fs w} :
    Turns s ⟨.bound o, .writing i k v :: fs, w⟩ [(v.resume o).thread s.gates i k fs w]
      ((v.resume o).remarks.filterMap (·.event? k)).reverse
  | serve {o i fs w} : Turns s ⟨.bound o, .serving i :: fs, w⟩ [.served i fs w o] []
  | delivered {o i fs w} :
    Turns s ⟨.bound o, .delivering i :: fs, w⟩ [⟨.finishing i o, fs, w⟩] []
  | follow {o gate fs w} :
    Turns s ⟨.bound o, .following gate :: fs, w⟩ [⟨.ofGates s.gates [gate], fs, w⟩] []
  | settle {o w} : Turns s ⟨.bound o, [], w⟩ [] (w.events o)

namespace Scene

/-- A thread goes on alone, or its innermost function does. -/
theorem Becomes.cases {s s' : Scene P} {es ts th ths} (becomes : Becomes s s' es ts th ths)
    (events : s'.events = es ++ s.events) :
    (∃ stage, ths = [{ th with stage }] ∧ th.stage.Goes s' stage) ∨ th.Turns s ths es := by
  have noted {e} (mem : e ∈ es) : e ∈ s'.events := by
    rw [events]
    exact List.mem_append_left _ mem
  cases becomes with
  | aside => exact .inl ⟨th.stage, rfl, .stay⟩
  | solo solo _ kinds closed gates =>
      rw [← closed] at solo
      have kindOf : s.kindOf = s'.kindOf := by
        funext i
        rw [kindOf, kindOf, kinds]
      rw [kindOf] at solo
      cases solo with
      | received => exact .inl ⟨_, rfl, .note (noted List.mem_cons_self)⟩
      | pass isClosed => exact .inl ⟨_, rfl, .shut isClosed⟩
      | want => exact .inl ⟨_, rfl, .want⟩
      | ended isClosed => exact .inl ⟨_, rfl, .ended isClosed⟩
      | enter => exact .inl ⟨_, rfl, .enter⟩
      | undelivered isClosed => exact .inl ⟨_, rfl, .undelivered isClosed⟩
      | deliver => exact .inl ⟨_, rfl, .deliver⟩
      | read => exact .inr .read
      | write => exact .inr .write
      | serve => exact .inr .serve
      | delivered => exact .inr .delivered
      | follow => exact .inr .follow
      | settle => exact .inr .settle
  | start es => exact .inr (es ▸ .start)
  | handle es => exact .inr (es ▸ .handle)
  | shut _ _ _ isClosed => exact .inl ⟨_, rfl, .shut isClosed⟩
  | released _ _ isClosed => exact .inl ⟨_, rfl, .release isClosed⟩
  | takes es => exact .inl ⟨_, rfl, .take (noted (es ▸ List.mem_cons_self))⟩
  | yields es => exact .inl ⟨_, rfl, .taken (noted (es ▸ List.mem_cons_self))⟩
  | gate _ _ settled => exact .inl ⟨_, rfl, .gate settled⟩

end Scene

end ObjectTransfer
