import ObjectTransfer.Proofs.Accounts
import ObjectTransfer.Proofs.Pulls

/-! # Writers when anything may be called

Whatever else is called, a call that writes an object has one thread until it settles, which does
nothing but write, and a source of its own (`Scene.WriterFacts`). So a writer takes a turn, or its
message is taken, or its stage goes on, and only its own turns tell of its source
(`WriterCall.Moves`).
-/

namespace ObjectTransfer

variable {P : Plugin}

inductive Call.Writes : Call → Prop where
  | stream {i bucket key source} : Writes (.stream i (.write bucket key source))
  | plugin {bucket key source} : Writes (.plugin (.write bucket key source))

theorem Call.Writes.not_emitter {c : Call} (writes : c.Writes) (event : String) (c' : EmitterCall) :
    c ≠ .emitter event c' := by
  cases writes <;> rintro ⟨⟩

namespace Scene

variable {s s' : Scene P} {th th' : Thread P} {n k : Nat} {i : StreamId} {w : Writing}

/-! ## Calls that begin -/

theorem Numbered.not_emitted (numbered : s.Numbered) {c : Call} (called : .called n c ∈ s.events)
    (other : ∀ event c', c ≠ .emitter event c') : ¬ Event.Emitted s.events n := by
  rintro ⟨event, c', emitted⟩
  exact other _ _ (numbered.unique called emitted)

theorem Accounted.of_fresh (numbered : s.Numbered) (fresh : Multiset (Nat ⊕ StreamId))
    (names : names s'.threads = fresh + names s.threads) (one : fresh.count (.inl s.calls) = 1)
    (settled : ∀ so, .settled s.calls so ∈ s'.events → .settled s.calls so ∈ s.events) :
    s'.Accounted s.calls := by
  obtain ⟨none, unsettled⟩ := numbered.fresh
  refine .inl ⟨?_, fun so mem => unsettled so (settled so mem)⟩
  rw [tally, names, Multiset.count_add, one]
  exact congrArg (1 + ·) none

theorem Numbered.accounted_call (numbered : s.Numbered) (step : Step s s')
    (more : s.calls < s'.calls) : s'.Accounted s.calls := by
  cases step.renames with
  | same _ _ _ calls | settles _ _ calls => exact absurd more (calls ▸ Nat.lt_irrefl _)
  | @call c begun =>
      subst begun
      refine .of_fresh numbered {.inl s.calls} ?_ (Multiset.count_singleton_self _) fun so mem => ?_
      · change names (s.firstThread c ::ₘ s.threads) = _
        rw [names_cons, names_singleton, s.firstThread_owner c]
      · exact (List.mem_cons.mp mem).resolve_left (by rintro ⟨⟩)
  | @opening c kind invocation opened =>
      subst opened
      refine .of_fresh numbered {.inr s.kinds.length, .inl s.calls} ?_ (by simp) fun so mem => ?_
      · change names (s.firstService invocation ::ₘ s.firstThread c ::ₘ s.threads) = _
        rw [names_cons, names_cons _ s.threads, names_singleton, names_singleton,
          s.firstThread_owner c, ← add_assoc]
        rfl
      · simpa [Scene.opened, Scene.openStream, Scene.begin] using mem

theorem Shift.called (shift : Shift s s') (numbered : s.Numbered) {c : Call}
    (mem : .called n c ∈ s'.events) (other : ∀ event c', c ≠ .emitter event c') :
    .called n c ∈ s.events ∨ n = s.calls ∧ s'.Accounted s.calls := by
  cases shift with
  | step step =>
      rcases step.events_cases with ⟨es, events, quiet, -⟩ | ⟨c', -, rfl⟩ | ⟨c', _, _, -, rfl⟩
      · rw [events, List.mem_append] at mem
        exact .inl (mem.resolve_left fun new => quiet _ new trivial)
      · refine (List.mem_cons.mp mem).symm.imp_right fun same => ?_
        cases same
        exact ⟨rfl, numbered.accounted_call step (Nat.lt_succ_self _)⟩
      · have known : n = s.calls ∧ c = Call.plugin c' ∨ .called n c ∈ s.events := by
          simpa [opened, openStream, begin] using mem
        exact known.symm.imp_right fun same =>
          ⟨same.1, numbered.accounted_call step (Nat.lt_succ_self _)⟩
  | aside aside =>
      obtain ⟨es, events, heard⟩ := aside.events
      rw [events, List.mem_append] at mem
      refine .inl (mem.resolve_left fun new => ?_)
      obtain ⟨tag, v, same⟩ := heard _ new
      cases same
  | call begins =>
      refine (List.mem_cons.mp mem).symm.imp_right fun same => ?_
      cases same
      refine ⟨rfl, ?_⟩
      cases c with
      | stream i c => exact numbered.accounted begins rfl rfl
      | plugin => cases begins
      | emitter event c => exact absurd rfl (other event c)
  | join => exact .inl mem

/-! ## Writers and their sources -/

structure BeginsWriting (s s' : Scene P) (owner : Owner) (k : Nat) : Prop where
  owner : owner = .call s.calls
  called : ∃ c, c.Writes ∧ .called s.calls c ∈ s'.events
  number : k = s.sources + 1
  counted : k ≤ s'.sources
  events : ∃ es, s'.events = es ++ s.events ∧ ∀ e ∈ es, ∀ k, e.isOf k = false

theorem Shift.sources (shift : Shift s s') : s.sources ≤ s'.sources := by
  cases shift with
  | step step => exact step.sources
  | aside aside => exact (congrArg Scene.sources aside.rest).ge
  | call => exact Nat.le_add_right _ _
  | join => exact Nat.le_refl _

/-- Who writes an object does nothing else, and did so before or begins to. -/
theorem Shift.writes (shift : Shift s s') (lone : ∀ th ∈ s.threads, th.Lone)
    (mem : th' ∈ s'.threads) (writes : .writing i k w ∈ th'.frames) :
      th'.frames = [.writing i k w] ∧
      ((∃ th ∈ s.threads, (∃ v, th.frames = [.writing i k v]) ∧ th'.owner = th.owner) ∨
        s.BeginsWriting s' th'.owner k) := by
  have kept (old : th' ∈ s.threads) : th'.frames = [.writing i k w] ∧
      ((∃ th ∈ s.threads, (∃ v, th.frames = [.writing i k v]) ∧ th'.owner = th.owner) ∨
        s.BeginsWriting s' th'.owner k) := by
    have alone := lone th' old i k w writes
    exact ⟨alone, .inl ⟨th', old, ⟨w, alone⟩, rfl⟩⟩
  cases shift with
  | step step =>
      refine (step.writes lone mem writes).imp_right fun origin => origin.imp_right ?_
      rintro ⟨bucket, key, source, rfl, rfl⟩
      cases List.mem_singleton.mp writes
      refine ⟨rfl, ⟨_, .plugin, List.mem_cons_of_mem _ List.mem_cons_self⟩, rfl, Nat.le_refl _,
        [_, _], rfl, ?_⟩
      simp [Event.isOf]
  | aside aside =>
      rw [aside.rest] at mem
      exact kept mem
  | @call c ths begins =>
      refine (Multiset.mem_add.mp mem).elim (fun new => ?_) kept
      cases begins with
      | write =>
          obtain rfl := List.mem_singleton.mp new
          cases List.mem_singleton.mp writes
          refine ⟨rfl,
            .inr ⟨rfl, ⟨_, .stream, List.mem_cons_self⟩, rfl, Nat.le_refl _, [_], rfl, ?_⟩⟩
          simp [Event.isOf]
      | emission => exact absurd new List.not_mem_nil
      | method | close | whenClosed | identified | read | answered =>
          obtain rfl := List.mem_singleton.mp new
          simp at writes
  | @join th joins =>
      refine (Multiset.mem_cons.mp mem).elim (fun new => ?_) kept
      subst new
      obtain ⟨gate, follows⟩ := joins.frames _ writes
      cases follows

theorem Shift.sourced (shift : Shift s s') (k : Nat) :
    (∃ es, s'.events = es ++ s.events ∧ ∀ e ∈ es, e.isOf k = false) ∨
      ∃ o i w fs n, ⟨.bound o, .writing i k w :: fs, n⟩ ∈ s.threads ∧
        (Writing.resume w o).thread s.gates i k fs n ∈ s'.threads ∧
        s'.events = (w.resume o).events k ++ s.events := by
  cases shift with
  | step step => exact step.sourced k
  | aside aside =>
      obtain ⟨es, events, heard⟩ := aside.events
      refine .inl ⟨es, events, fun e mem => ?_⟩
      obtain ⟨tag, v, rfl⟩ := heard e mem
      rfl
  | call => exact .inl ⟨[_], rfl, List.forall_mem_singleton.mpr rfl⟩
  | join => exact .inl ⟨[], rfl, List.forall_mem_nil _⟩

/-- What is known of calls and of those that write objects, whatever is called. -/
structure WriterFacts (s : Scene P) : Prop where
  numbered : s.Numbered
  accounted : ∀ {n c}, .called n c ∈ s.events → (∀ event c', c ≠ .emitter event c') → s.Accounted n
  lone : ∀ th ∈ s.threads, th.Lone
  called : ∀ {th i k w}, th ∈ s.threads → th.frames = [.writing i k w] →
    ∃ n c, th.owner = .call n ∧ c.Writes ∧ .called n c ∈ s.events
  alone : ∀ {th th' i i' k w w'}, th ∈ s.threads → th.frames = [.writing i k w] → th' ∈ s.threads →
    th'.frames = [.writing i' k w'] → th.owner = th'.owner
  number : ∀ {th i k w}, th ∈ s.threads → th.frames = [.writing i k w] → k ≤ s.sources
  past : ∀ {e k}, e ∈ s.events → e.isOf k = true → k ≤ s.sources
  fresh : ∀ {th i k w}, th ∈ s.threads → th.frames = [.writing i k w] → w.phase = .starting →
    ∀ e ∈ s.events, e.isOf k = false

end Scene

theorem Writing.resume_started (w : Writing) {o : Outcome} :
    (w.resume o).state.phase ≠ .starting := by
  by_cases keen : w.Keen o
  · rw [resume_of_keen keen, pull]
    split <;> rintro ⟨⟩
  · have holds := (spares_resume keen).holds
    intro starting
    rw [starting] at holds
    exact holds

/-! ## Calls of writers -/

/-- A call that writes an object, its stream and the number of its source. -/
structure WriterCall where
  call : Nat
  stream : StreamId
  source : Nat

namespace WriterCall

variable {s s' : Scene P} {p : WriterCall} {w : Writing} {st : Stage}

def thread (p : WriterCall) (w : Writing) (st : Stage) : Thread P :=
  ⟨st, [.writing p.stream p.source w], .call p.call⟩

/-- What becomes of a writer. -/
inductive Moves (s s' : Scene P) (p : WriterCall) (w : Writing) : Stage → Prop where
  /-- It takes a turn. -/
  | turn {o} : (w.resume o).thread s.gates p.stream p.source [] (.call p.call) ∈ s'.threads →
    s'.events = (w.resume o).events p.source ++ s.events → Moves s s' p w (.bound o)
  /-- Its message is taken. -/
  | taken {h m terminal} : s.closed h = false → p.thread w (.sent h terminal true) ∈ s'.threads →
    (∃ th ∈ s'.threads, th.stage = .received h (some m)) →
    s'.events = .handed h m :: s.events → Moves s s' p w (.offering h m terminal)
  /-- Its stage goes on. -/
  | on {st st' es} : s'.events = es ++ s.events → (∀ e ∈ es, e.isOf p.source = false) →
    p.thread w st' ∈ s'.threads → st.Goes s' st' →
    (∀ h m terminal, st = .offering h m terminal → st' ≠ .sent h terminal true) →
    (∀ h m, st = .received h m → st' = st ∨ .received h (Stage.receipt m) ∈ es) → Moves s s' p w st

end WriterCall

namespace Scene

variable {s s' : Scene P} {p : WriterCall} {w : Writing} {st : Stage}

theorem WriterFacts.accounted_writer (facts : s.WriterFacts) (mem : p.thread w st ∈ s.threads) :
    p.call < s.calls ∧ ¬ Event.Emitted s.events p.call ∧ s.Accounted p.call := by
  obtain ⟨n, c, owner, writes, called⟩ := facts.called mem rfl
  cases owner
  have others := writes.not_emitter
  exact ⟨facts.numbered.below called, facts.numbered.not_emitted called others,
    facts.accounted called others⟩

/-- Whoever takes a message is given it. -/
theorem Step.receiver (step : Step s s') {h : HalfId} {m : Message}
    (events : s'.events = .handed h m :: s.events) :
    ∃ th ∈ s'.threads, th.stage = .received h (some m) := by
  obtain ⟨es, events', calm | ⟨h', m', fs, w, terminal, fs', w', new, -, -, -, given, -⟩⟩ :=
    step.news
  all_goals
    rw [events] at events'
    have same : [Event.handed h m] = es := List.append_cancel_right events'
  · exact absurd (same ▸ List.mem_singleton_self _) (calm h m)
  · cases same.trans new
    exact ⟨_, given, rfl⟩

theorem Step.moves (step : Step s s') (mem : p.thread w st ∈ s.threads) {es : List Event}
    (events : s'.events = es ++ s.events) (apart : ∀ e ∈ es, e.isOf p.source = false) :
    p.Moves s s' w st := by
  have untaken {h h' : HalfId} {m terminal terminal'} :
      Stage.offering h m terminal ≠ .sent h' terminal' true := by
    cases terminal' <;> rintro ⟨⟩
  obtain ⟨parts⟩ := step.parts
  obtain ⟨ths, becomes, results⟩ := parts.fate mem
  have noted := parts.events_eq
  have goesOn := becomes.cases noted
  generalize parts.events = es' at becomes goesOn noted
  have same : es' = es := List.append_cancel_right (noted.symm.trans events)
  subst same
  rcases goesOn with ⟨st', same, goes⟩ | turns
  · have result : p.thread w st' ∈ s'.threads := results _ (same ▸ List.mem_singleton_self _)
    cases becomes with
    | aside =>
        cases same
        exact .on noted apart result .stay (fun _ _ _ stage => stage ▸ untaken) fun _ _ _ =>
          .inl rfl
    | solo solo =>
        refine .on noted apart result goes (fun _ _ _ stage => by cases solo <;> cases stage)
          fun h m stage => ?_
        subst stage
        cases solo
        exact .inr (List.mem_singleton_self _)
    | yields es _ isOpen =>
        cases same
        rw [es] at noted
        exact .taken isOpen result (step.receiver noted) noted
    | shut | takes => exact .on noted apart result goes (by rintro _ _ _ ⟨⟩) (by rintro _ _ ⟨⟩)
    | @released h =>
        cases same
        refine .on noted apart result goes (fun h' m terminal stage => ?_) fun h' m stage =>
          .inl (stage ▸ rfl)
        subst stage
        change (if h' = h then Stage.sent h terminal false else .offering h' m terminal) ≠ _
        split
        · cases terminal <;> rintro ⟨⟩
        · exact untaken
    | gate =>
        cases same
        exact .on noted apart result goes (fun _ _ _ stage => stage ▸ untaken) fun _ _ stage =>
          .inl (stage ▸ rfl)
  · cases turns
    exact .turn (results _ List.mem_cons_self) noted

namespace WriterFacts

variable (facts : s.WriterFacts)
include facts

theorem moves (mem : p.thread w st ∈ s.threads) (shift : Shift s s') : p.Moves s s' w st := by
  rcases shift.sourced p.source with ⟨es, events, apart⟩ | ⟨o, i, v, fs, n, inside, result, events⟩
  · have stays (kept : p.thread w st ∈ s'.threads) : p.Moves s s' w st := by
      refine .on events apart kept .stay (fun h m terminal same => ?_) fun _ _ _ => .inl rfl
      subst same
      cases terminal <;> rintro ⟨⟩
    cases shift with
    | step step => exact step.moves mem events apart
    | aside aside => exact stays (aside.rest ▸ mem)
    | call => exact stays (Multiset.mem_add.mpr (.inr mem))
    | join => exact stays (Multiset.mem_cons_of_mem mem)
  · -- Whoever draws from the source is the writer.
    have alone := facts.lone _ inside i p.source v List.mem_cons_self
    cases alone
    have owner : n = .call p.call := facts.alone inside rfl mem rfl
    subst owner
    obtain ⟨-, -, accounted⟩ := facts.accounted_writer mem
    cases accounted.eq inside mem rfl rfl
    exact .turn result events

theorem eq_writer (mem : p.thread w st ∈ s.threads) {th : Thread P} (inside : th ∈ s.threads)
    (owner : th.owner = .call p.call) : th = p.thread w st :=
  (facts.accounted_writer mem).2.2.eq inside mem (owner ▸ rfl) rfl

theorem unsettled (mem : p.thread w st ∈ s.threads) (so : Settlement) :
    .settled p.call so ∉ s.events :=
  (facts.accounted_writer mem).2.2.unsettled mem rfl so

theorem accounted_shift {n : Nat} {c : Call} (shift : Shift s s') (mem : .called n c ∈ s'.events)
    (other : ∀ event c', c ≠ .emitter event c') : s'.Accounted n := by
  rcases shift.called facts.numbered mem other with old | ⟨rfl, accounted⟩
  · have apart := facts.numbered.not_emitted old other
    exact (facts.accounted old other).stir (facts.numbered.below old) (shift.stir apart)
  · exact accounted

theorem accounted_next (mem : p.thread w st ∈ s.threads) (shift : Shift s s') :
    s'.Accounted p.call := by
  obtain ⟨n, c, owner, writes, called⟩ := facts.called mem rfl
  cases owner
  exact facts.accounted_shift shift (shift.later.mem called) writes.not_emitter

theorem draws_shift (shift : Shift s s') {th : Thread P} {k : Nat} (mem : th ∈ s'.threads)
    (draws : th.DrawsFrom k)
    (given : k ≤ s.sources) : ∃ th₀ ∈ s.threads, th₀.DrawsFrom k ∧ th.owner = th₀.owner := by
  obtain ⟨i, w, fs, frames⟩ := draws
  have writes : .writing i k w ∈ th.frames := frames ▸ List.mem_cons_self
  rcases (shift.writes facts.lone mem writes).2 with ⟨th₀, old, ⟨v, frames₀⟩, same⟩ | begins
  · exact ⟨th₀, old, ⟨i, v, [], frames₀⟩, same⟩
  · exact absurd given (begins.number ▸ Nat.not_succ_le_self _)

theorem fresh_shift (shift : Shift s s') {th : Thread P} {i : StreamId} {k : Nat}
    (mem : th ∈ s'.threads) (frames : th.frames = [.writing i k w])
    (starting : w.phase = .starting) : ∀ e ∈ s'.events, e.isOf k = false := by
  have writes : .writing i k w ∈ th.frames := frames ▸ List.mem_singleton_self _
  rcases (shift.writes facts.lone mem writes).2 with ⟨th₀, old, ⟨v, frames₀⟩, same⟩ | begins
  · obtain ⟨n, c, owner, isWrite, called⟩ := facts.called old frames₀
    obtain ⟨st₀, _, _⟩ := th₀
    cases frames₀
    cases owner
    let p : WriterCall := ⟨n, i, k⟩
    have accounted := facts.accounted_shift shift (shift.later.mem called) isWrite.not_emitter
    have unique {other} (inside : other ∈ s'.threads) (owner : other.owner = .call n) :
        th = other :=
      accounted.eq mem inside (same ▸ rfl) (owner ▸ rfl)
    have silent (es) (events : s'.events = es ++ s.events) (apart : ∀ e ∈ es, e.isOf k = false)
        (first : v.phase = .starting) : ∀ e ∈ s'.events, e.isOf k = false := by
      rw [events]
      exact List.forall_mem_append.mpr ⟨apart, facts.fresh old rfl first⟩
    cases facts.moves (p := p) old shift with
    | turn result events =>
        rename_i o
        rcases (v.resume o).thread_cases s.gates i k [] (.call n) with
          ⟨o', -, gone⟩ | ⟨st', goesOn, -⟩
        · rw [gone] at result
          rw [unique result rfl] at frames
          cases frames
        · rw [goesOn] at result
          rw [unique result rfl] at frames
          cases frames
          exact absurd starting v.resume_started
    | taken _ result _ events =>
        rw [unique result rfl] at frames
        cases frames
        exact silent [_] events (List.forall_mem_singleton.mpr rfl) starting
    | on events apart result =>
        rw [unique result rfl] at frames
        cases frames
        exact silent _ events apart starting
  · obtain ⟨es, events, silent⟩ := begins.events
    rw [events]
    refine List.forall_mem_append.mpr ⟨fun e mem => silent e mem k, fun e mem => ?_⟩
    refine Bool.eq_false_iff.mpr fun isOf => ?_
    have le := facts.past mem isOf
    rw [begins.number] at le
    exact Nat.not_succ_le_self _ le

theorem shift (shift : Shift s s') : s'.WriterFacts where
  numbered := facts.numbered.shift shift
  accounted mem other := facts.accounted_shift shift mem other
  lone th mem i k w writes := (shift.writes facts.lone mem writes).1
  called {th i k w} mem frames := by
    have writes : .writing i k w ∈ th.frames := frames ▸ List.mem_singleton_self _
    rcases (shift.writes facts.lone mem writes).2 with ⟨th₀, old, ⟨v, frames₀⟩, same⟩ | begins
    · obtain ⟨n, c, owner, isWrite, called⟩ := facts.called old frames₀
      exact ⟨n, c, same.trans owner, isWrite, shift.later.mem called⟩
    · obtain ⟨c, isWrite, called⟩ := begins.called
      exact ⟨_, c, begins.owner, isWrite, called⟩
  alone {th th' i i' k w w'} mem frames mem' frames' := by
    have writes : .writing i k w ∈ th.frames := frames ▸ List.mem_singleton_self _
    have writes' : .writing i' k w' ∈ th'.frames := frames' ▸ List.mem_singleton_self _
    rcases (shift.writes facts.lone mem writes).2 with ⟨th₀, old, ⟨v, frames₀⟩, same⟩ | begins <;>
      rcases (shift.writes facts.lone mem' writes').2 with
        ⟨th₁, old', ⟨v', frames₁⟩, same'⟩ | begins'
    · exact same.trans ((facts.alone old frames₀ old' frames₁).trans same'.symm)
    · exact absurd (facts.number old frames₀) (begins'.number ▸ Nat.not_succ_le_self _)
    · exact absurd (facts.number old' frames₁) (begins.number ▸ Nat.not_succ_le_self _)
    · exact begins.owner.trans begins'.owner.symm
  number {th i k w} mem frames := by
    have writes : .writing i k w ∈ th.frames := frames ▸ List.mem_singleton_self _
    rcases (shift.writes facts.lone mem writes).2 with ⟨th₀, old, ⟨v, frames₀⟩, -⟩ | begins
    · exact (facts.number old frames₀).trans shift.sources
    · exact begins.counted
  past {e k} mem isOf := by
    rcases shift.sourced k with ⟨es, events, apart⟩ | ⟨o, i, v, fs, n, inside, -⟩
    · rw [events, List.mem_append] at mem
      have old := mem.resolve_left fun new => Bool.false_ne_true ((apart e new).symm.trans isOf)
      exact (facts.past old isOf).trans shift.sources
    · have alone := facts.lone _ inside i k v List.mem_cons_self
      exact (facts.number inside alone).trans shift.sources
  fresh mem frames starting := facts.fresh_shift shift mem frames starting

end WriterFacts

theorem WriterFacts.shifts (facts : s.WriterFacts) (shifts : Shifts s s') : s'.WriterFacts := by
  induction shifts with
  | refl => exact facts
  | tail _ shift ih => exact ih.shift shift

end Scene

namespace Exchange

variable {x : Exchange P} {kinds : List StreamKind}

theorem facts_ofStreams (ts) : ((ofStreams P kinds).scene ts).WriterFacts := by
  obtain ⟨threads, -, journal, -⟩ := fresh_ofStreams P kinds
  have nothing (e : Event) : e ∉ ((ofStreams P kinds).scene ts).events := by
    simp [scene, journal]
  have nobody (th : Thread P) : th ∉ ((ofStreams P kinds).scene ts).threads := by
    change th ∉ (ofStreams P kinds).threads
    rw [threads]
    exact Multiset.notMem_zero th
  have unnamed (name) : name ∉ Scene.names ((ofStreams P kinds).scene ts).threads := by
    intro mem
    obtain ⟨th, inside, -⟩ := Scene.mem_names.mp mem
    exact nobody th inside
  exact {
    numbered := ⟨fun mem => absurd mem (nothing _), fun mem => absurd mem (nothing _),
      fun mem => absurd mem (unnamed _), fun mem => absurd mem (nothing _)⟩
    accounted := fun mem => absurd mem (nothing _)
    lone := fun th mem => absurd mem (nobody th)
    called := fun mem => absurd mem (nobody _)
    alone := fun mem => absurd mem (nobody _)
    number := fun mem => absurd mem (nobody _)
    past := fun mem => absurd mem (nothing _)
    fresh := fun mem => absurd mem (nobody _) }

/-- However the streams are used, each writer has a call and a source of its own. -/
theorem Run.facts (run : Run (fun _ => True) (ofStreams P kinds) x) (ts) :
    (x.scene ts).WriterFacts := by
  obtain ⟨turns, shifts⟩ := Run.shifts .refl run []
  -- Nothing of it depends on the turns of handlers.
  have facts := (facts_ofStreams []).shifts shifts
  exact { facts with
    numbered := { facts.numbered with }
    accounted := facts.accounted
    fresh := facts.fresh }

end Exchange

end ObjectTransfer
