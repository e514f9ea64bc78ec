import ObjectTransfer.Proofs.Roles

/-! # Owners of threads

A call has at most one thread, and it has none once it settled; a stream has at most one thread that
serves it (`Scene.Owned`). So what is known of one thread of a call is known of the call.
-/

namespace ObjectTransfer

variable {P : Plugin}

/-- The call or the service to which an owner belongs; it has one thread at most. -/
def Owner.name? : Owner → Option (Nat ⊕ StreamId)
  | call n => some (.inl n)
  | plain n => some (.inl n)
  | service i => some (.inr i)
  | _ => none

theorem Stage.Goes.outcome {s' : Scene P} {st st' : Stage} (goes : st.Goes s' st') {o : Outcome}
    (outcome : st.outcome? = some o) : st'.outcome? = some o := by
  cases goes with
  | stay | shut => exact outcome
  | @note h m =>
      rcases m with _ | v | f <;> exact outcome
  | @release h st => cases st <;> first | exact outcome | exact nomatch outcome
  | @gate name o st => cases st <;> first | exact outcome | exact nomatch outcome
  | want | ended | enter | undelivered | deliver | take | taken => exact nomatch outcome

theorem Thread.Proper.service_lt {s : Scene P} {th : Thread P} (proper : th.Proper s)
    {i : StreamId} (named : th.owner.name? = some (.inr i)) : i < s.kinds.length := by
  cases proper with
  | starting lt | handler lt | served lt | delivering lt | finishing lt =>
      exact Sum.inr.inj (Option.some.inj named) ▸ lt
  | caller _ _ owner => rcases owner with rfl | rfl <;> exact nomatch named
  | @finished o w owner =>
      cases w with
      | service j => exact absurd rfl (owner j)
      | _ => exact nomatch named
  | beside | reader | writer => exact nomatch named

namespace Scene

def names (ths : Multiset (Thread P)) : Multiset (Nat ⊕ StreamId) :=
  ths.filterMap fun th => th.owner.name?

@[simp] theorem names_add (ths ths' : Multiset (Thread P)) :
    names (ths + ths') = names ths + names ths' :=
  Multiset.filterMap_add _ _ _

theorem names_cons (th : Thread P) (ths : Multiset (Thread P)) :
    names (th ::ₘ ths) = names {th} + names ths := by
  rw [← Multiset.singleton_add, names_add]

theorem names_singleton (th : Thread P) :
    names {th} = (match th.owner.name? with | some name => {name} | none => 0) := by
  rw [names]
  cases name : th.owner.name? with
  | none => exact Multiset.filterMap_cons_none _ _ name
  | some => exact Multiset.filterMap_cons_some _ _ _ name

theorem names_congr {th th' : Thread P} (owner : th.owner = th'.owner) :
    names {th} = names {th'} := by
  rw [names_singleton, names_singleton, owner]

theorem names_move (f : Stage → Stage) (ths : Multiset (Thread P)) :
    names (ths.map (·.move f)) = names ths := by
  simp only [names, Multiset.filterMap_map, Function.comp_def, Thread.move]

theorem mem_names {ths : Multiset (Thread P)} {name} :
    name ∈ names ths ↔ ∃ th ∈ ths, th.owner.name? = some name :=
  Multiset.mem_filterMap ..

structure Owned (s : Scene P) : Prop where
  nodup : (names s.threads).Nodup
  settled : ∀ {n o}, .settled n o ∈ s.events → .inl n ∉ names s.threads ∧ n < s.calls
  calls : ∀ {n}, .inl n ∈ names s.threads → n < s.calls
  services : ∀ {i}, .inr i ∈ names s.threads → i < s.kinds.length
  /-- A call that did not settle has a thread. -/
  kept : ∀ {n}, n < s.calls → .inl n ∈ names s.threads ∨ ∃ so, .settled n so ∈ s.events

variable {s s' : Scene P}

/-- No other thread has the owner of this one. -/
theorem Owned.unique (owned : s.Owned) {th other : Thread P} (pair : th ::ₘ {other} ≤ s.threads)
    {name} (named : th.owner.name? = some name) : other.owner.name? ≠ some name := by
  intro same
  have twice : names (th ::ₘ {other}) = name ::ₘ {name} := by
    rw [names_cons, names_singleton, names_singleton, named, same]
    rfl
  have le : names (th ::ₘ {other}) ≤ names s.threads := Multiset.filterMap_le_filterMap _ pair
  have nodup := Multiset.nodup_of_le (twice ▸ le) owned.nodup
  exact (Multiset.nodup_cons.mp nodup).1 (Multiset.mem_singleton_self name)

theorem Owned.eq (owned : s.Owned) {th other : Thread P} (mem : th ∈ s.threads)
    (mem' : other ∈ s.threads) {name} (named : th.owner.name? = some name)
    (named' : other.owner.name? = some name) : th = other := by
  by_contra differ
  obtain ⟨rest, threads⟩ := Multiset.exists_cons_of_mem mem
  rw [threads, Multiset.mem_cons] at mem'
  have inRest := mem'.resolve_left (Ne.symm differ)
  have pair : th ::ₘ {other} ≤ s.threads := by
    rw [threads, Multiset.cons_le_cons_iff]
    exact Multiset.singleton_le.mpr inRest
  exact owned.unique pair named named'

theorem Owned.eq_service (owned : s.Owned) {th other : Thread P} (mem : th ∈ s.threads)
    (mem' : other ∈ s.threads) {i : StreamId} (owner : th.owner = .service i)
    (owner' : other.owner = .service i) : th = other :=
  have named : th.owner.name? = some (.inr i) := owner ▸ rfl
  owned.eq mem mem' named (owner' ▸ rfl)

theorem Owned.same (owned : s.Owned) (es : List Event) (events : s'.events = es ++ s.events)
    (unsettled : ∀ n o, .settled n o ∉ es) (calls : s'.calls = s.calls) (kinds : s'.kinds = s.kinds)
    (names : names s'.threads = names s.threads) : s'.Owned where
  nodup := names ▸ owned.nodup
  settled mem := by
    rw [events, List.mem_append] at mem
    rw [names, calls]
    exact owned.settled (mem.resolve_left (unsettled _ _))
  calls mem := by
    rw [names] at mem
    exact calls ▸ owned.calls mem
  services mem := by
    rw [names] at mem
    exact kinds ▸ owned.services mem
  kept lt := by
    rw [calls] at lt
    rw [names, events]
    exact (owned.kept lt).imp_right fun ⟨so, mem⟩ => ⟨so, List.mem_append_right _ mem⟩

end Scene

/-! ## Owners of the threads in the place of one -/

theorem Reading.Next.thread_owner (i : StreamId) (fs : List (Frame P)) (w : Owner)
    (next : Reading.Next) : (next.thread i fs w).owner = w := by
  cases next <;> rfl

theorem Writing.Turn.thread_owner (gates : String → Option Outcome) (i : StreamId) (k : Nat)
    (fs : List (Frame P)) (w : Owner) (turn : Writing.Turn) :
    (turn.thread gates i k fs w).owner = w := by
  rw [thread]
  split <;> rfl

theorem Thread.served_owner (i : StreamId) (fs : List (Frame P)) (w : Owner) (o : Outcome) :
    (served i fs w o).owner = w := by
  cases o with
  | ok => rfl
  | error v =>
      simp only [served]
      split
      · rfl
      · split <;> rfl

theorem Act.threads_owner {gates : String → Option Outcome} {i : StreamId} {fs : List (Frame P)}
    {w : Owner} {act : Act P.Local} {th : Thread P} (mem : th ∈ act.threads gates i fs w) :
    th.owner = w ∨ th.owner = .nobody := by
  cases act with
  | fork =>
      simp only [Act.threads, List.mem_cons, List.not_mem_nil, or_false] at mem
      rcases mem with rfl | rfl
      · exact .inr rfl
      · exact .inl rfl
  | _ =>
      obtain rfl := List.mem_singleton.mp mem
      exact .inl rfl

theorem Thread.Turns.owner {s : Scene P} {th th' : Thread P} {ths es} (turns : th.Turns s ths es)
    (mem : th' ∈ ths) : th'.owner = th.owner ∨ th'.owner = .nobody := by
  cases turns with
  | handle => exact Act.threads_owner mem
  | read =>
      obtain rfl := List.mem_singleton.mp mem
      exact .inl (Reading.Next.thread_owner _ _ _ _)
  | write =>
      obtain rfl := List.mem_singleton.mp mem
      exact .inl (Writing.Turn.thread_owner _ _ _ _ _ _)
  | serve =>
      obtain rfl := List.mem_singleton.mp mem
      exact .inl (Thread.served_owner _ _ _ _)
  | settle => exact absurd mem List.not_mem_nil
  | start | delivered | follow =>
      obtain rfl := List.mem_singleton.mp mem
      exact .inl rfl

namespace Scene

variable {s s' : Scene P}

theorem Owned.fresh (threads : s.threads = 0) (events : s.events = []) (calls : s.calls = 0) :
    s.Owned := by
  have none : names s.threads = 0 := by
    rw [threads]
    rfl
  refine ⟨none ▸ Multiset.nodup_zero, fun mem => ?_, fun mem => ?_, fun mem => ?_, fun lt => ?_⟩
  · exact absurd (events ▸ mem) List.not_mem_nil
  · exact absurd (none ▸ mem) (Multiset.notMem_zero _)
  · exact absurd (none ▸ mem) (Multiset.notMem_zero _)
  · exact absurd (calls ▸ lt) (Nat.not_lt_zero _)

theorem names_act (act : Act P.Local) (gates : String → Option Outcome) (i : StreamId)
    (fs : List (Frame P)) (w : Owner) (o : Outcome) (state : P.Local) :
    names (↑(act.threads gates i fs w) : Multiset (Thread P)) =
      names {⟨.bound o, .handling i state :: fs, w⟩} := by
  cases act with
  | fork child next =>
      simp only [Act.threads, ← Multiset.cons_coe, Multiset.coe_nil]
      rw [names_cons, names_singleton]
      exact (zero_add _).trans (names_congr rfl)
  | _ => exact names_congr rfl

theorem Solo.names_eq {kindOf closed gates} {th : Thread P} {ths es}
    (solo : Solo kindOf closed gates th ths es) :
    (names (↑ths : Multiset (Thread P)) = names {th} ∧ ∀ n o, .settled n o ∉ es) ∨
      ths = [] ∧ ∃ o, es = th.owner.events o := by
  cases solo with
  | settle => exact .inr ⟨rfl, _, rfl⟩
  | read => exact .inl ⟨names_congr (Reading.Next.thread_owner _ _ _ _), by simp⟩
  | write =>
      refine .inl ⟨names_congr (Writing.Turn.thread_owner _ _ _ _ _ _), fun n o mem => ?_⟩
      obtain ⟨r, -, remarked⟩ := List.mem_filterMap.mp (List.mem_reverse.mp mem)
      cases r <;> cases remarked
  | serve => exact .inl ⟨names_congr (Thread.served_owner _ _ _ _), by simp⟩
  | _ => exact .inl ⟨names_congr rfl, by simp⟩

theorem Owned.settle (owned : s.Owned) {th : Thread P} {rest : Multiset (Thread P)}
    (threads : s.threads = th ::ₘ rest) {o : Outcome} (after : s'.threads = rest)
    (events : s'.events = th.owner.events o ++ s.events) (calls : s'.calls = s.calls)
    (kinds : s'.kinds = s.kinds) : s'.Owned := by
  have nodup := owned.nodup
  rw [threads, names_cons, names_singleton] at nodup
  have kept {name} (mem : name ∈ names s'.threads) : name ∈ names s.threads := by
    rw [threads, names_cons, Multiset.mem_add]
    exact .inr (after ▸ mem)
  refine ⟨after ▸ Multiset.nodup_of_le (Multiset.le_add_left _ _) nodup, fun {n so} mem => ?_,
    fun mem => calls ▸ owned.calls (kept mem), fun mem => kinds ▸ owned.services (kept mem),
    fun {n} lt => ?_⟩
  rotate_left
  · rw [calls] at lt
    rw [events]
    rcases owned.kept lt with mem | ⟨so, mem⟩
    · rw [threads, names_cons, Multiset.mem_add] at mem
      rcases mem with mem | mem
      · obtain ⟨th', same, named⟩ := mem_names.mp mem
        obtain rfl := Multiset.mem_singleton.mp same
        refine .inr ?_
        cases owner : th'.owner <;> rw [owner] at named <;>
          simp only [Owner.name?, Option.some.injEq, Sum.inl.injEq, reduceCtorEq] at named <;>
          subst named <;> exact ⟨_, List.mem_cons_self⟩
      · exact .inl (after ▸ mem)
    · exact .inr ⟨so, List.mem_append_right _ mem⟩
  rw [events, List.mem_append] at mem
  rcases mem with new | old
  · have named : th.owner.name? = some (.inl n) := by
      cases owner : th.owner <;> rw [owner] at new <;>
        simp only [Owner.events, List.mem_singleton, List.not_mem_nil, Event.settled.injEq]
          at new <;>
        simp [Owner.name?, new.1]
    rw [named] at nodup
    refine ⟨fun mem => ?_, calls ▸ owned.calls ?_⟩
    · exact (Multiset.nodup_cons.mp nodup).1 (after ▸ mem)
    · rw [threads, names_cons, names_singleton, named]
      exact Multiset.mem_add.mpr (.inl (Multiset.mem_singleton_self _))
  · obtain ⟨gone, lt⟩ := owned.settled old
    exact ⟨fun mem => gone (kept mem), calls ▸ lt⟩

theorem firstThread_owner (s : Scene P) (c : PluginCall) :
    (s.firstThread c).owner.name? = some (.inl s.calls) := by
  cases c with
  | method name m =>
      simp only [firstThread]
      split
      · split <;> rfl
      · rfl
  | readKept name =>
      simp only [firstThread]
      split <;> rfl
  | read | write | openDownload | openUpload | holds | keys => rfl

theorem Owned.entered (owned : s.Owned) {th : Thread P} {e : Event}
    (threads : s'.threads = th ::ₘ s.threads) (named : th.owner.name? = some (.inl s.calls))
    (calls : s'.calls = s.calls + 1) (kinds : s'.kinds = s.kinds)
    (events : s'.events = e :: s.events) (unsettled : ∀ n so, e ≠ .settled n so) : s'.Owned := by
  have names : names s'.threads = .inl s.calls ::ₘ names s.threads := by
    rw [threads, names_cons, names_singleton, named]
    rfl
  refine ⟨?_, fun {n o} mem => ?_, fun {n} mem => ?_, fun {i} mem => ?_, fun {n} lt => ?_⟩
  · rw [names, Multiset.nodup_cons]
    exact ⟨fun mem => absurd (owned.calls mem) (Nat.lt_irrefl _), owned.nodup⟩
  · have old : .settled n o ∈ s.events := by
      rw [events, List.mem_cons] at mem
      exact mem.resolve_left fun same => unsettled n o same.symm
    obtain ⟨gone, lt⟩ := owned.settled old
    refine ⟨fun mem => ?_, calls ▸ Nat.lt_succ_of_lt lt⟩
    rw [names, Multiset.mem_cons] at mem
    rcases mem with same | mem
    · exact absurd lt (Sum.inl.inj same ▸ Nat.lt_irrefl _)
    · exact gone mem
  · rw [names, Multiset.mem_cons] at mem
    rw [calls]
    rcases mem with same | mem
    · exact Sum.inl.inj same ▸ Nat.lt_succ_self _
    · exact Nat.lt_succ_of_lt (owned.calls mem)
  · rw [names, Multiset.mem_cons] at mem
    exact kinds ▸ owned.services (mem.resolve_left nofun)
  · rw [names, Multiset.mem_cons, events]
    rw [calls] at lt
    rcases Nat.lt_succ_iff_lt_or_eq.mp lt with lt | rfl
    · refine (owned.kept lt).imp .inr fun ⟨so, mem⟩ => ⟨so, List.mem_cons_of_mem _ mem⟩
    · exact .inl (.inl rfl)

theorem Owned.begin (owned : s.Owned) (c : PluginCall) : (s.begin c).Owned :=
  owned.entered rfl (s.firstThread_owner c) rfl rfl rfl nofun

theorem Owned.opened (owned : s.Owned) (c : PluginCall) (kind : StreamKind)
    (invocation : Invocation) : (s.opened c kind invocation).Owned := by
  have begun := owned.begin c
  have names : names (s.opened c kind invocation).threads =
      .inr s.kinds.length ::ₘ names (s.begin c).threads := by
    change Scene.names (s.firstService invocation ::ₘ (s.begin c).threads) = _
    rw [names_cons, names_singleton]
    rfl
  refine ⟨?_, fun {n o} mem => ?_, fun {n} mem => ?_, fun {i} mem => ?_, fun {n} lt => ?_⟩
  · rw [names, Multiset.nodup_cons]
    exact ⟨fun mem => absurd (begun.services mem) (Nat.lt_irrefl _), begun.nodup⟩
  · have old : .settled n o ∈ (s.begin c).events := by
      simpa [Scene.opened, Scene.openStream] using mem
    obtain ⟨gone, lt⟩ := begun.settled old
    refine ⟨fun mem => ?_, lt⟩
    rw [names, Multiset.mem_cons] at mem
    exact gone (mem.resolve_left (by rintro ⟨⟩))
  · rw [names, Multiset.mem_cons] at mem
    exact begun.calls (mem.resolve_left (by rintro ⟨⟩))
  · rw [names, Multiset.mem_cons] at mem
    rw [length_opened]
    rcases mem with same | mem
    · exact Sum.inr.inj same ▸ Nat.lt_succ_self _
    · exact Nat.lt_succ_of_lt (begun.services mem)
  · rw [names, Multiset.mem_cons]
    obtain kept | ⟨so, mem⟩ := begun.kept lt
    · exact .inl (.inr kept)
    · exact .inr ⟨so, List.mem_cons_of_mem _ mem⟩

/-- What a step means for the names of threads. -/
inductive Renames (s s' : Scene P) : Prop where
  /-- They stay, and nobody learns an outcome. -/
  | same (es : List Event) :
    s'.events = es ++ s.events → (∀ n so, .settled n so ∉ es) → s'.calls = s.calls →
    s'.kinds = s.kinds → names s'.threads = names s.threads → Renames s s'
  /-- An owner learns an outcome. -/
  | settles {th o} :
    s.threads = th ::ₘ s'.threads → s'.events = th.owner.events o ++ s.events → s'.calls = s.calls →
    s'.kinds = s.kinds → Renames s s'
  | call {c} : s' = s.begin c → Renames s s'
  | opening {c kind invocation} : s' = s.opened c kind invocation → Renames s s'

theorem Step.renames (step : Step s s') : Renames s s' := by
  cases step with
  | @solo th ths es rest threads solo =>
      rcases solo.names_eq with ⟨same, unsettled⟩ | ⟨rfl, o, rfl⟩
      · refine .same es rfl unsettled rfl rfl ?_
        rw [threads, names_add, same, ← names_cons]
      · exact .settles (threads.trans (congrArg (th ::ₘ ·) (zero_add rest).symm)) rfl rfl rfl
  | @start i invocation rest threads =>
      refine .same [] rfl nofun rfl rfl ?_
      rw [threads, names_cons, names_cons _ rest]
      exact congrArg (· + _) (names_congr rfl)
  | @handle o i state fs w rest threads =>
      refine .same _ rfl (fun n so mem => ?_) rfl rfl ?_
      · obtain ⟨_, _, _, did⟩ := Act.eq_did mem
        cases did
      · rw [threads, names_add, names_act _ _ _ _ _ o state, ← names_cons]
  | @close h next fs w rest threads =>
      refine .same [_] rfl (by simp) rfl rfl ?_
      rw [threads, names_cons, names_move, names_cons _ rest]
      exact congrArg (· + _) (names_congr rfl)
  | @meet h m terminal fs w fs' w' rest threads =>
      refine .same [_] rfl (by simp) rfl rfl ?_
      rw [threads, names_cons, names_cons _ rest, names_cons _ (_ ::ₘ rest), names_cons _ rest]
      exact congrArg₂ (· + ·) (names_congr rfl) (congrArg (· + _) (names_congr rfl))
  | gate => exact .same [] rfl nofun rfl rfl (names_move _ _)
  | strike | count => exact .same [] rfl nofun rfl rfl rfl
  | notice => exact .same [] rfl nofun rfl rfl (Multiset.filterMap_cons_none _ _ rfl)
  | call => exact .call rfl
  | opening => exact .opening rfl

theorem Owned.step (owned : s.Owned) (step : Step s s') : s'.Owned := by
  cases step.renames with
  | same es events unsettled calls kinds names =>
      exact owned.same es events unsettled calls kinds names
  | settles threads events calls kinds => exact owned.settle threads rfl events calls kinds
  | @call c begun =>
      rw [begun]
      exact owned.begin c
  | @opening c kind invocation opened =>
      rw [opened]
      exact owned.opened c kind invocation

theorem Owned.steps (owned : s.Owned) (steps : Steps s s') : s'.Owned := by
  induction steps with
  | refl => exact owned
  | tail _ step ih => exact ih.step step

theorem Reachable.owned (reachable : s.Reachable) : s.Owned :=
  .steps (.fresh rfl rfl rfl) reachable

/-! ## Calls that are over -/

/-- Whether a call came to this outcome. Perhaps only its owner is still to learn it. -/
structure Over (s : Scene P) (n : Nat) (o : Outcome) : Prop where
  threads : ∀ th ∈ s.threads, th.owner.name? = some (.inl n) → th = ⟨.bound o, [], .call n⟩
  settled : ∀ so, .settled n so ∈ s.events → so = .ofPromise o

theorem Step.settled (step : Step s s') {n : Nat} {so : Settlement}
    (settled : .settled n so ∈ s'.events) :
    .settled n so ∈ s.events ∨
      ∃ o w, ⟨.bound o, [], w⟩ ∈ s.threads ∧ .settled n so ∈ w.events o := by
  cases step with
  | @solo th ths es rest threads solo =>
      rcases List.mem_append.mp settled with new | old
      · rcases solo.names_eq with ⟨-, unsettled⟩ | ⟨rfl, -⟩
        · exact absurd new (unsettled n so)
        · cases solo with
          | settle => exact .inr ⟨_, _, threads ▸ Multiset.mem_cons_self _ _, new⟩
      · exact .inl old
  | @handle o i state =>
      rcases List.mem_append.mp settled with new | old
      · obtain ⟨_, _, _, did⟩ := Act.eq_did new
        exact nomatch did
      · exact .inl old
  | start | gate | strike | count | notice => exact .inl settled
  | close | meet | call | opening => exact .inl (by simpa [begin, opened, openStream] using settled)

theorem Over.of_thread (owned : s.Owned) {n : Nat} {o : Outcome}
    (mem : ⟨.bound o, [], .call n⟩ ∈ s.threads) : s.Over n o where
  threads _ mem' named := owned.eq mem' mem named rfl
  settled _ settled := absurd (mem_names.mpr ⟨_, mem, rfl⟩) (owned.settled settled).1

/-- Nobody waits for a message of a half that is closed. -/
theorem Becomes.not_wants {h : HalfId} {es ts fs w fs' w'}
    (becomes : Becomes s s' es ts ⟨.asking h, fs, w⟩ [⟨.wanting h, fs', w'⟩]) :
    s.closed h = false := by
  cases becomes with
  | solo solo =>
      cases solo with
      | want isOpen => exact isOpen

/-- Where the thread of a call comes from that began before; it begins to wait at an open half only.
-/
theorem Step.waits (step : Step s s') {n : Nat} (lt : n < s.calls) {th' : Thread P}
    (mem : th' ∈ s'.threads) (named : th'.owner.name? = some (.inl n)) :
    ∃ th ∈ s.threads, th.owner.name? = some (.inl n) ∧
      ((∃ stage, th' = { th with stage } ∧ th.stage.Goes s' stage ∧
          ∀ {h}, th.stage = .asking h → stage = .wanting h → s.closed h = false) ∨
        ∃ ths es, th.Turns s ths es ∧ th' ∈ ths) := by
  obtain ⟨parts⟩ := step.parts
  rcases parts.origin mem with fresh | ⟨th, old, ths, becomes, mem⟩
  · rcases parts.enters.cases fresh with ⟨label, rfl⟩ | ⟨c, rfl⟩ | ⟨invocation, rfl⟩
    · cases named
    · rw [s.firstThread_owner c] at named
      exact absurd lt (Sum.inl.inj (Option.some.inj named) ▸ Nat.lt_irrefl _)
    · cases named
  · rcases becomes.cases parts.events_eq with ⟨stage, rfl, goes⟩ | turns
    · obtain rfl := List.mem_singleton.mp mem
      refine ⟨th, old, named, .inl ⟨stage, rfl, goes, ?_⟩⟩
      rintro h asks rfl
      obtain ⟨st, frames, owner⟩ := th
      cases asks
      exact becomes.not_wants
    · refine ⟨th, old, ?_, .inr ⟨_, _, turns, mem⟩⟩
      rcases turns.owner mem with same | nobody
      · exact same ▸ named
      · rw [nobody] at named
        cases named

theorem Step.named (step : Step s s') {n : Nat} (lt : n < s.calls) {th' : Thread P}
    (mem : th' ∈ s'.threads) (named : th'.owner.name? = some (.inl n)) :
    ∃ th ∈ s.threads, th.owner.name? = some (.inl n) ∧
      ((∃ stage, th' = { th with stage } ∧ th.stage.Goes s' stage) ∨
        ∃ ths es, th.Turns s ths es ∧ th' ∈ ths) := by
  obtain ⟨th, old, named', ⟨stage, same, goes, -⟩ | turns⟩ := step.waits lt mem named
  · exact ⟨th, old, named', .inl ⟨stage, same, goes⟩⟩
  · exact ⟨th, old, named', .inr turns⟩

theorem Step.served (step : Step s s') {i : StreamId} (lt : i < s.kinds.length) {th' : Thread P}
    (mem : th' ∈ s'.threads) (owner : th'.owner = .service i) :
    ∃ th ∈ s.threads, th.owner = .service i ∧
      ((∃ stage, th' = { th with stage } ∧ th.stage.Goes s' stage) ∨
        ∃ ths es, th.Turns s ths es ∧ th' ∈ ths) := by
  obtain ⟨parts⟩ := step.parts
  rcases parts.origin mem with fresh | ⟨th, old, ths, becomes, mem⟩
  · rcases parts.enters.cases fresh with ⟨label, rfl⟩ | ⟨c, rfl⟩ | ⟨invocation, rfl⟩
    · exact nomatch owner
    · exact nomatch owner ▸ s.firstThread_owner c
    · obtain rfl := Owner.service.inj owner
      exact absurd lt (Nat.lt_irrefl _)
  · rcases becomes.cases parts.events_eq with ⟨stage, rfl, goes⟩ | turns
    · obtain rfl := List.mem_singleton.mp mem
      exact ⟨th, old, owner, .inl ⟨stage, rfl, goes⟩⟩
    · refine ⟨th, old, ?_, .inr ⟨_, _, turns, mem⟩⟩
      rcases turns.owner mem with same | nobody
      · exact same.symm.trans owner
      · exact nomatch nobody.symm.trans owner

theorem Over.step {n : Nat} {o : Outcome} (finished : s.Over n o) (lt : n < s.calls)
    (step : Step s s') : s'.Over n o where
  threads th' mem named := by
    obtain ⟨th, old, named', ⟨stage, rfl, goes⟩ | ⟨ths, es, turns, mem⟩⟩ := step.named lt mem named
    · obtain rfl := finished.threads th old named'
      rw [Stage.bound_goes goes]
    · obtain rfl := finished.threads th old named'
      cases turns
      exact absurd mem List.not_mem_nil
  settled so settled := by
    rcases step.settled settled with old | ⟨o', w, mem, learns⟩
    · exact finished.settled so old
    · have named : w.name? = some (.inl n) := by
        cases w <;> simp_all [Owner.events, Owner.name?]
      cases finished.threads _ mem named
      simpa [Owner.events] using learns

/-! ## Calls that are bound to come to an outcome -/

/-- Whether a call leads to this outcome, whatever else happens. -/
structure Due (s : Scene P) (n : Nat) (o : Outcome) : Prop where
  threads : ∀ th ∈ s.threads, th.owner.name? = some (.inl n) →
    th.owner = .call n ∧ th.frames = [] ∧ th.stage.outcome? = some o
  settled : ∀ so, .settled n so ∈ s.events → so = .ofPromise o

theorem Due.of_thread (owned : s.Owned) {n : Nat} {o : Outcome} {th : Thread P}
    (mem : th ∈ s.threads) (owner : th.owner = .call n) (frames : th.frames = [])
    (outcome : th.stage.outcome? = some o) : s.Due n o where
  threads other mem' named := by
    obtain rfl := owned.eq mem' mem named (owner ▸ rfl)
    exact ⟨owner, frames, outcome⟩
  settled so settled :=
    absurd (mem_names.mpr ⟨th, mem, owner ▸ rfl⟩) (owned.settled settled).1

theorem Due.entered {n : Nat} {o : Outcome} (due : s.Due n o) (lt : n < s.calls) {th : Thread P}
    {e : Event} (threads : s'.threads = th ::ₘ s.threads)
    (named : th.owner.name? = some (.inl s.calls)) (events : s'.events = e :: s.events)
    (unsettled : ∀ n so, e ≠ .settled n so) : s'.Due n o where
  threads other mem named' := by
    rw [threads, Multiset.mem_cons] at mem
    rcases mem with rfl | mem
    · rw [named] at named'
      exact absurd lt (Sum.inl.inj (Option.some.inj named') ▸ Nat.lt_irrefl _)
    · exact due.threads other mem named'
  settled so settled := by
    rw [events, List.mem_cons] at settled
    exact due.settled so (settled.resolve_left fun same => unsettled n so same.symm)

theorem Due.step {n : Nat} {o : Outcome} (due : s.Due n o) (lt : n < s.calls)
    (step : Step s s') : s'.Due n o where
  threads th' mem named := by
    obtain ⟨th, old, named', ⟨stage, rfl, goes⟩ | ⟨ths, es, turns, mem⟩⟩ := step.named lt mem named
    · obtain ⟨owner, frames, outcome⟩ := due.threads th old named'
      exact ⟨owner, frames, goes.outcome outcome⟩
    · obtain ⟨owner, frames, -⟩ := due.threads th old named'
      cases turns with
      | settle => exact absurd mem List.not_mem_nil
      | start | handle | read | write | serve | delivered | follow => exact nomatch frames
  settled so settled := by
    rcases step.settled settled with old | ⟨o', w, mem, learns⟩
    · exact due.settled so old
    · have named : w.name? = some (.inl n) := by
        cases w <;> simp_all [Owner.events, Owner.name?]
      obtain ⟨rfl, -, outcome⟩ := due.threads _ mem named
      obtain rfl := Option.some.inj outcome
      simpa [Owner.events] using learns

theorem Due.steps {n : Nat} {o : Outcome} (due : s.Due n o) (lt : n < s.calls)
    (steps : Steps s s') : s'.Due n o := by
  induction steps with
  | refl => exact due
  | tail steps step ih => exact ih.step (Nat.lt_of_lt_of_le lt (Steps.later steps).calls) step

end Scene

end ObjectTransfer
