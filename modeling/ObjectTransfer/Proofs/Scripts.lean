import ObjectTransfer.Proofs.Playbacks
import ObjectTransfer.Scripted.Plugin

/-! # Plugins whose handlers follow programs

Whether handlers follow a program can be told from their plugin alone (`Plugin.Follows`): in every
run the handler of a download then follows it (`Scene.Reachable.directs`). A scripted handler that
neither receives nor starts deeds without waiting for them follows the program of its deeds
(`Scripted.follows_program`).
-/

namespace ObjectTransfer

def Act.next? {σ : Type} : Act σ → Option σ
  | call _ next => some next
  | wait _ next => some next
  | rest next => some next
  | fork _ next => some next
  | did _ _ _ next => some next
  | log _ next => some next
  | succeed => none
  | fail _ => none
  | refuse _ => none

variable {P : Plugin}

namespace Plugin

/-- Whether handlers in these states do what is left of these programs, whatever they share and
whatever they learn, and are again in such states. -/
def Simulates (P : Plugin) (left : P.Local → (Outcome → Program) → Prop) : Prop :=
  ∀ state k, left state k → ∀ shared o, ∃ k', (P.step shared state o).2.Obeys (k o) k' ∧
    ∀ next ∈ (P.step shared state o).2.next?, left next k'

/-- Whether a handler in this state does what is left of a program, whatever the others do. -/
def Follows (P : Plugin) (state : P.Local) (k : Outcome → Program) : Prop :=
  ∃ left, P.Simulates left ∧ left state k

theorem Follows.step {state : P.Local} {k : Outcome → Program} (follows : P.Follows state k)
    (shared : P.Shared) (o : Outcome) :
    ∃ k', (P.step shared state o).2.Obeys (k o) k' ∧
      ∀ next ∈ (P.step shared state o).2.next?, P.Follows next k' := by
  obtain ⟨left, simulates, inside⟩ := follows
  obtain ⟨k', obeys, goesOn⟩ := simulates state k inside shared o
  exact ⟨k', obeys, fun next mem => ⟨left, simulates, goesOn next mem⟩⟩

end Plugin

namespace Scene

variable {s s' : Scene P} {i : StreamId} {program : Program}

/-- How far the handler of a stream is that follows a program: it goes on, or it ended. -/
inductive Follows (s : Scene P) (i : StreamId) (program : Program) : Prop where
  | going {st state k} :
    program.Leaves (s.turnsOf i) k → P.Follows state k →
    ⟨st, [.handling i state, .serving i], .service i⟩ ∈ s.threads → Follows s i program
  | done : program.Directs (s.turnsOf i) → ¬ s.Running i → Follows s i program

theorem Follows.directs (follows : s.Follows i program) : program.Directs (s.turnsOf i) := by
  cases follows with
  | going leaves => exact ⟨_, leaves⟩
  | done directs => exact directs

theorem Follows.unforked (follows : s.Follows i program) : s.Unforked i := by
  intro turn mem stream
  exact follows.directs.not_forks (mem_turnsOf.mpr ⟨mem, stream⟩)

theorem Reachable.not_running {o : Outcome} (reachable : s.Reachable)
    (mem : ⟨.bound o, [.serving i], .service i⟩ ∈ s.threads) : ¬ s.Running i := by
  rintro ⟨th, inside, owner, runs⟩
  obtain rfl := reachable.owned.eq_service mem inside rfl owner
  exact Thread.bound_not_runs runs

theorem Follows.of_turn {k k' : Outcome → Program} {o : Outcome} {act : Act P.Local}
    {gates : String → Option Outcome} (reachable : s.Reachable) (obeys : act.Obeys (k o) k')
    (goesOn : ∀ next ∈ act.next?, P.Follows next k') (leaves : program.Leaves (s.turnsOf i) k')
    (results : ∀ th ∈ act.threads gates i [.serving i] (.service i), th ∈ s.threads) :
    s.Follows i program := by
  have result {th} (inside : th ∈ act.threads gates i [.serving i] (.service i)) :=
    results th inside
  generalize k o = left at obeys
  cases obeys with
  | calls | waits | rests | shows | logs =>
      exact .going leaves (goesOn _ rfl) (result List.mem_cons_self)
  | succeeds | fails | refuses =>
      exact .done ⟨_, leaves⟩ (reachable.not_running (result List.mem_cons_self))

theorem Follows.step (follows : s.Follows i program) (reachable : s.Reachable)
    (lt : i < s.kinds.length)
    (step : Step s s') : s'.Follows i program := by
  have unforked := follows.unforked
  cases follows with
  | @going st state k leaves goesOn mem =>
      obtain ⟨parts⟩ := step.parts
      obtain ⟨ths, becomes, results⟩ := parts.fate mem
      rcases reachable.service unforked mem rfl parts becomes with
        ⟨o, state', same, turns, rfl⟩ | ⟨turns, ⟨st', rfl, -⟩ | ⟨turns', still⟩⟩
      · cases same
        obtain ⟨k', obeys, goesOn⟩ := goesOn.step s.shared o
        exact .of_turn (reachable.tail step) obeys goesOn (turns ▸ ⟨k, leaves, obeys⟩) results
      · exact .going (turns ▸ leaves) goesOn (results _ List.mem_cons_self)
      · generalize parts.events = es at turns'
        cases turns'
        exact absurd rfl (still _ _ _ _ _)
  | done directs ended =>
      refine .done ?_ fun running => ended (running.before lt reachable.cast step)
      rcases step.turns_eq with same | ⟨turn, turns, -, fs, w, mem, -⟩
      · rwa [turnsOf, same]
      · have other : turn.stream ≠ i := fun same =>
          ended ⟨_, mem, reachable.taker unforked mem ⟨fs, rfl⟩ same, .inr ⟨_, _, _, rfl⟩⟩
        rwa [turnsOf, turns, List.filter_cons_of_neg (by simpa using other)]

/-- The handler of a download is still to start, or it follows whatever program a handler follows
that is invoked in the state in which it was. -/
theorem Reachable.follows (reachable : s.Reachable) (lt : i < s.kinds.length)
    (kind : s.kindOf i = .download) :
    (∃ bucket key, ⟨.starting i (.get bucket key), [.serving i], .service i⟩ ∈ s.threads ∧
      s.turnsOf i = []) ∨
    ∃ shared bucket key, ∀ program,
      P.Follows (P.invoke shared (.get bucket key)).2 (fun _ => program) → s.Follows i program := by
  induction reachable with
  | refl => exact absurd lt (Nat.not_lt_zero _)
  | @tail s s' steps step ih =>
      have reached : s.Reachable := steps
      rcases step.stream_cases lt kind with ⟨old, kind⟩ | ⟨rfl, c, invocation, opens, rfl⟩
      · rcases ih old kind with ⟨bucket, key, mem, none⟩ | ⟨shared, bucket, key, follows⟩
        · obtain ⟨parts⟩ := step.parts
          obtain ⟨ths, becomes, results⟩ := parts.fate mem
          have unforked : s.Unforked i := by
            intro turn mem stream
            have inside : turn ∈ s.turnsOf i := mem_turnsOf.mpr ⟨mem, stream⟩
            rw [none] at inside
            cases inside
          rcases reached.service unforked mem rfl parts becomes with
            ⟨o, state, same, -⟩ | ⟨turns, ⟨st, rfl, goes⟩ | ⟨turns', -⟩⟩
          · cases same
          · obtain rfl : st = .starting i (.get bucket key) := by cases goes <;> rfl
            exact .inl ⟨bucket, key, results _ List.mem_cons_self, turns.trans none⟩
          · generalize parts.events = es at turns'
            cases turns'
            refine .inr ⟨s.shared, bucket, key, fun program follows => ?_⟩
            refine .going ?_ follows (results _ List.mem_cons_self)
            rw [turns, none]
            rfl
        · exact .inr
            ⟨shared, bucket, key,
              fun program given => (follows program given).step reached old step⟩
      · obtain ⟨bucket, key, rfl⟩ := opens?_download opens
        exact .inl ⟨bucket, key, Multiset.mem_cons_self _ _, reached.turnsOf_fresh⟩

theorem Reachable.directs (reachable : s.Reachable) (lt : i < s.kinds.length)
    (kind : s.kindOf i = .download) : ∃ shared bucket key, ∀ program,
      P.Follows (P.invoke shared (.get bucket key)).2 (fun _ => program) →
        program.Directs (s.turnsOf i) := by
  rcases reachable.follows lt kind with ⟨bucket, key, -, none⟩ | ⟨shared, bucket, key, follows⟩
  · refine ⟨s.shared, bucket, key, fun program _ => ⟨fun _ => program, ?_⟩⟩
    rw [none]
    rfl
  · exact ⟨shared, bucket, key, fun program given => (follows program given).directs⟩

end Scene

/-! ## Scripts -/

namespace Scripted

/-- Whether a deed neither receives nor starts another deed. -/
def Deed.IsPlain : Deed → Prop
  | throws _ => True
  | refuses _ => True
  | waits _ => True
  | drains => False
  | attempts d => d.IsPlain
  | spawns _ => False
  | calls _ => True

/-- What a handler does when a deed came to this outcome. -/
def afterDeed (attempted : Bool) (rest : Program) : Outcome → Program
  | .ok _ => rest
  | .error v => if attempted then rest else .ends (.error v)

def Deed.program (attempted : Bool) (rest : Program) : Deed → Program
  | throws v => afterDeed attempted rest (.error v)
  | refuses v => .ends (.error v)
  | waits gate => .waits gate (afterDeed attempted rest)
  | drains => rest
  | attempts d => d.program true rest
  | spawns _ => rest
  | calls m => .calls m (afterDeed attempted rest)

def programOf : List Deed → Program
  | [] => .ends (.ok .undefined)
  | d :: rest => d.program false (programOf rest)

/-- What is left to do of the program of a script. -/
def State.left (st : State) : Outcome → Program :=
  match st.phase with
  | .throwing v => fun _ => afterDeed (0 < st.attempts) (programOf st.rest) (.error v)
  | .calling _ => afterDeed (0 < st.attempts) (programOf st.rest)
  | .waiting => afterDeed (0 < st.attempts) (programOf st.rest)
  | _ => fun _ => programOf st.rest

/-- Whether a handler performs deeds of a script that are plain. -/
structure State.Performs (st : State) : Prop where
  plain : ∀ d ∈ st.rest, d.IsPlain
  unspawned : st.spawned = false
  phase : st.phase ≠ .draining ∧ st.phase ≠ .receiving ∧ st.phase ≠ .finished

variable {st next : State} {program : Program}

/-- Whether a handler does what its program says and goes on with what is left of it. -/
def Complies (act : Act State) (program : Program) : Prop :=
  ∃ k, act.Obeys program k ∧ ∀ next ∈ act.next?, next.Performs ∧ next.left = k

namespace Complies

theorem rests (performs : next.Performs) (left : next.left = fun _ => program) :
    Complies (.rest next) program := by
  refine ⟨_, .rests, ?_⟩
  rintro _ ⟨⟩
  exact ⟨performs, left⟩

theorem shows {handler deed : String} {v : Value} (performs : next.Performs)
    (left : next.left = fun _ => program) : Complies (.did handler deed v next) program := by
  refine ⟨_, .shows, ?_⟩
  rintro _ ⟨⟩
  exact ⟨performs, left⟩

theorem calls {m : Method} (performs : next.Performs) : Complies (.call m next)
    (.calls m next.left) := by
  refine ⟨_, .calls, ?_⟩
  rintro _ ⟨⟩
  exact ⟨performs, rfl⟩

theorem waits {gate : String} (performs : next.Performs) :
    Complies (.wait gate next) (.waits gate next.left) := by
  refine ⟨_, .waits, ?_⟩
  rintro _ ⟨⟩
  exact ⟨performs, rfl⟩

theorem succeeds : Complies .succeed (.ends (.ok .undefined)) := ⟨_, .succeeds, nofun⟩

theorem fails {v : Value} : Complies (.fail v) (.ends (.error v)) := ⟨_, .fails, nofun⟩

theorem refuses {v : Value} : Complies (.refuse v) (.ends (.error v)) := ⟨_, .refuses, nofun⟩

end Complies

theorem State.Performs.enter (performs : st.Performs) (phase : Phase)
    (enters : phase ≠ .draining ∧ phase ≠ .receiving ∧ phase ≠ .finished) :
    State.Performs { st with phase } :=
  ⟨performs.plain, performs.unspawned, enters⟩

/-- A handler that begins a deed does what the program of the deed says. -/
theorem Deed.complies {d : Deed} (plain : d.IsPlain) (performs : st.Performs) :
    Complies (perform st d) (d.program (0 < st.attempts) (programOf st.rest)) := by
  induction d generalizing st with
  | throws v => exact .rests (performs.enter _ ⟨nofun, nofun, nofun⟩) rfl
  | refuses v => exact .refuses
  | waits gate => exact .waits (performs.enter _ ⟨nofun, nofun, nofun⟩)
  | attempts d ih =>
      have attempted : State.Performs { st with attempts := st.attempts + 1 } :=
        ⟨performs.plain, performs.unspawned, performs.phase⟩
      have complies := ih plain attempted
      rwa [decide_eq_true (Nat.succ_pos _)] at complies
  | calls m => exact .calls (performs.enter _ ⟨nofun, nofun, nofun⟩)
  | drains | spawns => exact plain.elim

theorem next_complies (performs : st.Performs) : Complies (Scripted.next st)
    (programOf st.rest) := by
  obtain ⟨name, phase, attempts, spawned, rest⟩ := st
  cases rest with
  | nil => exact .succeeds
  | cons d rest =>
      have plain := performs.plain
      rw [List.forall_mem_cons] at plain
      have begins : State.Performs ⟨name, phase, 0, spawned, rest⟩ :=
        ⟨plain.2, performs.unspawned, performs.phase⟩
      exact Deed.complies plain.1 begins

theorem failing_complies (performs : st.Performs) (v : Value) :
    Complies (failing st v) (afterDeed (0 < st.attempts) (programOf st.rest) (.error v)) := by
  unfold failing afterDeed
  by_cases attempted : 0 < st.attempts
  · rw [if_pos attempted, decide_eq_true attempted]
    exact .shows (performs.enter _ ⟨nofun, nofun, nofun⟩) rfl
  · rw [if_neg attempted, decide_eq_false attempted, performs.unspawned]
    exact .fails

theorem step_complies (performs : st.Performs) (o : Outcome) : Complies (step st o)
    (st.left o) := by
  obtain ⟨undrained, unreceiving, unfinished⟩ := performs.phase
  obtain ⟨name, phase, attempts, spawned, rest⟩ := st
  cases phase with
  | starting request => exact .shows (performs.enter _ ⟨nofun, nofun, nofun⟩) rfl
  | ending functions =>
      cases functions with
      | zero => exact next_complies performs
      | succ functions => exact .rests (performs.enter _ ⟨nofun, nofun, nofun⟩) rfl
  | throwing v => exact failing_complies performs v
  | calling method =>
      cases o with
      | ok v => exact .shows (performs.enter _ ⟨nofun, nofun, nofun⟩) rfl
      | error v => exact .rests (performs.enter _ ⟨nofun, nofun, nofun⟩) rfl
  | waiting =>
      cases o with
      | ok v => exact .rests (performs.enter _ ⟨nofun, nofun, nofun⟩) rfl
      | error v => exact .rests (performs.enter _ ⟨nofun, nofun, nofun⟩) rfl
  | draining => exact absurd rfl undrained
  | receiving => exact absurd rfl unreceiving
  | finished => exact absurd rfl unfinished

theorem deedsOf_mem (lists : List (List Deed)) (n : Nat) :
    deedsOf lists n = [] ∨ deedsOf lists n ∈ lists := by
  unfold deedsOf
  cases known : lists[n]? with
  | some deeds => exact .inr (List.mem_of_getElem? known)
  | none =>
      cases last : lists.getLast? with
      | some deeds => exact .inr (List.mem_of_getLast? last)
      | none => exact .inl rfl

/-- The handler of a download of a plain script follows the program of its deeds. -/
theorem follows_program {script : Script} (plain : ∀ deeds ∈ script.gets, ∀ d ∈ deeds, d.IsPlain)
    (count : Count) (bucket key : String) :
    (plugin script).Follows ((plugin script).invoke count (.get bucket key)).2
      fun _ => programOf (deedsOf script.gets count.gets) := by
  refine ⟨fun st k => State.Performs st ∧ State.left st = k, ?_,
    ⟨?_, rfl, nofun, nofun, nofun⟩, rfl⟩
  · rintro st _ ⟨performs, rfl⟩ count o
    exact step_complies performs o
  · intro d mem
    rcases deedsOf_mem script.gets count.gets with none | among
    · exact absurd (none ▸ mem : d ∈ []) List.not_mem_nil
    · exact plain _ among d mem

/-- In every run, the handler of a download of a plain script follows the program of its deeds. -/
theorem directs {script : Script} (plain : ∀ deeds ∈ script.gets, ∀ d ∈ deeds, d.IsPlain)
    {s : Scene (plugin script)} {i : StreamId} (reachable : s.Reachable) (lt : i < s.kinds.length)
    (kind : s.kindOf i = .download) :
    ∃ n, (programOf (deedsOf script.gets n)).Directs (s.turnsOf i) := by
  obtain ⟨count, bucket, key, directs⟩ := reachable.directs lt kind
  exact ⟨count.gets, directs _ (follows_program plain count bucket key)⟩

end Scripted

end ObjectTransfer
