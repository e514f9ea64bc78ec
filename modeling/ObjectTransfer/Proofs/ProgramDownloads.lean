import ObjectTransfer.Proofs.Performances

/-! # Downloads that follow a program

The service of a download whose handler follows a program is somewhere on the way that the program
says (`Thread.RunsProgram`), and when the handler ended it winds up (`Thread.WindsUp`). The order in
which its tasks and those of others go on decides when it gets there, and not where it goes: at
every moment the stream can still only end as the program, played by itself, ends it
(`Fetch.Directed.onProgram`).
-/

namespace ObjectTransfer

variable {P : Plugin}

variable {s s' : Scene P} {d : Fetch} {program : Program} {gates : String → Option Outcome}
  {final : Playback} {th : Thread P}

/-! ## After the handler -/

/-- How far the service of a download is whose handler ended, when this is what becomes of the
stream. -/
inductive Thread.WindsUp (s : Scene P) (i : StreamId) (final : Playback) : Thread P → Prop where
  | told {o p} : s.At i p → p.stop (.ofOutcome o) = final →
    WindsUp s i final ⟨.bound o, [.serving i], .service i⟩
  | reporting {f p} : s.At i p → p.stop (.failed f) = final →
    WindsUp s i final ⟨.closing ⟨i, .requests⟩ (.delivering i f), [.delivering i], .service i⟩
  | delivering {f p} : s.At i p → p.stop (.failed f) = final →
    WindsUp s i final ⟨.delivering i f, [.delivering i], .service i⟩
  | failing {st f p} : st.Performs s i p (.fail (.fault f)) → p.stop (.failed f) = final →
    WindsUp s i final ⟨st, [.delivering i], .service i⟩
  | reported {o} : s.At i final → final.ended = true →
    WindsUp s i final ⟨.bound o, [.delivering i], .service i⟩
  | finishing {st} : s.passed ⟨i, .responses⟩ = final.messages → final.ended = true →
    WindsUp s i final ⟨st, [], .service i⟩

/-- How far a download is whose handler ended: its service winds up, or it is gone. -/
inductive Fetch.WoundUp (s : Scene P) (d : Fetch) (final : Playback) : Prop where
  | serving {th : Thread P} : th ∈ s.threads → th.WindsUp s d.stream final → WoundUp s d final
  | done : (∀ th ∈ s.threads, th.owner ≠ .service d.stream) → s.At d.stream final →
    final.ended = true → WoundUp s d final

theorem Thread.WindsUp.owner {i : StreamId} (winds : th.WindsUp s i final) :
    th.owner = .service i := by
  cases winds <;> rfl

namespace Fetch.WoundUp

theorem of_served {p : Playback} {o : Outcome} (stands : s.At d.stream p)
    (ends : p.stop (.ofOutcome o) = final)
    (result : Thread.served d.stream [] (.service d.stream) o ∈ s.threads) : d.WoundUp s final := by
  have closes (same : Ending.ofOutcome o = .closed) {st}
      (mem : ⟨st, [], .service d.stream⟩ ∈ s.threads) :
      d.WoundUp s final := by
    rw [same] at ends
    subst ends
    have passed := stands.passed.trans Playback.messages_stop_closed.symm
    exact .serving mem (.finishing passed (Playback.ended_stop _))
  cases o with
  | ok v => exact closes rfl result
  | error v =>
      rw [Thread.served.eq_def] at result
      dsimp only at result
      split at result
      next abandoned => exact closes (if_pos abandoned) result
      next apart =>
        split at result
        next f fault =>
          have reports : Ending.ofOutcome (.error v) = .failed f := by
            simp [Ending.ofOutcome, apart, fault]
          rw [reports] at ends
          exact .serving result (.reporting stands ends)
        next f fault =>
          have silent : Ending.ofOutcome (.error v) = .closed := by
            simp [Ending.ofOutcome, apart, fault]
          exact closes silent result

theorem finishing {st : Stage} (directed : d.Directed s program)
    (mem : ⟨st, [], .service d.stream⟩ ∈ s.threads) (passed : s.passed d.half = final.messages)
    (ended : final.ended = true) (step : Scene.Step s s') : d.WoundUp s' final := by
  have finishes : st.Finishes s d.stream := by
    cases directed.reachable.cast _ mem with
    | finishing _ finishes => exact finishes
    | caller _ _ owner => exact owner.elim nofun nofun
    | finished free => exact absurd rfl (free _)
  have same : s'.passed d.half = s.passed d.half := by
    refine step.passed_of_silent directed.reachable directed.unforked fun other inside owner => ?_
    obtain rfl := directed.reachable.owned.eq_service mem inside rfl owner
    cases finishes <;> exact nofun
  by_cases served : ∃ th ∈ s'.threads, th.owner = .service d.stream
  · obtain ⟨th', mem', owner'⟩ := served
    obtain ⟨th, old, owner, goesOn⟩ := step.served directed.lt mem' owner'
    obtain rfl := directed.reachable.owned.eq_service mem old rfl owner
    rcases goesOn with ⟨st', rfl, -⟩ | ⟨ths, es, turns, inside⟩
    · exact .serving mem' (.finishing (same.trans passed) ended)
    · cases turns
      exact absurd inside List.not_mem_nil
  · have gone : ∀ th ∈ s'.threads, th.owner ≠ .service d.stream :=
      fun th mem owner => served ⟨th, mem, owner⟩
    refine .done gone ⟨same.trans passed, ?_⟩ ended
    obtain ⟨parts⟩ := step.parts
    obtain ⟨ths, becomes, results⟩ := parts.fate mem
    rcases becomes.cases parts.events_eq with ⟨st', rfl, -⟩ | turns
    · exact absurd rfl (gone _ (results _ List.mem_cons_self))
    · generalize parts.events = es at turns
      cases turns
      cases finishes with
      | finished _ closed => exact (step.later.closed _ directed.lt closed).trans ended.symm

/-- Every step takes a download on whose handler ended. -/
theorem step (wound : d.WoundUp s final) (directed : d.Directed s program)
    (step : Scene.Step s s') : d.WoundUp s' final := by
  cases wound with
  | done gone stands ended =>
      refine .done (fun th' mem owner => ?_) ?_ ended
      · obtain ⟨th, old, owner, -⟩ := step.served directed.lt mem owner
        exact gone th old owner
      · exact directed.stays stands (fun th mem owner => absurd owner (gone th mem)) step
  | @serving th mem winds =>
      have stays {p} (stands : s.At d.stream p) (spares : th.stage.Spares d.stream) :
          s'.At d.stream p :=
        directed.stays_of_service stands mem winds.owner spares step
      obtain ⟨parts⟩ := step.parts
      obtain ⟨ths, becomes, results⟩ := parts.fate mem
      have goesOn := becomes.cases parts.events_eq
      cases winds with
      | told stands ends =>
          have stands := stays stands ⟨nofun, nofun⟩
          rcases goesOn with ⟨st, rfl, goes⟩ | turns
          · obtain rfl := Stage.bound_goes goes
            exact .serving (results _ List.mem_cons_self) (.told stands ends)
          · generalize parts.events = es at turns
            cases turns
            exact of_served stands ends (results _ List.mem_cons_self)
      | reporting stands ends =>
          have stands := stays stands ⟨nofun, nofun⟩
          rcases goesOn with ⟨st, rfl, goes⟩ | turns
          · have result := results _ List.mem_cons_self
            cases goes with
            | shut => exact .serving result (.delivering stands ends)
            | stay | release | gate => exact .serving result (.reporting stands ends)
          · cases turns
      | @delivering f p stands ends =>
          have stands := stays stands ⟨nofun, nofun⟩
          rcases goesOn with ⟨st, rfl, goes⟩ | turns
          · have result := results _ List.mem_cons_self
            cases goes with
            | undelivered closed =>
                have ended : p.ended = true := stands.closed.symm.trans closed
                rw [Playback.stop_of_ended ended] at ends
                subst ends
                exact .serving result (.reported stands ended)
            | deliver => exact .serving result (.failing (.entering stands) ends)
            | stay | release | gate => exact .serving result (.delivering stands ends)
          · cases turns
      | @failing st f p performs ends =>
          obtain ⟨st, rfl, performs | ⟨rfl, stands⟩⟩ :=
            performs.step directed mem rfl step becomes parts.events_eq
          · exact .serving (results _ List.mem_cons_self) (.failing performs ends)
          · have stands : s'.At d.stream (p.stop (.failed f)) := stands
            subst ends
            exact .serving (results _ List.mem_cons_self) (.reported stands (Playback.ended_stop _))
      | reported stands ended =>
          have stands := stays stands ⟨nofun, nofun⟩
          rcases goesOn with ⟨st, rfl, goes⟩ | turns
          · obtain rfl := Stage.bound_goes goes
            exact .serving (results _ List.mem_cons_self) (.reported stands ended)
          · generalize parts.events = es at turns
            cases turns
            exact .serving (results _ List.mem_cons_self) (.finishing stands.passed ended)
      | finishing passed ended => exact finishing directed mem passed ended step

end Fetch.WoundUp

/-! ## While the handler goes on -/

/-- How far the service of a download is whose handler follows a program, when the program, played
to its end, makes this of the stream. -/
inductive Thread.RunsProgram (s : Scene P) (i : StreamId) (program : Program)
    (gates : String → Option Outcome) (final : Playback) : Thread P → Prop where
  | starting {invocation} : s.turnsOf i = [] → s.At i .empty → program.play gates .empty = final →
    RunsProgram s i program gates final ⟨.starting i invocation, [.serving i], .service i⟩
  | resting {o state k p} : program.Leaves (s.turnsOf i) k → s.At i p → (k o).play gates p = final →
    RunsProgram s i program gates final ⟨.bound o, [.handling i state, .serving i], .service i⟩
  | waiting {gate state k p} : program.Leaves (s.turnsOf i) k → s.At i p →
    (Program.waits gate k).play gates p = final →
    RunsProgram s i program gates final
    ⟨.waiting [gate], [.handling i state, .serving i], .service i⟩
  | calling {st state m k p} : program.Leaves (s.turnsOf i) k → st.Performs s i p m →
    (Program.calls m k).play gates p = final →
    RunsProgram s i program gates final ⟨st, [.handling i state, .serving i], .service i⟩

/-- How far a download is whose handler follows a program: its handler is on the way, or it ended.
-/
inductive Fetch.OnProgram (s : Scene P) (d : Fetch) (program : Program)
    (gates : String → Option Outcome) (final : Playback) : Prop where
  | serving {th : Thread P} : th ∈ s.threads → th.RunsProgram s d.stream program gates final →
    OnProgram s d program gates final
  | ended : d.WoundUp s final → OnProgram s d program gates final

theorem Thread.RunsProgram.owner {i : StreamId} (runs : th.RunsProgram s i program gates final) :
    th.owner = .service i := by
  cases runs <;> rfl

namespace Fetch.OnProgram

theorem of_turn {k k' : Outcome → Program} {p : Playback} {o : Outcome} {act : Act P.Local}
    (obeys : act.Obeys (k o) k') (leaves : program.Leaves (s'.turnsOf d.stream) k')
    (stands : s'.At d.stream p) (play : (k o).play gates p = final)
    (settled : ∀ name o, s.gates name = some o → gates name = some o)
    (results : ∀ th ∈ act.threads s.gates d.stream [.serving d.stream] (.service d.stream),
      th ∈ s'.threads) : d.OnProgram s' program gates final := by
  generalize k o = left at obeys play
  cases obeys with
  | calls => exact .serving (results _ List.mem_cons_self) (.calling leaves (.entering stands) play)
  | @waits gate state next =>
      have result := results _ List.mem_cons_self
      cases known : s.gates gate with
      | none =>
          have waits : Stage.ofGates s.gates [gate] = .waiting [gate] := by
            simp [Stage.ofGates, Stage.gateFailure?, known]
          rw [waits] at result
          exact .serving result (.waiting leaves stands play)
      | some o =>
          rw [Stage.ofGates_settled known] at result
          exact .serving result
            (.resting leaves stands (Program.play_settled (settled _ _ known) ▸ play))
  | rests | shows | logs =>
      exact .serving (results _ List.mem_cons_self) (.resting leaves stands play)
  | succeeds | fails | refuses =>
      exact .ended (.serving (results _ List.mem_cons_self) (.told stands play))

/-- Every step takes a download on along its program. -/
theorem step (onProgram : d.OnProgram s program gates final) (directed : d.Directed s program)
    (directed' : d.Directed s' program)
    (settled : ∀ name o, s'.gates name = some o → gates name = some o)
    (step : Scene.Step s s') : d.OnProgram s' program gates final := by
  cases onProgram with
  | ended wound => exact .ended (wound.step directed step)
  | @serving th mem runs =>
      have stays {p} (stands : s.At d.stream p) (spares : th.stage.Spares d.stream) :
          s'.At d.stream p :=
        directed.stays_of_service stands mem runs.owner spares step
      obtain ⟨parts⟩ := step.parts
      obtain ⟨ths, becomes, results⟩ := parts.fate mem
      rcases directed.reachable.service directed.unforked mem runs.owner parts becomes with
        ⟨o, state, rfl, turns, rfl⟩ | ⟨turns, goesOn⟩
      · have directs := turns ▸ directed'.directs
        have before (name o) (known : s.gates name = some o) : gates name = some o :=
          settled name o (step.later.gates name o known)
        cases runs with
        | resting leaves stands play =>
            obtain ⟨k', obeys, left⟩ := directs.obeys leaves
            exact of_turn obeys (turns ▸ left) (stays stands ⟨nofun, nofun⟩) play before results
        | calling _ performs => cases performs
      · have leaving {k} (leaves : program.Leaves (s.turnsOf d.stream) k) :
            program.Leaves (s'.turnsOf d.stream) k := turns ▸ leaves
        cases runs with
        | starting none stands play =>
            have stands := stays stands ⟨nofun, nofun⟩
            have leaves : program.Leaves (s'.turnsOf d.stream) fun _ => program := by
              rw [turns, none]
              rfl
            rcases goesOn with ⟨st, rfl, goes⟩ | ⟨turns', -⟩
            · have result := results _ List.mem_cons_self
              obtain rfl : st = .starting _ _ := by cases goes <;> rfl
              exact .serving result (.starting (turns.trans none) stands play)
            · generalize parts.events = es at turns'
              cases turns'
              exact .serving (results _ List.mem_cons_self) (.resting leaves stands play)
        | resting leaves stands play =>
            have stands := stays stands ⟨nofun, nofun⟩
            rcases goesOn with ⟨st, rfl, goes⟩ | ⟨-, still⟩
            · obtain rfl := Stage.bound_goes goes
              exact .serving (results _ List.mem_cons_self) (.resting (leaving leaves) stands play)
            · exact absurd rfl (still _ _ _ _ _)
        | waiting leaves stands play =>
            have stands := stays stands ⟨nofun, nofun⟩
            rcases goesOn with ⟨st, rfl, goes⟩ | ⟨turns', -⟩
            · have result := results _ List.mem_cons_self
              rcases Stage.waiting_goes goes with rfl | ⟨o, rfl, known⟩
              · exact .serving result (.waiting (leaving leaves) stands play)
              · rw [Program.play_settled (settled _ _ known)] at play
                exact .serving result (.resting (leaving leaves) stands play)
            · cases turns'
        | calling leaves performs play =>
            obtain ⟨st, rfl, performs | ⟨rfl, stands⟩⟩ :=
              performs.step directed mem rfl step becomes parts.events_eq
            · exact .serving (results _ List.mem_cons_self)
                (.calling (leaving leaves) performs play)
            · exact .serving (results _ List.mem_cons_self) (.resting (leaving leaves) stands play)

end Fetch.OnProgram

/-- A download whose handler follows a program is somewhere on the way that the program says. -/
theorem Fetch.Directed.onProgram (directed : d.Directed s program)
    (settled : ∀ name o, s.gates name = some o → gates name = some o) :
    d.OnProgram s program gates (program.play gates .empty) := by
  have reachable := directed.reachable
  induction reachable with
  | refl => exact absurd directed.lt (Nat.not_lt_zero _)
  | @tail s s' steps step ih =>
      have reached : s.Reachable := steps
      rcases step.stream_cases directed.lt directed.kind with
        ⟨old, -⟩ | ⟨stream, c, invocation, -, rfl⟩
      · have before := directed.before reached old step
        have settledBefore (name o) (known : s.gates name = some o) : gates name = some o :=
          settled name o (step.later.gates name o known)
        exact (ih before settledBefore).step before directed settled step
      · obtain ⟨call, i⟩ := d
        obtain rfl : i = s.kinds.length := stream
        refine .serving (Multiset.mem_cons_self _ _) (.starting ?_ ⟨?_, if_pos rfl⟩ rfl)
        · exact reached.turnsOf_fresh
        · exact (step.silent reached (Nat.lt_irrefl _)).1

end ObjectTransfer
