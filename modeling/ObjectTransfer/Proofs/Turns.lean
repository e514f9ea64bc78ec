import ObjectTransfer.Proofs.Handlers

/-! # Turns of the handler of a stream

Where the handlers of a stream wait for each of their calls, only the thread of its service takes
turns on it (`Scene.Reachable.taker`). So what a step makes of that thread and which turn it adds to
those of the stream are told together (`Scene.Reachable.service`).
-/

namespace ObjectTransfer

variable {P : Plugin}

def HandlerTurn.act (turn : HandlerTurn P) : Act P.Local :=
  (P.step turn.shared turn.state turn.outcome).2

namespace Scene

variable {s s' : Scene P} {i : StreamId} {th : Thread P}

/-- The turns of the handler of a stream, the latest first. -/
def turnsOf (s : Scene P) (i : StreamId) : List (HandlerTurn P) := s.turns.filter (·.stream = i)

theorem mem_turnsOf {turn : HandlerTurn P} : turn ∈ s.turnsOf i ↔ turn ∈ s.turns ∧
    turn.stream = i := by
  simp [turnsOf]

theorem Later.turnsOf (later : Later s s') (i : StreamId) :
    ∃ ts, s'.turnsOf i = ts ++ s.turnsOf i := by
  obtain ⟨ts, turns⟩ := later.turns
  refine ⟨ts.filter (·.stream = i), ?_⟩
  rw [Scene.turnsOf, Scene.turnsOf, ← turns, List.filter_append]

theorem Reachable.turnsOf_fresh (reachable : s.Reachable) : s.turnsOf s.kinds.length = [] := by
  rw [Scene.turnsOf, List.filter_eq_nil_iff]
  intro turn mem stream
  have lt := reachable.turned mem
  exact absurd (of_decide_eq_true stream) (Nat.ne_of_lt lt)

/-- A handler takes a turn of its own, or others take the turns in which a thread goes on. -/
theorem Becomes.turn_cases {es ts ths} (becomes : Becomes s s' es ts th ths)
    (events : s'.events = es ++ s.events) :
    (∃ o j state fs w, th = ⟨.bound o, .handling j state :: fs, w⟩ ∧
      ts = [⟨j, state, o, s.shared⟩] ∧
      ths = (P.step s.shared state o).2.threads s.gates j fs w) ∨
    (∀ t ∈ ts, ∃ other, th ::ₘ {other} ≤ s.threads ∧ other.Takes t) ∧
      ((∃ stage, ths = [{ th with stage }] ∧ th.stage.Goes s' stage) ∨
        th.Turns s ths es ∧ ∀ o j state fs w, th ≠ ⟨.bound o, .handling j state :: fs, w⟩) := by
  have goesOn := becomes.cases events
  cases becomes with
  | handle _ turns => exact .inl ⟨_, _, _, _, _, rfl, turns, rfl⟩
  | aside _ others => exact .inr ⟨others, .inl ⟨_, rfl, .stay⟩⟩
  | solo solo turns =>
      refine .inr ⟨turns ▸ nofun, goesOn.imp_right fun turns => ⟨turns, ?_⟩⟩
      cases solo <;> nofun
  | start es turns => exact .inr ⟨turns ▸ nofun, .inr ⟨es ▸ .start, nofun⟩⟩
  | shut _ turns | takes _ turns | yields _ turns =>
      exact .inr ⟨turns ▸ nofun, .inl (goesOn.resolve_right nofun)⟩
  | released _ turns closed => exact .inr ⟨turns ▸ nofun, .inl ⟨_, rfl, .release closed⟩⟩
  | gate _ turns settled => exact .inr ⟨turns ▸ nofun, .inl ⟨_, rfl, .gate settled⟩⟩

theorem Reachable.taker (reachable : s.Reachable) (unforked : s.Unforked i) {turn : HandlerTurn P}
    (mem : th ∈ s.threads) (takes : th.Takes turn) (stream : turn.stream = i) :
    th.owner = .service i := by
  obtain ⟨fs, frames⟩ := takes
  obtain ⟨st, fs', w⟩ := th
  cases frames
  cases reachable.cast _ mem with
  | handler => exact congrArg Owner.service stream
  | beside =>
      have beside : Thread.Beside ⟨st, [.handling turn.stream turn.state], .nobody⟩ i :=
        ⟨rfl, turn.state, stream ▸ rfl⟩
      exact absurd beside (reachable.not_beside unforked _ mem)

/-- What becomes of the service of a stream, and which turns its handler takes. -/
theorem Reachable.service (reachable : s.Reachable) (unforked : s.Unforked i) (mem : th ∈ s.threads)
    (owner : th.owner = .service i) (parts : Parts s s') {ths}
    (becomes : Becomes s s' parts.events parts.turns th ths) :
    (∃ o state, th = ⟨.bound o, [.handling i state, .serving i], .service i⟩ ∧
      s'.turnsOf i = ⟨i, state, o, s.shared⟩ :: s.turnsOf i ∧
      ths = (P.step s.shared state o).2.threads s.gates i [.serving i] (.service i)) ∨
    s'.turnsOf i = s.turnsOf i ∧
      ((∃ stage, ths = [{ th with stage }] ∧ th.stage.Goes s' stage) ∨
        th.Turns s ths parts.events ∧ ∀ o j state fs w,
          th ≠ ⟨.bound o, .handling j state :: fs, w⟩) := by
  rcases becomes.turn_cases parts.events_eq with ⟨o, j, state, fs, w, rfl, turns, rfl⟩ |
    ⟨others, goesOn⟩
  · have proper := reachable.cast _ mem
    cases proper with
    | handler =>
        cases owner
        refine .inl ⟨o, state, rfl, ?_, rfl⟩
        rw [Scene.turnsOf, parts.turns_eq, turns, List.singleton_append, List.filter_cons_of_pos]
        · rfl
        · exact decide_eq_true rfl
    | beside => exact nomatch owner
  · have none : parts.turns.filter (·.stream = i) = [] := by
      rw [List.filter_eq_nil_iff]
      intro turn inside same
      obtain ⟨other, pair, takes⟩ := others turn inside
      have mem' : other ∈ s.threads :=
        Multiset.mem_of_le pair (Multiset.mem_cons_of_mem (Multiset.mem_singleton_self other))
      have named {th : Thread P} (owner : th.owner = .service i) : th.owner.name? = some (.inr i) :=
        owner ▸ rfl
      exact reachable.owned.unique pair (named owner)
        (named (reachable.taker unforked mem' takes (of_decide_eq_true same)))
    refine .inr ⟨?_, goesOn⟩
    rw [Scene.turnsOf, parts.turns_eq, List.filter_append, none, List.nil_append, Scene.turnsOf]

end Scene

end ObjectTransfer
