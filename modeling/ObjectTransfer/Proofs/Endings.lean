import ObjectTransfer.Proofs.Closings
import ObjectTransfer.Proofs.Writers

/-! # How the requests of an upload end

While the handler of an upload runs, the request half is closed only after every chunk of an
exhausted source passed, or after the failure of the source did (`Upload.Decided`). Everything else
that closes the half comes after the handler.
-/

namespace ObjectTransfer

variable {P : Plugin}

namespace Upload

variable {s s' : Scene P} {u : Upload}

/-- Whether everything that the source of an upload yields passed, or its failure. -/
def Decided (s : Scene P) (u : Upload) : Prop :=
  (∃ chunks, SourceItem.Passes s.gates u.source.items chunks [] ∧
      u.requests chunks <+: s.passed u.half) ∨
    ∃ f, .handed u.half (.failure f) ∈ s.events

theorem Decided.later (decided : u.Decided s) (later : Scene.Later s s') : u.Decided s' := by
  rcases decided with ⟨chunks, passes, passed⟩ | ⟨f, handed⟩
  · exact .inl ⟨chunks, passes.later later.gates, passed.trans later.passed⟩
  · exact .inr ⟨f, later.mem handed⟩

/-- Whoever enters a method that closes the request half of an upload is its writer, and its source
is exhausted or the half is closed. -/
theorem entered (reachable : s.Reachable) (known : u.Known s.events) {i role m fs w}
    (mem : ⟨.entering i role m, fs, w⟩ ∈ s.threads) {closed}
    (closes : ((m.entry (s.kindOf i) role).stage closed i).Closes u.half) :
    s.closed u.half = true ∨ u.Decided s := by
  obtain ⟨j, role', m', -, calls, inCall⟩ := (reachable.cast _ mem).calls trivial
  obtain ⟨rfl, rfl, rfl⟩ := inCall.entered
  obtain ⟨rfl, rfl, closing⟩ := (m.entry_fits (s.kindOf i) role).closes closes
  rcases u.client known reachable.orderly calls with ⟨k, w, same⟩ | rfl
  · rw [same] at mem
    obtain ⟨lt, kind, waits⟩ := writer_waits reachable.cast mem
    have tale := tale reachable known mem
    cases waits.calls nofun with
    | discarding closed => exact .inl closed
    | sending inCall =>
        obtain ⟨-, -, rfl⟩ := inCall.entered
        rw [kind] at closing
        exact nomatch closing
    | aborting inCall =>
        obtain ⟨-, -, rfl⟩ := inCall.entered
        rw [entry_abort kind] at closing
        exact closing.elim nofun nofun
    | acknowledging =>
        obtain ⟨chunks, rest, sent, rfl | closed⟩ := tale
        · exact .inr (.inl ⟨chunks, sent.passes, sent.passed ▸ List.prefix_rfl⟩)
        · exact .inl closed
  · generalize s.kindOf u.stream = kind at closing
    cases kind <;> exact closing.elim nofun nofun

/-- Whoever leads to the closing of the request half of an upload has a good reason, unless the half
is closed already or it is a service after its handler. -/
theorem closer (reachable : s.Reachable) (known : u.Known s.events) {th : Thread P}
    (mem : th ∈ s.threads) (closes : th.stage.Closes u.half) :
    s.closed u.half = true ∨ u.Decided s ∨ th.owner = .service u.stream ∧ ¬ th.Runs := by
  induction reachable generalizing th with
  | refl => exact absurd mem (Multiset.notMem_zero th)
  | @tail s s' steps step ih =>
      have reached : s.Reachable := steps
      have later := step.later
      obtain ⟨parts⟩ := step.parts
      rcases step.openedBefore reached.orderly known.opened known.called with
        ⟨opened, called⟩ | ⟨call, stream, kind, invocation, opens, rfl⟩
      · have known : u.Known s.events := ⟨called, opened⟩
        have lt := (reached.orderly.opened opened).2
        rcases parts.origin mem with fresh | ⟨th, old, ths, becomes, mem⟩
        · exact absurd closes (parts.enters.not_closes fresh)
        have proper := reached.cast th old
        rcases becomes.cases parts.events_eq with ⟨stage, rfl, goes⟩ | turns
        · obtain rfl := List.mem_singleton.mp mem
          rcases goes.dooms closes with before | closed | dooms
          · rcases ih known old before with closed | decided | ⟨owner, still⟩
            · exact .inl (later.closed _ lt closed)
            · exact .inr (.inl (decided.later later))
            · exact .inr (.inr ⟨owner, fun runs => still (runs.of_goes goes)⟩)
          · exact .inl closed
          · obtain ⟨st, fs, w⟩ := th
            cases dooms with
            | taken handed => exact .inr (.inl (.inr ⟨_, handed⟩))
            | @sent m handed =>
                obtain ⟨i, role, m', -, -, inCall⟩ := proper.calls trivial
                obtain ⟨same, final, -⟩ := inCall.offering
                cases m with
                | failure f => exact .inr (.inl (.inr ⟨f, handed⟩))
                | payload =>
                    obtain ⟨-, rfl⟩ := final.mp rfl
                    exact nomatch congrArg HalfId.side same
            | entered entry =>
                obtain ⟨j, role, m, lt', -, inCall⟩ := proper.calls trivial
                obtain ⟨rfl, -, -⟩ := inCall.entered
                rw [later.kindOf lt'] at entry
                rcases entered reached known old entry with closed | decided
                · exact .inl (later.closed _ lt closed)
                · exact .inr (.inl (decided.later later))
        · exact .inr (.inr (proper.closes_after turns mem closes))
      · cases opens
        rcases Multiset.mem_cons.mp mem with rfl | mem
        · exact closes.elim
        rcases Multiset.mem_cons.mp mem with rfl | mem
        · exact closes.elim
        · have lt := (reached.cast th mem).closes_lt closes
          exact absurd (stream ▸ lt) (Nat.lt_irrefl _)

/-- While the handler of an upload runs, its request half is closed for good reasons only. -/
theorem decided (reachable : s.Reachable) (known : u.Known s.events) (doomed : s.Doomed u.half)
    (running : s.Running u.stream) : u.Decided s := by
  induction reachable with
  | refl => exact absurd known.opened List.not_mem_nil
  | @tail s s' steps step ih =>
      have reached : s.Reachable := steps
      have before (closed : s'.closed u.half = true) : u.Decided s' := by
        rcases step.openedBefore reached.orderly known.opened known.called with
          ⟨opened, called⟩ | ⟨call, stream, kind, invocation, opens, rfl⟩
        · have lt := (reached.orderly.opened opened).2
          exact (ih ⟨called, opened⟩ (step.doomed lt closed)
            (running.before lt reached.cast step)).later step.later
        · cases opens
          exact nomatch (if_pos stream).symm.trans closed
      rcases doomed.2 with closed | ⟨th, mem, closes⟩
      · exact before closed
      · rcases u.closer (reached.tail step) known mem closes with closed | decided | ⟨owner, still⟩
        · exact before closed
        · exact decided
        · obtain ⟨th', mem', owner', runs⟩ := running
          cases (reached.owned.step step).eq_service mem mem' owner owner'
          exact absurd runs still

end Upload

end ObjectTransfer
