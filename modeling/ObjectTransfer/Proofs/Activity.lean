import ObjectTransfer.Proofs.Deliveries
import ObjectTransfer.Proofs.Registry
import ObjectTransfer.Proofs.Simulation

/-! # The count of active streams

A closing strikes its stream off the active ones before anything else goes on, so whenever no work
is left to do at once, the active streams are those of the calls so far that have an open half
(`Exchange.active_exact`).
-/

namespace ObjectTransfer

variable {P : Plugin}

def Event.opens? : Event → Option StreamId
  | opened _ i => some i
  | _ => none

theorem Event.opens?_of_not_call {e : Event} (quiet : ¬ e.IsCall) : e.opens? = none := by
  cases e with
  | opened => exact absurd trivial quiet
  | _ => rfl

namespace Scene

variable {s s' : Scene P}

theorem Reachable.numbered (reachable : s.Reachable) :
    Event.history Event.opens? s.events = List.range s.kinds.length := by
  induction reachable with
  | refl => rfl
  | @tail s s' _ step ih =>
      rcases step.events_cases with ⟨es, events, quiet, kinds, -⟩ | ⟨c, -, rfl⟩ |
        ⟨c, kind, _, -, rfl⟩
      · rw [events, Event.history_append,
          Event.history_of_none fun e mem => Event.opens?_of_not_call (quiet e mem), kinds, ih,
          List.append_nil]
      · exact ih
      · have events : (s.opened c kind ‹_›).events =
            [.opened s.calls s.kinds.length, .called s.calls (.plugin c)] ++ s.events := rfl
        have kinds : (s.opened c kind ‹_›).kinds = s.kinds ++ [kind] := rfl
        rw [events, Event.history_append, kinds, List.length_append, ih]
        exact List.range_succ.symm

/-- The active streams stay in the order in which they were opened. -/
theorem Reachable.active_sorted (reachable : s.Reachable) : s.active.Pairwise (· < ·) := by
  induction reachable with
  | refl => exact .nil
  | tail steps step ih =>
      cases step with
      | strike => exact ih.sublist (List.erase_sublist)
      | count =>
          dsimp only
          split
          · exact ih.sublist (List.erase_sublist)
          · exact ih
      | opening =>
          refine List.pairwise_append.mpr ⟨ih, List.pairwise_singleton _ _, fun i mem j new => ?_⟩
          rw [List.mem_singleton.mp new]
          exact (Reachable.listed steps).known i mem
      | _ => exact ih

end Scene

namespace Exchange

variable {x y : Exchange P}

/-- The streams that calls opened so far, one for each of these calls, in their order. -/
def opened (x : Exchange P) : List StreamId := Event.history Event.opens? x.journal

def isOpen (x : Exchange P) (i : StreamId) : Bool :=
  !((x.half ⟨i, .requests⟩).closed && (x.half ⟨i, .responses⟩).closed)

theorem opened_scene (x : Exchange P) (ts) :
    Event.history Event.opens? (x.scene ts).events = x.opened :=
  history_scene (fun _ => rfl) x ts

theorem Calm.pending (calm : x.Calm) (between : x.agenda = []) (ts) : (x.scene ts).pending = 0 := by
  have late : x.ready.flatMap Wake.hooks = [] := by
    refine List.flatMap_eq_nil_iff.mpr fun w mem => ?_
    have := calm.ready w mem
    cases w with
    | late => exact this.elim
    | _ => rfl
  simp [scene, between, late]

theorem isOpen_before (run : Run Command.Hosted x y) (calm : x.Calm) {i : StreamId}
    (known : i < x.streams.length) (isOpen : y.isOpen i = true) : x.isOpen i = true := by
  obtain ⟨turns, history⟩ := run.history
  have later := Scene.Steps.later (history.steps calm [])
  have kept (side) : (x.half ⟨i, side⟩).closed = true → (y.half ⟨i, side⟩).closed = true :=
    later.closed ⟨i, side⟩ (by simpa [scene] using known)
  simp only [Exchange.isOpen, Bool.not_eq_true', Bool.and_eq_false_iff] at isOpen ⊢
  rcases isOpen with isOpen | isOpen
  · exact .inl (Bool.eq_false_iff.mpr fun closed => by simp [kept _ closed] at isOpen)
  · exact .inr (Bool.eq_false_iff.mpr fun closed => by simp [kept _ closed] at isOpen)

theorem active_eq (run : Run Command.Hosted (empty P) x) (between : x.agenda = []) :
    x.opened = List.range x.streams.length ∧ x.active = x.opened.filter x.isOpen := by
  obtain ⟨turns, history⟩ := run.history
  have reachable := history.reachable
  have opened : x.opened = List.range x.streams.length := by
    rw [← opened_scene x turns, reachable.numbered]
    simp [scene]
  refine ⟨opened, ?_⟩
  have listed := reachable.listed
  have nothing := (run.calm calm_empty).pending between turns
  have member (i) : i ∈ x.active ↔ i ∈ x.opened.filter x.isOpen := by
    have length : (x.scene turns).kinds.length = x.streams.length := by simp [scene]
    rw [List.mem_filter, opened, List.mem_range, ← length]
    constructor
    · intro mem
      have lt := listed.known i mem
      refine ⟨lt, ?_⟩
      rcases (listed.mem_active nothing lt).mp mem with isOpen | isOpen <;>
        simp_all [scene, Exchange.isOpen]
    · rintro ⟨lt, isOpen⟩
      refine (listed.mem_active nothing lt).mpr ?_
      simpa [scene, Exchange.isOpen, Bool.and_eq_false_iff] using isOpen
  have sorted : (x.opened.filter x.isOpen).Pairwise (· < ·) := by
    rw [opened]
    exact List.Pairwise.filter _ List.pairwise_lt_range
  exact List.Perm.eq_of_pairwise (fun _ _ _ _ less more => absurd (less.trans more) (lt_irrefl _))
    reachable.active_sorted sorted
    ((List.perm_ext_iff_of_nodup reachable.active_sorted.nodup sorted.nodup).mpr member)

/-- Whenever no work is left to do at once, the active streams are those of the calls so far that
are not fully closed, each of them once; so their number drops as soon as the last half of one
closes. -/
theorem active_exact (run : Run Command.Hosted (empty P) x) (between : x.agenda = []) :
    x.opened.Nodup ∧ x.active = x.opened.filter x.isOpen ∧
      x.active.length = x.opened.countP x.isOpen ∧
      ∀ {y}, Run Command.Hosted x y → y.agenda = [] → y.opened = x.opened →
        y.active = x.active.filter y.isOpen ∧
          y.active.length + x.opened.countP (fun i => x.isOpen i && !y.isOpen i) =
            x.active.length := by
  obtain ⟨opened, active⟩ := active_eq run between
  refine ⟨opened ▸ List.nodup_range, active, ?_, fun {y} later between' same => ?_⟩
  · rw [active, List.countP_eq_length_filter]
  obtain ⟨-, active'⟩ := active_eq (run.trans later) between'
  have left : y.active = x.active.filter y.isOpen := by
    rw [active', active, same, List.filter_filter]
    refine List.filter_congr fun i mem => ?_
    rw [opened, List.mem_range] at mem
    cases isOpen : y.isOpen i with
    | false => rfl
    | true => exact (isOpen_before later (run.calm calm_empty) mem isOpen).symm
  refine ⟨left, ?_⟩
  have closed : x.opened.countP (fun i => x.isOpen i && !y.isOpen i) =
      (x.active.filter fun i => !y.isOpen i).length := by
    rw [active, List.filter_filter, List.countP_eq_length_filter]
    simp only [Bool.and_comm]
  rw [left, closed]
  exact (x.active.length_eq_length_filter_add y.isOpen).symm

/-- A host opens a download and an upload to a plugin that serves nothing. -/
def twoServed : Exchange .idle :=
  ((((empty .idle).command (.call (.plugin (.openDownload "d" "b" "k")))).clear 20).command
    (.call (.plugin (.openUpload "u")))).clear 20

/-- The download is over first. -/
theorem twoServed_active : twoServed.active = [0, 1] ∧
    (twoServed.advance 8).active = twoServed.active.filter (twoServed.advance 8).isOpen ∧
    (twoServed.advance 8).active = [1] := by
  have opened : Move Command.Hosted (empty .idle) _ :=
    .command (c := .call (.plugin (.openDownload "d" "b" "k"))) rfl trivial
  have first := opened.run.trans (run_clear 20 _)
  have run : Run Command.Hosted (empty .idle) twoServed :=
    (first.step (.command (c := .call (.plugin (.openUpload "u"))) rfl trivial)).trans
      (run_clear 20 _)
  have drops := (active_exact run rfl).2.2.2 (run_advance 8 twoServed) rfl rfl
  exact ⟨rfl, drops.1, rfl⟩

end Exchange

end ObjectTransfer
