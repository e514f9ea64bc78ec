import ObjectTransfer.Proofs.Closures
import ObjectTransfer.Proofs.Simulation

/-! # Quiet scenes

When nothing can go on, every thread waits: in the channel of a half, which is open then, or for
gates that are not settled. So every half that is doomed is closed, and whoever has to close one
does not wait.
-/

namespace ObjectTransfer

variable {P : Plugin}

theorem Half.channel_open {h : HalfId} {half : Half P} (guarded : half.Guarded) {th : Thread P}
    (mem : th ∈ half.threads h) : half.closed = false := by
  rw [← guarded.channel]
  cases channel : half.channel with
  | offering | wanting => rfl
  | closed => simp [threads, channel, Channel.senders, Channel.receivers] at mem

/-- Nobody waits to send while somebody waits to receive. -/
theorem Half.not_both {h : HalfId} {half : Half P} {fs fs' : List (Frame P)} {w w' m terminal}
    (wants : ⟨.wanting h, fs, w⟩ ∈ half.threads h)
    (offers : ⟨.offering h m terminal, fs', w'⟩ ∈ half.threads h) : False := by
  cases channel : half.channel <;>
    simp [threads, channel, Channel.senders, Channel.receivers, Task.thread] at wants offers

namespace Exchange

variable {x : Exchange P}

theorem mem_parked {th : Thread P} : th ∈ x.parked ↔ ∃ h, th ∈ (x.half h).threads h := by
  rw [parked, List.mem_flatten]
  constructor
  · rintro ⟨ths, mem, inside⟩
    obtain ⟨i, lt, rfl⟩ := List.mem_mapIdx.mp mem
    rcases List.mem_append.mp inside with here | here
    · exact ⟨⟨i, .requests⟩, by simpa [half, lt, Stream.half] using here⟩
    · exact ⟨⟨i, .responses⟩, by simpa [half, lt, Stream.half] using here⟩
  · rintro ⟨⟨i, side⟩, mem⟩
    cases found : x.streams[i]? with
    | none =>
        simp [half, found, Half.shut, Half.threads, Channel.senders, Channel.receivers] at mem
    | some s =>
        obtain ⟨lt, same⟩ := List.getElem?_eq_some_iff.mp found
        refine ⟨s.threads i, List.mem_mapIdx.mpr ⟨i, lt, congrArg _ same⟩, List.mem_append.mpr ?_⟩
        cases side with
        | requests => exact .inl (by simpa [half, found, Stream.half] using mem)
        | responses => exact .inr (by simpa [half, found, Stream.half] using mem)

theorem mem_half_threads {th : Thread P} {h : HalfId} (mem : th ∈ x.threads)
    (waits : th.stage.ParkedAt h) : th ∈ (x.half h).threads h := by
  simp only [threads, Multiset.mem_add, Multiset.mem_coe, List.mem_flatMap, List.mem_map] at mem
  rcases mem with ((⟨w, -, mem⟩ | ⟨w, -, mem⟩) | mem) | ⟨entry, -, rfl⟩
  · exact absurd waits (Work.not_parkedAt mem h)
  · exact absurd waits (Wake.not_parkedAt mem h)
  · obtain ⟨h', here⟩ := mem_parked.mp mem
    exact waits.unique (Half.parkedAt here) ▸ here
  · exact waits.elim

end Exchange

/-! ## Gates that are waited for -/

namespace Stage

def Unsettled (gates : String → Option Outcome) : Stage → Prop
  | waiting names => ∀ name ∈ names, gates name = none
  | _ => True

variable {gates : String → Option Outcome} {st : Stage}

theorem unsettled_ofGates (names : List String) : (ofGates gates names).Unsettled gates := by
  simp only [ofGates]
  split
  · trivial
  · split
    · trivial
    · intro name mem
      exact Option.isNone_iff_eq_none.mp (List.mem_filter.mp mem).2

theorem unsettled_sent (h : HalfId) (terminal taken : Bool) :
    (sent h terminal taken).Unsettled gates := by
  cases terminal <;> trivial

theorem unsettled_stage (closed : HalfId → Bool) (i : StreamId) (e : Entry) :
    (e.stage closed i).Unsettled gates := by
  cases e <;> simp only [Entry.stage] <;> first | trivial | split <;> trivial

theorem Follows.unsettled (follows : st.Follows) : st.Unsettled gates := by
  cases follows <;> trivial

theorem Unsettled.release (unsettled : st.Unsettled gates) (h : HalfId) :
    (st.release h).Unsettled gates := by
  cases st with
  | wanting =>
      simp only [Stage.release]
      split <;> trivial
  | offering =>
      simp only [Stage.release]
      split
      · exact unsettled_sent _ _ _
      · trivial
  | _ => exact unsettled

theorem Unsettled.afterGate (unsettled : st.Unsettled gates) (name : String) (o : Outcome) :
    (st.afterGate name o).Unsettled (Function.update gates name (some o)) := by
  cases st with
  | waiting names =>
      simp only [Stage.afterGate]
      split
      · cases o with
        | error => trivial
        | ok =>
            simp only
            split
            · trivial
            · intro name' mem
              obtain ⟨mem, other⟩ := List.mem_filter.mp mem
              rw [Function.update_of_ne (by simpa using other)]
              exact unsettled name' mem
      next missing =>
        intro name' mem
        have other : name' ≠ name := fun same => missing (by simpa using same ▸ mem)
        rw [Function.update_of_ne other]
        exact unsettled name' mem
  | _ => trivial

end Stage

namespace Scene

/-- Whether all threads that wait for gates wait for some that are not settled. -/
def Awaits (s : Scene P) : Prop := ∀ th ∈ s.threads, th.stage.Unsettled s.gates

variable {s s' : Scene P}

theorem Solo.unsettled {kindOf closed gates} {th : Thread P} {ths es}
    (solo : Solo kindOf closed gates th ths es) (proper : th.Proper s) :
    ∀ th' ∈ ths, th'.stage.Unsettled gates := by
  cases solo with
  | @received h m => 
      refine List.forall_mem_singleton.mpr ?_
      rcases m with _ | v | f <;> trivial
  | pass => exact List.forall_mem_singleton.mpr proper.follows.unsettled
  | enter => exact List.forall_mem_singleton.mpr (Stage.unsettled_stage _ _ _)
  | @read o i r =>
      refine List.forall_mem_singleton.mpr ?_
      cases r.resume o <;> trivial
  | @write o i k v =>
      refine List.forall_mem_singleton.mpr ?_
      rw [Writing.Turn.thread]
      split
      · trivial
      · exact Stage.unsettled_ofGates _
      · trivial
      · trivial
  | @serve o =>
      refine List.forall_mem_singleton.mpr ?_
      cases o with
      | ok => trivial
      | error v =>
          simp only [Thread.served]
          split
          · trivial
          · split <;> trivial
  | follow => exact List.forall_mem_singleton.mpr (Stage.unsettled_ofGates _)
  | settle => exact fun _ mem => absurd mem List.not_mem_nil
  | want | ended | undelivered | deliver | delivered => exact List.forall_mem_singleton.mpr trivial

theorem unsettled_firstThread {gates : String → Option Outcome} (s : Scene P) (c : PluginCall) :
    (s.firstThread c).stage.Unsettled gates := by
  rcases s.firstThread_stage c with ⟨o, stage⟩ | ⟨i, m, stage⟩ <;> rw [stage] <;> trivial

theorem Awaits.step (awaits : s.Awaits) (cast : s.Cast) (step : Step s s') : s'.Awaits := by
  intro th' mem
  cases step with
  | @solo th ths es rest threads solo =>
      rcases Multiset.mem_add.mp mem with new | old
      · exact solo.unsettled (cast th (threads ▸ Multiset.mem_cons_self _ _)) th' new
      · exact awaits th' (threads ▸ Multiset.mem_cons_of_mem old)
  | start threads =>
      rcases Multiset.mem_cons.mp mem with rfl | old
      · trivial
      · exact awaits th' (threads ▸ Multiset.mem_cons_of_mem old)
  | @handle o i state fs w rest threads =>
      rcases Multiset.mem_add.mp mem with new | old
      · rw [Multiset.mem_coe] at new
        generalize (P.step s.shared state o).2 = act at new
        cases act with
        | wait =>
            obtain rfl := List.mem_singleton.mp new
            exact Stage.unsettled_ofGates _
        | fork =>
            simp only [Act.threads, List.mem_cons, List.not_mem_nil, or_false] at new
            rcases new with rfl | rfl <;> trivial
        | _ =>
            obtain rfl := List.mem_singleton.mp new
            trivial
      · exact awaits th' (threads ▸ Multiset.mem_cons_of_mem old)
  | @close h next fs w rest threads isOpen =>
      rcases Multiset.mem_cons.mp mem with rfl | old
      · exact (cast _ (threads ▸ Multiset.mem_cons_self _ _)).follows.unsettled
      · obtain ⟨th, inside, rfl⟩ := Multiset.mem_map.mp old
        exact (awaits th (threads ▸ Multiset.mem_cons_of_mem inside)).release h
  | meet threads isOpen =>
      rcases Multiset.mem_cons.mp mem with rfl | mem
      · trivial
      rcases Multiset.mem_cons.mp mem with rfl | old
      · exact Stage.unsettled_sent _ _ _
      · exact awaits th' (threads ▸ Multiset.mem_cons_of_mem (Multiset.mem_cons_of_mem old))
  | @gate name o =>
      obtain ⟨th, inside, rfl⟩ := Multiset.mem_map.mp mem
      exact (awaits th inside).afterGate name o
  | strike | count => exact awaits th' mem
  | notice =>
      rcases Multiset.mem_cons.mp mem with rfl | old
      · trivial
      · exact awaits th' old
  | @call c =>
      rcases Multiset.mem_cons.mp mem with rfl | old
      · exact unsettled_firstThread s c
      · exact awaits th' old
  | @opening c kind invocation =>
      rcases Multiset.mem_cons.mp mem with rfl | mem
      · trivial
      rcases Multiset.mem_cons.mp mem with rfl | old
      · exact unsettled_firstThread s c
      · exact awaits th' old

theorem Reachable.awaits (reachable : s.Reachable) : s.Awaits := by
  induction reachable with
  | refl => exact fun th mem => absurd mem (Multiset.notMem_zero th)
  | tail steps step ih => exact ih.step (Reachable.cast steps) step

/-! ## Quiet scenes -/

/-- Whether nothing can go on before something happens outside. -/
structure Quiet (s : Scene P) : Prop where
  parked : ∀ th ∈ s.threads, th.stage.IsParked
  pending : s.pending = 0

theorem Quiet.closed (quiet : s.Quiet) {h : HalfId} (doomed : s.Doomed h) :
    s.closed h = true := by
  rcases doomed.2 with closed | ⟨th, mem, closes⟩
  · exact closed
  · have parked := quiet.parked th mem
    cases stage : th.stage <;> rw [stage] at parked closes <;>
      first
      | exact parked.elim
      | exact closes.elim

/-- A service that did not begin to close its stream waits in a channel of it, or its handler waits
for a gate. -/
theorem Quiet.service (quiet : s.Quiet) (reachable : s.Reachable) {i : StreamId}
    (lt : i < s.kinds.length)
    (isOpen : s.closed ⟨i, .requests⟩ = false ∨ s.closed ⟨i, .responses⟩ = false) :
    ∃ th ∈ s.threads, th.owner = .service i ∧ ((∃ side, th.stage.ParkedAt ⟨i, side⟩) ∨
      ∃ names, th.stage = .waiting names) := by
  rcases reachable.attended i lt with ⟨th, mem, owner, busy⟩ | ⟨requests, responses⟩
  · refine ⟨th, mem, owner, ?_⟩
    have parked := quiet.parked th mem
    have proper := reachable.cast th mem
    cases stage : th.stage <;> rw [stage] at parked <;> first | exact parked.elim | skip
    case waiting names => exact .inr ⟨names, rfl⟩
    case wanting h =>
      obtain ⟨j, role, m, -, calls, inCall⟩ := proper.calls (stage ▸ trivial)
      obtain ⟨rfl, rfl⟩ := calls.of_service owner
      exact .inl ⟨_, (inCall.hears (.inr (.inl stage))).1⟩
    case offering h m terminal =>
      obtain ⟨j, role, m, -, calls, inCall⟩ := proper.calls (stage ▸ trivial)
      obtain ⟨rfl, rfl⟩ := calls.of_service owner
      rw [stage] at inCall
      exact .inl ⟨_, inCall.offering.1⟩
  · have closed := quiet.closed requests
    have closed' := quiet.closed responses
    simp_all

end Scene

theorem Exchange.isQuiet_iff {x : Exchange P} : x.isQuiet = true ↔ x.agenda = [] ∧
    x.ready = [] := by
  simp [isQuiet, List.isEmpty_iff]

theorem Exchange.quiet_scene {x : Exchange P} (quiet : x.isQuiet = true) (ts) :
    (x.scene ts).Quiet := by
  obtain ⟨agenda, ready⟩ := isQuiet_iff.mp quiet
  constructor
  · intro th mem
    have mem : th ∈ x.threads := mem
    simp only [threads, agenda, ready, List.flatMap_nil, Multiset.coe_nil, zero_add,
      Multiset.mem_add, Multiset.mem_coe, List.mem_map] at mem
    rcases mem with mem | ⟨entry, -, rfl⟩
    · obtain ⟨h, here⟩ := mem_parked.mp mem
      have parked := Half.parkedAt here
      cases stage : th.stage <;> rw [stage] at parked <;> first | exact parked.elim | trivial
    · trivial
  · simp [scene, agenda, ready]

end ObjectTransfer
