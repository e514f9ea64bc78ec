import ObjectTransfer.Proofs.Quiet
import ObjectTransfer.Proofs.Readers
import ObjectTransfer.Proofs.Registry
import ObjectTransfer.Proofs.Writers
import ObjectTransfer.Scripted.Plugin

/-! # Streams that are left open

After a call that reads or writes an object at once, nobody can close its stream from the host's
side any more. The call leaves the stream open if it ends without learning how the plugin ended,
while the plugin still waits in the stream (`Exchange.leaks_iff`): a writer does so when it handed
over the failure of its source, or when that failure has no text.
-/

namespace ObjectTransfer

variable {P : Plugin}

namespace Exchange

/-- Whether the service of a stream waits in a channel of the stream. -/
def Stuck (x : Exchange P) (i : StreamId) : Prop :=
  ∃ side, (∃ e ∈ (x.half ⟨i, side⟩).channel.senders, e.2.task.owner = .service i) ∨
    ∃ t ∈ (x.half ⟨i, side⟩).channel.receivers, t.owner = .service i

/-- Whether a call ended without learning how the plugin ended its stream. -/
inductive Abandons (x : Exchange P) (i : StreamId) : PluginCall → Prop where
  /-- The plugin sent the end marker itself as a chunk. -/
  | marker {bucket key} :
    .handed ⟨i, .responses⟩ (.payload .eof) ∈ x.journal → Abandons x i (.read bucket key)
  /-- The failure of the source was handed over. -/
  | aborted {bucket key source f} :
    .handed ⟨i, .requests⟩ (.failure f) ∈ x.journal → Abandons x i (.write bucket key source)
  /-- The source failed with something that has no text. -/
  | textless {bucket key source v f} :
    source.ending x.gates.outcome? = .failed v → v.toFault? = .error f →
    Abandons x i (.write bucket key source)

end Exchange

namespace Scene

variable {s : Scene P} {i : StreamId}

theorem Reachable.requests_closed (reachable : s.Reachable) (lt : i < s.kinds.length)
    (kind : s.kindOf i = .download) : s.closed ⟨i, .requests⟩ = true := by
  refine reachable.stream_induction (motive := (·.closed ⟨i, .requests⟩ = true)) lt kind ?_
    fun _ lt _ step closed => step.later.closed _ lt closed
  rintro s c invocation - - rfl
  exact if_pos rfl

/-- A read that ended learned that its half is closed, or it was sent the end marker. -/
theorem Reachable.read_ended (reachable : s.Reachable) {n : Nat} {bucket key : String} {so}
    (called : .called n (.plugin (.read bucket key)) ∈ s.events) (opened : .opened n i ∈ s.events)
    (settled : .settled n so ∈ s.events) :
    s.closed ⟨i, .responses⟩ = true ∨ .handed ⟨i, .responses⟩ (.payload .eof) ∈ s.events := by
  have orderly := reachable.orderly
  have owns : Event.Owns s.events n i := ⟨opened, called, rfl⟩
  obtain ⟨c, kind, invocation, called', opens, kindOf⟩ := orderly.opens opened
  cases orderly.calledOnce called called'
  cases opens
  let d : Fetch := ⟨n, i⟩
  have known : d.Known s := ⟨⟨_, called, trivial⟩, .inl owns, kindOf⟩
  have sole : d.Sole s := .of_owns orderly owns
  cases Fetch.account reachable known sole with
  | reading mem =>
      exact absurd (mem_names.mpr ⟨_, mem, rfl⟩) (reachable.owned.settled settled).1
  | finished _ ended =>
      obtain ⟨-, -, receives, result⟩ := ended
      cases receives with
      | eof closed => exact .inl closed
      | failure _ closed => exact .inl closed
      | @payload v handed =>
          by_cases marker : v = .eof
          · exact .inr (marker ▸ handed)
          · rw [Reading.resume_of_something _ marker ((reachable.seals _ _ handed).2.1 v rfl)]
              at result
            exact nomatch result

/-- A write that ended learned that both halves are closed or will be, or its source failed. -/
theorem Reachable.write_ended (reachable : s.Reachable) {n : Nat} {bucket key : String}
    {source : Source} {so}
    (called : .called n (.plugin (.write bucket key source)) ∈ s.events)
    (opened : .opened n i ∈ s.events) (settled : .settled n so ∈ s.events) :
    s.Doomed ⟨i, .requests⟩ ∧ s.Doomed ⟨i, .responses⟩ ∨
      (∃ f, .handed ⟨i, .requests⟩ (.failure f) ∈ s.events) ∨
      ∃ v f, source.ending s.gates = .failed v ∧ v.toFault? = .error f := by
  let u : Upload := ⟨n, i, bucket, key, source⟩
  obtain ⟨c, kind, invocation, called', opens, kindOf⟩ := reachable.orderly.opens opened
  cases reachable.orderly.calledOnce called called'
  cases opens
  have lt := (reachable.orderly.opened opened).2
  cases Upload.account (u := u) reachable ⟨called, opened⟩ with
  | writing mem =>
      exact absurd (mem_names.mpr ⟨_, mem, rfl⟩) (reachable.owned.settled settled).1
  | finished _ _ ended =>
      cases ended with
      | aborted handed => exact .inr (.inl ⟨_, handed⟩)
      | textless passes fails fault =>
          refine .inr (.inr ⟨_, _, ?_, fault⟩)
          rw [Source.ending, passes.yield, fails.yield]
      | answered closed answered =>
          refine .inl ⟨⟨lt, .inl closed⟩, ?_⟩
          rcases answered with closed' | ⟨m, handed⟩
          · exact ⟨lt, .inl closed'⟩
          · obtain ⟨-, -, role, speaks, final⟩ := reachable.seals _ _ handed
            refine final ?_
            cases role with
            | client => exact nomatch speaks
            | server =>
                cases m with
                | payload => exact ⟨kindOf, rfl⟩
                | failure => trivial

end Scene

namespace Exchange

variable {x : Exchange P} {i : StreamId}

theorem Stuck.of_thread {th : Thread P} {side : Side}
    (mem : th ∈ (x.half ⟨i, side⟩).threads ⟨i, side⟩) (owner : th.owner = .service i) :
    x.Stuck i := by
  rcases List.mem_append.mp mem with mem | mem <;>
    obtain ⟨parked, inside, rfl⟩ := List.mem_map.mp mem
  · exact ⟨side, .inl ⟨parked, inside, owner⟩⟩
  · exact ⟨side, .inr ⟨parked, inside, owner⟩⟩

theorem Stuck.isOpen (stuck : x.Stuck i) (calm : x.Calm) :
    ∃ side, (x.half ⟨i, side⟩).closed = false := by
  obtain ⟨side, ⟨e, inside, -⟩ | ⟨t, inside, -⟩⟩ := stuck
  · have mem : e.2.task.thread (.offering ⟨i, side⟩ e.1 e.2.terminal) ∈
        (x.half ⟨i, side⟩).threads ⟨i, side⟩ :=
      List.mem_append_left _ (List.mem_map_of_mem (f := fun e : Message × Offer P =>
        e.2.task.thread (.offering ⟨i, side⟩ e.1 e.2.terminal)) inside)
    exact ⟨side, Half.channel_open (calm.halves _).toGuarded mem⟩
  · have mem : t.thread (.wanting ⟨i, side⟩) ∈ (x.half ⟨i, side⟩).threads ⟨i, side⟩ :=
      List.mem_append_right _ (List.mem_map_of_mem (f := fun t : Task P =>
        t.thread (.wanting ⟨i, side⟩)) inside)
    exact ⟨side, Half.channel_open (calm.halves _).toGuarded mem⟩

theorem mem_waiting (quiet : x.isQuiet = true) {th : Thread P} (mem : th ∈ x.threads)
    {names : List String} (waits : th.stage = .waiting names) :
    ∃ entry ∈ x.gates.waiting, th = entry.2.thread (.waiting entry.1) := by
  obtain ⟨agenda, ready⟩ := isQuiet_iff.mp quiet
  simp only [threads, agenda, ready, List.flatMap_nil, Multiset.coe_nil, zero_add,
    Multiset.mem_add, Multiset.mem_coe, List.mem_map] at mem
  rcases mem with mem | ⟨entry, inside, rfl⟩
  · obtain ⟨h, here⟩ := mem_parked.mp mem
    have parked := Half.parkedAt here
    rw [waits] at parked
    exact parked.elim
  · exact ⟨entry, inside, rfl⟩

theorem abandons_of_settled {s : Scene P} {ts} (same : s = x.scene ts) (reachable : s.Reachable)
    (quiet : s.Quiet) {n : Nat} {c : PluginCall} {so : Settlement}
    (called : .called n (.plugin c) ∈ s.events) (opened : .opened n i ∈ s.events)
    (whole : c.keeps? = none) (settled : .settled n so ∈ s.events)
    (isOpen : s.closed ⟨i, .requests⟩ = false ∨ s.closed ⟨i, .responses⟩ = false) :
    x.Abandons i c := by
  have shut (requests : s.closed ⟨i, .requests⟩ = true)
      (responses : s.closed ⟨i, .responses⟩ = true) : False := by
    simp [requests, responses] at isOpen
  have lt := (reachable.orderly.opened opened).2
  obtain ⟨c', kind, invocation, called', opens, kindOf⟩ := reachable.orderly.opens opened
  cases reachable.orderly.calledOnce called called'
  cases c with
  | read =>
      cases opens
      rcases reachable.read_ended called opened settled with closed | handed
      · exact (shut (reachable.requests_closed lt kindOf) closed).elim
      · subst same
        exact .marker ((mem_events rfl ts).mp handed)
  | write =>
      rcases reachable.write_ended called opened settled with
        ⟨requests, responses⟩ | ⟨f, handed⟩ | ⟨v, f, ending, fault⟩
      · exact (shut (quiet.closed requests) (quiet.closed responses)).elim
      · subst same
        exact .aborted ((mem_events rfl ts).mp handed)
      · subst same
        exact .textless ending fault
  | openDownload | openUpload => exact nomatch whole
  | method | readKept | holds | keys => exact nomatch opens

/-- After a call that reads or writes an object at once settled and nothing can go on, and unless
the handler still waits for a gate, a half of its stream is open or the stream is active exactly if
the call abandoned the plugin while the plugin waits in the stream. -/
theorem leaks_iff (run : Run Command.Hosted (.empty P) x) (quiet : x.isQuiet = true)
    {n : Nat} {c : PluginCall} {so : Settlement} (called : .called n (.plugin c) ∈ x.journal)
    (opened : .opened n i ∈ x.journal) (whole : c.keeps? = none)
    (settled : .settled n so ∈ x.journal)
    (inside : ∀ entry ∈ x.gates.waiting, entry.2.owner ≠ .service i) :
    (∃ side, (x.half ⟨i, side⟩).closed = false) ∨ i ∈ x.active ↔ x.Abandons i c ∧ x.Stuck i := by
  obtain ⟨ts, history⟩ := run.history
  have reachable := history.reachable
  have quietScene := quiet_scene quiet ts
  rw [← mem_events rfl ts] at called opened settled
  have lt := (reachable.orderly.opened opened).2
  have active : i ∈ x.active ↔ _ := reachable.listed.mem_active quietScene.pending lt
  constructor
  · intro leaks
    have isOpen : (x.scene ts).closed ⟨i, .requests⟩ = false ∨
        (x.scene ts).closed ⟨i, .responses⟩ = false := by
      rcases leaks with ⟨side, isOpen⟩ | isActive
      · cases side with
        | requests => exact .inl isOpen
        | responses => exact .inr isOpen
      · exact active.mp isActive
    refine ⟨abandons_of_settled rfl reachable quietScene called opened whole settled isOpen, ?_⟩
    obtain ⟨th, mem, owner, ⟨side, parked⟩ | ⟨names, waits⟩⟩ :=
      quietScene.service reachable lt isOpen
    · exact .of_thread (mem_half_threads mem parked) owner
    · obtain ⟨entry, within, rfl⟩ := mem_waiting quiet mem waits
      exact absurd owner (inside entry within)
  · rintro ⟨-, stuck⟩
    exact .inl (stuck.isOpen (run.calm calm_empty))

def failingWrite : PluginCall :=
  .write "b" "k" ⟨false, [.chunk (.bytes [1]), .fails (.text "boom")]⟩

/-- What is left of it when the plugin receives until that fails, and fails itself. -/
def brokenOff : Exchange (Scripted.plugin ⟨[], [[.drains]]⟩) :=
  ((empty _).command (.call (.plugin failingWrite))).advance 120

/-- The call settled, its response half stays open, and it is counted as active. -/
theorem brokenOff_leaks : brokenOff.isQuiet = true ∧ brokenOff.gates.waiting = [] ∧
    .settled 0 (.rejected (.fault (.error "boom"))) ∈ brokenOff.journal ∧
    (brokenOff.half ⟨0, .responses⟩).closed = false ∧ 0 ∈ brokenOff.active ∧
    ((∃ side, (brokenOff.half ⟨0, side⟩).closed = false) ∨ 0 ∈ brokenOff.active) := by
  have run : Run Command.Hosted (.empty _) brokenOff :=
    (Move.command rfl trivial).run.trans (run_advance _ _)
  have quiet : brokenOff.isQuiet = true := rfl
  have nobody : brokenOff.gates.waiting = [] := rfl
  have abandons : brokenOff.Abandons 0 failingWrite :=
    .aborted (List.mem_of_getElem? (i := 4) rfl)
  have stuck : brokenOff.Stuck 0 := ⟨.responses, .inl ⟨_, List.mem_of_getElem? (i := 0) rfl, rfl⟩⟩
  have settled : .settled 0 (.rejected (.fault (.error "boom"))) ∈ brokenOff.journal :=
    List.mem_of_getElem? (i := 1) rfl
  refine ⟨quiet, nobody, settled, rfl, List.mem_singleton_self _,
    (leaks_iff (c := failingWrite) run quiet (List.mem_of_getElem? (i := 12) rfl)
      (List.mem_of_getElem? (i := 11) rfl) rfl settled ?_).mpr ⟨abandons, stuck⟩⟩
  intro entry inside
  rw [nobody] at inside
  exact nomatch inside

end Exchange

end ObjectTransfer
