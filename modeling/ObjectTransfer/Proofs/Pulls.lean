import ObjectTransfer.Proofs.Writers

/-! # What writers pull from their sources

A writer pulls the next chunk only after the last one was taken (`Writing.Keen`), and it tells its
source to end before it waits for the response (`Upload.Draws`). So when nobody takes its chunks any
more, it pulls at most once (`Upload.Spares`).
-/

namespace ObjectTransfer

variable {P : Plugin}

def Event.isPull (k : Nat) : Event → Bool
  | pulled k' => k' == k
  | _ => false

/-- How many chunks a source yielded. -/
def Event.pulls (events : List Event) (k : Nat) : Nat := events.countP (·.isPull k)

theorem Event.pulls_append (es events : List Event) (k : Nat) :
    pulls (es ++ events) k = pulls es k + pulls events k :=
  List.countP_append

theorem Event.pulls_eq_zero {es : List Event} {k : Nat} (apart : .pulled k ∉ es) :
    pulls es k = 0 := by
  refine List.countP_eq_zero.mpr fun e mem pull => ?_
  cases e with
  | pulled k' =>
      obtain rfl : k' = k := by simpa [isPull] using pull
      exact apart mem
  | _ => exact nomatch pull

def Event.isOf (k : Nat) : Event → Bool
  | pulled k' => k' == k
  | sourceEnded k' => k' == k
  | _ => false

/-! ## Turns of writers -/

/-- Whether a writer pulls next, with the outcome of what it waited for. -/
def Writing.Keen (w : Writing) : Outcome → Prop
  | .ok _ => match w.phase with
    | .starting | .blocked | .sending => True
    | _ => False
  | .error _ => w.phase = .starting

def WritingPhase.Ends : WritingPhase → Prop
  | starting | blocked | asking (.chunk _) _ | sending => False
  | _ => True

/-- Whether a writer gets to a phase though its source does not fail. -/
def WritingPhase.Sound : WritingPhase → Prop
  | asking (.failed _) _ | aborting _ | discarding _ | failing _ => False
  | _ => True

def Writing.Turn.events (turn : Writing.Turn) (k : Nat) : List Event :=
  (turn.remarks.filterMap (·.event? k)).reverse

namespace Writing

variable {w : Writing} {o : Outcome} {k : Nat}

/-- Whether a writer holds a chunk back while it is at a stage, or does not pull any more. -/
def Holds (w : Writing) (st : Stage) : Prop :=
  match w.phase with
  | .starting | .blocked => False
  | .sending => st.succeeds = false
  | _ => True

theorem holds_of_ends {m : Prop} (ends : w.phase.Ends) : match w.phase with
    | .starting | .blocked => False
    | .sending => m
    | _ => True := by
  generalize w.phase = phase at ends
  cases phase <;> trivial

/-- A turn of a writer that does not pull. -/
structure Spares (w : Writing) (turn : Turn) : Prop where
  pulled : .pulled ∉ turn.remarks
  holds : match turn.state.phase with
    | .starting | .blocked => False
    | .sending => ∃ m, turn.next = .calls m
    | _ => True
  ends : turn.state.phase.Ends → w.phase.Ends ∨ .sourceEnded ∈ turn.remarks
  last : ∀ o, turn.next = .done o → w.phase.Ends

theorem resume_of_keen (keen : w.Keen o) : w.resume o = w.pull := by
  obtain ⟨bucket, key, source, phase⟩ := w
  cases o <;> cases phase <;> first | rfl | exact keen.elim | exact nomatch keen

theorem spares_acknowledge (ends : w.phase.Ends) : w.Spares w.acknowledge :=
  ⟨nofun, trivial, fun _ => .inl ends, nofun⟩

theorem spares_abort (ends : w.phase.Ends) (v : Value) : w.Spares (w.abort v) := by
  rw [abort]
  split
  · exact ⟨by rintro ⟨⟩, trivial, fun _ => .inl ends, by rintro _ ⟨⟩⟩
  · exact ⟨by rintro ⟨⟩, holds_of_ends ends, fun _ => .inl ends, fun _ _ => ends⟩

theorem spares_finish (ends : w.phase.Ends) (o : Outcome) (logs : List Log) :
    w.Spares (w.finish o logs) := by
  exact ⟨by simp [finish], holds_of_ends ends, fun _ => .inl ends, fun _ _ => ends⟩

theorem spares_resume (apart : ¬ w.Keen o) : w.Spares (w.resume o) := by
  obtain ⟨bucket, key, source, phase⟩ := w
  cases phase with
  | starting => cases o <;> exact absurd (by trivial) apart
  | blocked =>
      cases o with
      | ok => exact absurd trivial apart
      | error =>
          exact ⟨by simp [resume, ask], trivial, fun _ => .inr List.mem_cons_self, by rintro _ ⟨⟩⟩
  | asking answer turns =>
      cases answer with
      | chunk v =>
          rcases turns with _ | _ | turns
          · exact ⟨by rintro ⟨⟩, ⟨_, rfl⟩, False.elim, by rintro _ ⟨⟩⟩
          · exact ⟨by rintro ⟨⟩, ⟨_, rfl⟩, False.elim, by rintro _ ⟨⟩⟩
          · exact ⟨by rintro ⟨⟩, trivial, False.elim, by rintro _ ⟨⟩⟩
      | exhausted =>
          rcases turns with _ | _ | turns
          · exact spares_acknowledge (by trivial)
          · exact spares_acknowledge (by trivial)
          · exact ⟨by rintro ⟨⟩, trivial, fun _ => .inl trivial, by rintro _ ⟨⟩⟩
      | failed v =>
          rcases turns with _ | _ | turns
          · exact spares_abort (by trivial) v
          · exact spares_abort (by trivial) v
          · exact ⟨by rintro ⟨⟩, trivial, fun _ => .inl trivial, by rintro _ ⟨⟩⟩
  | sending =>
      cases o with
      | ok => exact absurd trivial apart
      | error =>
          exact ⟨by simp [resume, leave], trivial, fun _ => .inr List.mem_cons_self, by rintro _ ⟨⟩⟩
  | stopping => exact ⟨by rintro ⟨⟩, trivial, fun _ => .inl trivial, by rintro _ ⟨⟩⟩
  | leaving failure =>
      cases failure with
      | none => exact spares_acknowledge (by trivial)
      | some v => exact spares_abort (by trivial) v
  | aborting =>
      cases o with
      | ok => exact spares_finish (by trivial) _ _
      | error v =>
          simp only [resume]
          split
          · exact ⟨by rintro ⟨⟩, trivial, fun _ => .inl trivial, by rintro _ ⟨⟩⟩
          · exact spares_finish (by trivial) _ _
  | discarding =>
      cases o <;> exact ⟨by simp [resume], trivial, fun _ => .inl trivial, by rintro _ ⟨⟩⟩
  | failing => exact spares_finish (by trivial) _ _
  | acknowledging =>
      simp only [resume]
      split <;> first | contradiction | exact spares_finish (by trivial) _ _

/-- A writer that pulls gets a chunk and holds it, or nothing that counts. -/
theorem pull_cases (w : Writing) :
    (w.pull.remarks = [.pulled] ∧ ∃ v turns, w.pull.state.phase = .asking (.chunk v) turns) ∨
      .pulled ∉ w.pull.remarks ∧ (w.pull.state.phase.Ends → .sourceEnded ∈ w.pull.remarks) := by
  rw [pull]
  split
  · exact .inr ⟨by simp [ask], fun _ => List.mem_cons_self⟩
  · exact .inl ⟨rfl, _, _, rfl⟩
  · exact .inr ⟨by simp [ask], fun _ => List.mem_cons_self⟩
  · exact .inr ⟨by rintro ⟨⟩, False.elim⟩

theorem pull_goes_on (w : Writing) (o : Outcome) : w.pull.next ≠ .done o := by
  rw [pull]
  split <;> rintro ⟨⟩

namespace Turn

variable {turn : Turn}

theorem mem_events {e : Event} : e ∈ turn.events k ↔ ∃ r ∈ turn.remarks, r.event? k = some e := by
  simp [events]

theorem pulls_events (apart : .pulled ∉ turn.remarks) : Event.pulls (turn.events k) k = 0 := by
  refine Event.pulls_eq_zero fun mem => ?_
  obtain ⟨r, inside, shown⟩ := mem_events.mp mem
  cases r <;> cases shown
  exact apart inside

theorem ended_events (ended : .sourceEnded ∈ turn.remarks) : .sourceEnded k ∈ turn.events k :=
  mem_events.mpr ⟨_, ended, rfl⟩

/-- The thread of a writer after its turn. -/
theorem thread_cases (turn : Turn) (gates : String → Option Outcome) (i : StreamId) (k : Nat)
    (fs : List (Frame P)) (n : Owner) :
    (∃ o, turn.next = .done o ∧ turn.thread gates i k fs n = ⟨.bound o, fs, n⟩) ∨
      ∃ st, turn.thread gates i k fs n = ⟨st, .writing i k turn.state :: fs, n⟩ ∧
        ∀ m, turn.next = .calls m → st = .entering i .client m := by
  rw [thread]
  split
  next rests => exact .inr ⟨_, rfl, fun m same => by cases rests.symm.trans same⟩
  next gate waits => exact .inr ⟨_, rfl, fun m same => by cases waits.symm.trans same⟩
  next m calls => exact .inr ⟨_, rfl, fun m' same => by cases calls.symm.trans same; rfl⟩
  next o done => exact .inl ⟨o, done, rfl⟩

end Turn

/-! ## Counts -/

theorem not_keen (holds : w.Holds (.bound o)) : ¬ w.Keen o := by
  intro keen
  obtain ⟨bucket, key, source, phase⟩ := w
  cases phase with
  | starting | blocked => exact holds
  | sending =>
      cases o with
      | ok => exact nomatch holds
      | error => exact nomatch keen
  | _ => cases o <;> exact nomatch keen

variable {events : List Event} {n : Nat}

/-- A writer pulls once at most before it holds a chunk back. -/
theorem pulls_resume
    (pulls : Event.pulls events k ≤ n ∨ Event.pulls events k ≤ n + 1 ∧ w.Holds (.bound o))
    {st : Stage} (calls : ∀ m, (w.resume o).next = .calls m → st.succeeds = false) :
    Event.pulls ((w.resume o).events k ++ events) k ≤ n ∨
      Event.pulls ((w.resume o).events k ++ events) k ≤ n + 1 ∧ (w.resume o).state.Holds st := by
  have most : Event.pulls events k ≤ n + 1 := pulls.elim Nat.le_succ_of_le And.left
  rw [Event.pulls_append]
  by_cases keen : w.Keen o
  · have eager : Event.pulls events k ≤ n := pulls.resolve_right fun holds => not_keen holds.2 keen
    rw [resume_of_keen keen]
    rcases w.pull_cases with ⟨pulled, v, turns, phase⟩ | ⟨unpulled, -⟩
    · refine .inr ⟨?_, by rw [Holds, phase]; trivial⟩
      have one : Event.pulls (w.pull.events k) k = 1 := by
        rw [Turn.events, pulled]
        simp [Remark.event?, Event.pulls, Event.isPull]
      omega
    · exact .inl (by rwa [Turn.pulls_events unpulled, Nat.zero_add])
  · have spares := spares_resume keen
    rw [Turn.pulls_events spares.pulled, Nat.zero_add]
    refine .inr ⟨most, ?_⟩
    have holds := spares.holds
    rw [Holds]
    split
    next phase => rw [phase] at holds; exact holds
    next phase => rw [phase] at holds; exact holds
    next phase =>
      rw [phase] at holds
      obtain ⟨m, next⟩ := holds
      exact calls m next
    next => trivial

theorem ends_of_done {o' : Outcome} (done : (w.resume o).next = .done o') : w.phase.Ends := by
  have apart : ¬ w.Keen o := by
    intro keen
    rw [resume_of_keen keen] at done
    exact w.pull_goes_on o' done
  exact (spares_resume apart).last o' done

theorem holds_goes {s : Scene P} {i : StreamId} {st st' : Stage} (holds : w.Holds st)
    (sends : w.phase = .sending → ∃ v, st.InCall s i .client (.send (w.request v)))
    (kind : s.kindOf i = .upload) (goes : st.Goes s st')
    (untaken : ∀ m terminal, st = .offering ⟨i, .requests⟩ m terminal →
      st' ≠ .sent ⟨i, .requests⟩ terminal true) : w.Holds st' := by
  obtain ⟨bucket, key, source, phase⟩ := w
  cases phase with
  | sending =>
      obtain ⟨v, inCall⟩ := sends rfl
      have entry := Method.entry_send ⟨bucket, key, source, .sending⟩ v
      rw [← kind] at entry
      exact (inCall.succeeds_goes entry goes (untaken _ _)).trans holds
  | _ => exact holds

end Writing

theorem SourceItem.ending_failed {gates gates' : String → Option Outcome}
    {items : List SourceItem} {v : Value}
    (later : ∀ name o, gates name = some o → gates' name = some o)
    (failed : (yield gates items).2 = .failed v) : (yield gates' items).2 = .failed v := by
  induction items with
  | nil => exact nomatch failed
  | cons item rest ih =>
      cases item with
      | chunk => exact ih failed
      | fails => exact failed
      | waits gate =>
          cases settled : gates gate with
          | none => simp [yield, settled] at failed
          | some o => cases o <;> simp_all [yield, later _ _ settled]

/-! ## The numbers of sources -/

def Thread.DrawsFrom (th : Thread P) (k : Nat) : Prop := ∃ i w fs, th.frames = .writing i k w :: fs

variable {s s' : Scene P} {th th' : Thread P} {k : Nat}

/-- Whether a thread does nothing else if it writes an object. -/
def Thread.Lone (th : Thread P) : Prop :=
  ∀ i k w, .writing i k w ∈ th.frames → th.frames = [.writing i k w]

theorem Thread.Lone.rest {st : Stage} {f : Frame P} {fs : List (Frame P)} {n : Owner}
    (lone : Thread.Lone ⟨st, f :: fs, n⟩) {i k w} : .writing i k w ∉ fs := by
  intro mem
  have same := lone i k w (List.mem_cons_of_mem _ mem)
  cases same
  exact absurd mem List.not_mem_nil

theorem Thread.Proper.lone (proper : th.Proper s) : th.Lone := by
  intro i k w mem
  cases proper <;> simp_all

/-- What stands in the place of a thread that went on: only a writer goes on to draw from its
source, and what is left of a thread does not write. -/
theorem Thread.Turns.writes {ths es} (turns : th.Turns s ths es) (lone : th.Lone)
    (mem : th' ∈ ths) {i k w} (writes : .writing i k w ∈ th'.frames) :
    (∃ o v, th = ⟨.bound o, [.writing i k v], th.owner⟩ ∧
      th' = (v.resume o).thread s.gates i k [] th.owner ∧
      w = (v.resume o).state) ∧ th'.frames = [.writing i k w] := by
  cases turns with
  | @write o j k' v fs n =>
      obtain rfl := List.mem_singleton.mp mem
      have alone := lone j k' v List.mem_cons_self
      cases alone
      rcases (v.resume o).thread_cases s.gates j k' [] n with ⟨o', -, same⟩ | ⟨st, same, -⟩
      · rw [same] at writes
        exact absurd writes List.not_mem_nil
      · have inside := (congrArg Thread.frames same) ▸ writes
        cases List.mem_singleton.mp inside
        exact ⟨⟨o, v, rfl, rfl, rfl⟩, congrArg Thread.frames same⟩
  | @read o j r =>
      obtain rfl := List.mem_singleton.mp mem
      cases next : r.resume o <;> rw [next] at writes <;>
        simp [Reading.Next.thread, lone.rest] at writes
  | @handle o j state fs n =>
      generalize (P.step s.shared state o).2 = act at mem
      cases act with
      | fork =>
          simp only [Act.threads, List.mem_cons, List.not_mem_nil, or_false] at mem
          rcases mem with rfl | rfl <;> simp [lone.rest] at writes
      | _ =>
          obtain rfl := List.mem_singleton.mp mem
          simp [lone.rest] at writes
  | @serve o =>
      obtain rfl := List.mem_singleton.mp mem
      revert writes
      cases o with
      | ok => simp [served, lone.rest]
      | error v =>
          simp only [served]
          split
          · simp [lone.rest]
          · split <;> simp [lone.rest]
  | start =>
      obtain rfl := List.mem_singleton.mp mem
      simp at writes
  | delivered | follow =>
      obtain rfl := List.mem_singleton.mp mem
      exact absurd writes lone.rest
  | settle => exact absurd mem List.not_mem_nil

namespace Scene

theorem Step.sources (step : Step s s') : s.sources ≤ s'.sources := by
  have begun (c : PluginCall) : s.sources ≤ (s.begin c).sources := by
    cases c <;> simp [begin]
  cases step with
  | call | opening => exact begun _
  | _ => exact Nat.le_refl _

/-- Who writes an object does nothing else, and did so before or begins to. -/
theorem Step.writes (step : Step s s') (lone : ∀ th ∈ s.threads, th.Lone)
    (mem : th' ∈ s'.threads) {i k w} (writes : .writing i k w ∈ th'.frames) :
      th'.frames = [.writing i k w] ∧
      ((∃ th ∈ s.threads, (∃ v, th.frames = [.writing i k v]) ∧ th'.owner = th.owner) ∨
        ∃ bucket key source, th' = s.firstThread (.write bucket key source) ∧
          s' = s.opened (.write bucket key source) .upload .put) := by
  obtain ⟨parts⟩ := step.parts
  rcases parts.origin mem with fresh | ⟨th, old, ths, becomes, mem⟩
  · have enters := parts.enters
    generalize parts.fresh = ths at fresh enters
    cases enters with
    | none => exact absurd fresh List.not_mem_nil
    | notice =>
        obtain rfl := List.mem_singleton.mp fresh
        exact absurd writes List.not_mem_nil
    | @call c opens =>
        obtain rfl := List.mem_singleton.mp fresh
        cases c with
        | read | write | openDownload | openUpload => cases opens
        | holds | keys => exact absurd writes List.not_mem_nil
        | method | readKept =>
            simp only [firstThread] at writes
            split at writes <;> simp at writes
    | @opening c _ _ opens same =>
        simp only [List.mem_cons, List.not_mem_nil, or_false] at fresh
        rcases fresh with rfl | rfl
        · simp [firstService] at writes
        · cases c with
          | write bucket key source =>
              cases opens
              cases List.mem_singleton.mp writes
              exact ⟨rfl, .inr ⟨bucket, key, source, rfl, same⟩⟩
          | read => simp [firstThread] at writes
          | openDownload | openUpload => exact absurd writes List.not_mem_nil
          | method | readKept | holds | keys => cases opens
  · rcases becomes.cases parts.events_eq with ⟨st, rfl, -⟩ | turns
    · obtain rfl := List.mem_singleton.mp mem
      have alone := lone th old i k w writes
      exact ⟨alone, .inl ⟨th, old, ⟨w, alone⟩, rfl⟩⟩
    · obtain ⟨⟨o, v, same, rfl, rfl⟩, frames⟩ := turns.writes (lone th old) mem writes
      exact ⟨frames,
        .inl ⟨th, old, ⟨v, congrArg Thread.frames same⟩, Writing.Turn.thread_owner _ _ _ _ _ _⟩⟩

theorem Step.draws (step : Step s s') (cast : s.Cast) (mem : th' ∈ s'.threads)
    (draws : th'.DrawsFrom k) :
    (∃ th ∈ s.threads, th.DrawsFrom k ∧ th'.owner = th.owner) ∨ k = s.sources + 1 ∧
    k ≤ s'.sources := by
  obtain ⟨i, w, fs, frames⟩ := draws
  have lone (th) (mem : th ∈ s.threads) : th.Lone := (cast th mem).lone
  have writes : .writing i k w ∈ th'.frames := frames ▸ List.mem_cons_self
  obtain ⟨frames, ⟨th, old, ⟨v, same⟩, owner⟩ | ⟨bucket, key, source, rfl, rfl⟩⟩ :=
    step.writes lone mem writes
  · exact .inl ⟨th, old, ⟨i, v, [], same⟩, owner⟩
  · cases frames
    exact .inr ⟨rfl, Nat.le_refl _⟩

theorem Step.sourced (step : Step s s') (k : Nat) :
    (∃ es, s'.events = es ++ s.events ∧ ∀ e ∈ es, e.isOf k = false) ∨
      ∃ o i w fs n, ⟨.bound o, .writing i k w :: fs, n⟩ ∈ s.threads ∧
        (Writing.resume w o).thread s.gates i k fs n ∈ s'.threads ∧
        s'.events = (w.resume o).events k ++ s.events := by
  cases step with
  | @solo th ths es rest threads solo =>
      cases solo with
      | @write o i k' w fs n =>
          by_cases here : k' = k
          · subst here
            refine .inr ⟨o, i, w, fs, n, threads ▸ Multiset.mem_cons_self _ _, ?_, rfl⟩
            exact Multiset.mem_add.mpr (.inl (Multiset.mem_coe.mpr List.mem_cons_self))
          · refine .inl ⟨_, rfl, fun e mem => ?_⟩
            obtain ⟨r, -, shown⟩ := Writing.Turn.mem_events.mp mem
            cases r <;> cases shown <;> simpa [Event.isOf] using here
      | @settle o w =>
          exact .inl ⟨_, rfl, fun e mem => by cases w <;> simp_all [Owner.events, Event.isOf]⟩
      | received => exact .inl ⟨_, rfl, List.forall_mem_singleton.mpr rfl⟩
      | _ => exact .inl ⟨[], rfl, List.forall_mem_nil _⟩
  | handle =>
      refine .inl ⟨_, rfl, fun e mem => ?_⟩
      obtain ⟨_, _, _, rfl⟩ := Act.eq_did mem
      rfl
  | start | gate | strike | count | notice => exact .inl ⟨[], rfl, List.forall_mem_nil _⟩
  | close | meet | call => exact .inl ⟨[_], rfl, List.forall_mem_singleton.mpr rfl⟩
  | opening =>
      exact .inl ⟨[_, _], rfl, List.forall_mem_cons.mpr ⟨rfl, List.forall_mem_singleton.mpr rfl⟩⟩

/-- Whenever a source yields a chunk, its writer takes a turn. -/
theorem Step.pulls (step : Step s s') (k : Nat) : Event.pulls s'.events k = Event.pulls s.events k ∨
    ∃ o i w fs n, ⟨.bound o, .writing i k w :: fs, n⟩ ∈ s.threads ∧
      (Writing.resume w o).thread s.gates i k fs n ∈ s'.threads ∧
      s'.events = (w.resume o).events k ++ s.events := by
  refine (step.sourced k).imp_left fun ⟨es, events, apart⟩ => ?_
  have unpulled : .pulled k ∉ es := fun mem => by simpa [Event.isOf] using apart _ mem
  rw [events, Event.pulls_append, Event.pulls_eq_zero unpulled, Nat.zero_add]

theorem Reachable.source_le (reachable : s.Reachable) (mem : th ∈ s.threads)
    (draws : th.DrawsFrom k) : k ≤ s.sources := by
  induction reachable generalizing th with
  | refl => exact absurd mem (Multiset.notMem_zero th)
  | tail steps step ih =>
      rcases step.draws (Reachable.cast steps) mem draws with ⟨th', old, draws', -⟩ | ⟨-, le⟩
      · exact (ih old draws').trans step.sources
      · exact le

end Scene

namespace Upload

variable {u : Upload} {w : Writing} {st : Stage} {o : Outcome}

/-- Whether the writer of an upload alone draws from this source. -/
structure Draws (s : Scene P) (u : Upload) (k : Nat) : Prop where
  number : k ≤ s.sources
  alone : ∀ th ∈ s.threads, th.DrawsFrom k → th.owner = .call u.call

theorem Draws.step (draws : u.Draws s k) (cast : s.Cast) (step : Scene.Step s s') :
    u.Draws s' k where
  number := draws.number.trans step.sources
  alone th mem from' := by
    rcases step.draws cast mem from' with ⟨th', old, from'', same⟩ | ⟨new, -⟩
    · exact same.trans (draws.alone th' old from'')
    · exact absurd draws.number (new ▸ Nat.not_succ_le_self _)

/-- A writer takes a turn, or it pulls nothing while its stage goes on. -/
theorem Draws.goes_on (draws : u.Draws s k) (reachable : s.Reachable) (known : u.Known s.events)
    (mem : u.thread k w st ∈ s.threads) (step : Scene.Step s s') :
    (∃ o, st = .bound o ∧ (w.resume o).thread s.gates u.stream k [] (.call u.call) ∈ s'.threads ∧
      s'.events = (w.resume o).events k ++ s.events) ∨
    ∃ st', u.thread k w st' ∈ s'.threads ∧ st.Goes s' st' ∧
      Event.pulls s'.events k = Event.pulls s.events k ∧
      (s'.passed u.half = s.passed u.half → ∀ m terminal, st = .offering u.half m terminal →
        st' ≠ .sent u.half terminal true) := by
  rcases step.pulls k with same | ⟨o, i, w', fs, n, inside, result, events⟩
  · obtain ⟨parts⟩ := step.parts
    obtain ⟨ths, becomes, results⟩ := parts.fate mem
    rcases becomes.cases parts.events_eq with ⟨st', rfl, goes⟩ | turns
    · refine .inr
        ⟨st', results _ List.mem_cons_self, goes, same, fun silent m terminal offers => ?_⟩
      rcases u.becomes known reachable.orderly reachable.cast reachable.owned mem parts.events_eq
        becomes with
        ⟨st'', same, -, -, untaken⟩ | ⟨m', terminal', -, -, passed⟩ | ⟨o, bound, -⟩
      · cases same
        exact untaken m terminal offers
      · exact absurd (silent.symm.trans passed) (by simp)
      · exact nomatch bound.symm.trans offers
    · have events := parts.events_eq
      generalize parts.events = es at turns events
      cases turns
      exact .inl ⟨_, rfl, results _ List.mem_cons_self, events⟩
  · have owner := draws.alone _ inside ⟨_, _, _, rfl⟩
    obtain rfl : n = .call u.call := owner
    cases reachable.owned.eq mem inside rfl rfl
    exact .inl ⟨o, rfl, result, events⟩

theorem Sent.sound_pull {chunks} (sent : u.Sent s chunks w.source.items)
    (unfailing : ∀ v, u.source.ending s.gates ≠ .failed v) : w.pull.state.phase.Sound := by
  rw [Writing.pull]
  split
  · trivial
  · trivial
  next v rest items =>
    refine absurd ?_ (unfailing v)
    rw [Source.ending, sent.passes.yield, items]
    rfl
  · trivial

theorem Tale.sound_resume (tale : u.Tale s w (.bound o)) (waits : w.Waits s u.stream (.bound o))
    (kind : s.kindOf u.stream = .upload) (unfailing : ∀ v, u.source.ending s.gates ≠ .failed v)
    (sound : w.phase.Sound) : (w.resume o).state.phase.Sound := by
  obtain ⟨bucket, key, source, phase⟩ := w
  cases phase with
  | starting =>
      obtain ⟨chunks, sent⟩ := tale
      exact sent.sound_pull unfailing
  | blocked =>
      obtain ⟨chunks, gate, sent, known⟩ := tale
      rcases known with waiting | ⟨v, v', bound, settled⟩ | ⟨v, bound, settled⟩
      · exact nomatch waiting
      · cases bound
        exact Sent.sound_pull ⟨.gate sent.passes settled, sent.passed⟩ unfailing
      · refine absurd ?_ (unfailing v)
        rw [Source.ending, sent.passes.yield, (SourceItem.Fails.gate settled).yield]
  | asking answer turns =>
      match turns, answer with
      | turns + 2, .chunk v | turns + 2, .exhausted => trivial
      | 0, .chunk v | 1, .chunk v | 0, .exhausted | 1, .exhausted => trivial
      | _, .failed v => exact sound.elim
  | sending =>
      obtain ⟨chunks, v, passes, inCall, passed⟩ := tale
      have hasStage := inCall.came
      rw [entry_send kind] at hasStage
      rcases hasStage.told.1 with ⟨rfl, -⟩ | ⟨rfl, -⟩
      · exact Sent.sound_pull ⟨.chunk passes, (List.append_nil _).symm.trans passed⟩ unfailing
      · trivial
  | stopping => trivial
  | leaving =>
      obtain ⟨rfl, -⟩ := waits
      trivial
  | acknowledging =>
      rw [Writing.resume.eq_def]
      split <;> trivial
  | aborting | discarding | failing => exact sound.elim

/-- What is known of a writer and its source. -/
structure Drawn (s : Scene P) (u : Upload) (k : Nat) (w : Writing) : Prop extends u.Draws s k where
  ended : w.phase.Ends → .sourceEnded k ∈ s.events
  sound : (∀ v, u.source.ending s.gates ≠ .failed v) → w.phase.Sound

theorem unfailing_before (later : Scene.Later s s')
    (unfailing : ∀ v, u.source.ending s'.gates ≠ .failed v) (v : Value) :
    u.source.ending s.gates ≠ .failed v :=
  fun failed => unfailing v (SourceItem.ending_failed later.gates failed)

theorem ends_resume (w : Writing) (o : Outcome) (ends : (w.resume o).state.phase.Ends) :
    w.phase.Ends ∨ .sourceEnded ∈ (w.resume o).remarks := by
  by_cases keen : w.Keen o
  · rw [Writing.resume_of_keen keen] at ends ⊢
    rcases w.pull_cases with ⟨-, v, turns, phase⟩ | ⟨-, ended⟩
    · rw [phase] at ends
      exact ends.elim
    · exact .inr (ended ends)
  · exact (Writing.spares_resume keen).ends ends

theorem Drawn.step (drawn : u.Drawn s k w) (reachable : s.Reachable) (known : u.Known s.events)
    (mem : u.thread k w st ∈ s.threads) (step : Scene.Step s s') {k' w' st'}
    (mem' : u.thread k' w' st' ∈ s'.threads) : u.Drawn s' k' w' := by
  have later := step.later
  have reached : s'.Reachable := reachable.tail step
  have owned := reached.owned
  obtain ⟨-, kind, waits⟩ := writer_waits reachable.cast mem
  rcases drawn.goes_on reachable known mem step with ⟨o, rfl, result, events⟩ | ⟨st'', result, -⟩
  · rcases (w.resume o).thread_cases s.gates u.stream k [] (.call u.call) with
      ⟨o', -, same⟩ | ⟨st'', same, -⟩
    · rw [same] at result
      exact nomatch owned.eq mem' result rfl rfl
    · rw [same] at result
      cases owned.eq mem' result rfl rfl
      refine { drawn.toDraws.step reachable.cast step with
        ended := fun ends => ?_, sound := fun unfailing => ?_ }
      · rw [events]
        rcases ends_resume w o ends with before | ended
        · exact List.mem_append_right _ (drawn.ended before)
        · exact List.mem_append_left _ (Writing.Turn.ended_events ended)
      · have unfailing := unfailing_before later unfailing
        exact (u.tale reachable known mem).sound_resume waits kind unfailing (drawn.sound unfailing)
  · cases owned.eq mem' result rfl rfl
    exact { drawn.toDraws.step reachable.cast step with
      ended := fun ends => later.mem (drawn.ended ends)
      sound := fun unfailing => drawn.sound (unfailing_before later unfailing) }

theorem drawn (reachable : s.Reachable) (known : u.Known s.events)
    (mem : u.thread k w st ∈ s.threads) : u.Drawn s k w := by
  induction reachable generalizing k w st with
  | refl => exact absurd known.opened List.not_mem_nil
  | @tail s s' steps step ih =>
      have reached : s.Reachable := steps
      have reached' : s'.Reachable := steps.tail step
      rcases step.openedBefore reached.orderly known.opened known.called with
        ⟨opened, called⟩ | ⟨call, stream, kind, invocation, opens, rfl⟩
      · have before : u.Known s.events := ⟨called, opened⟩
        cases u.account reached before with
        | writing old => exact (ih before old).step reached before old step mem
        | finished finished =>
            have after := finished.step (reached.orderly.opened opened).1 step
            cases congrArg Thread.frames (after.threads _ mem rfl)
      · cases opens
        have first : u.thread (s.sources + 1) (.start u.bucket u.key u.source)
            (.bound (.ok .undefined)) ∈ (s.opened u.pluginCall .upload .put).threads := by
          refine Multiset.mem_cons_of_mem ?_
          rw [thread, stream, call]
          exact Multiset.mem_cons_self _ _
        cases reached'.owned.eq mem first rfl rfl
        refine ⟨⟨Nat.le_refl _, fun th inside draws => ?_⟩, False.elim, fun _ => trivial⟩
        rcases Multiset.mem_cons.mp inside with rfl | inside
        · obtain ⟨_, _, _, frames⟩ := draws
          cases frames
        rcases Multiset.mem_cons.mp inside with rfl | inside
        · exact congrArg Owner.call call.symm
        · exact absurd (reached.source_le inside draws) (Nat.not_succ_le_self _)

/-! ## Chunks that nobody takes -/

/-- When so many chunks were pulled and nobody takes them any more, the writer pulls once at most.
-/
inductive Spares (s : Scene P) (u : Upload) (k n : Nat) : Prop where
  | writing {writer stage} : u.thread k writer stage ∈ s.threads →
    (Event.pulls s.events k ≤ n ∨ Event.pulls s.events k ≤ n + 1 ∧ writer.Holds stage) →
    Spares s u k n
  | ended {outcome} : s.Over u.call outcome → k ≤ s.sources → (∀ th ∈ s.threads, ¬ th.DrawsFrom k) →
    Event.pulls s.events k ≤ n + 1 → .sourceEnded k ∈ s.events → Spares s u k n

variable {n : Nat}

theorem Spares.le (spares : u.Spares s k n) : Event.pulls s.events k ≤ n + 1 := by
  cases spares with
  | writing _ pulls => exact pulls.elim Nat.le_succ_of_le And.left
  | ended _ _ _ pulls => exact pulls

theorem Spares.turn (reached : s'.Reachable) (draws : u.Draws s' k) (drawn : u.Drawn s k w)
    (result : (w.resume o).thread s.gates u.stream k [] (.call u.call) ∈ s'.threads)
    (events : s'.events = (w.resume o).events k ++ s.events)
    (pulls : Event.pulls s.events k ≤ n ∨ Event.pulls s.events k ≤ n + 1 ∧ w.Holds (.bound o)) :
    u.Spares s' k n := by
  rcases (w.resume o).thread_cases s.gates u.stream k [] (.call u.call) with
    ⟨o', done, same⟩ | ⟨st', same, calls⟩
  · rw [same] at result
    have finished : s'.Over u.call o' := .of_thread reached.owned result
    refine .ended finished draws.number (fun th mem draws' => ?_) ?_ ?_
    · obtain ⟨i, w', fs, frames⟩ := draws'
      have owner := draws.alone th mem ⟨i, w', fs, frames⟩
      rw [finished.threads th mem (owner ▸ rfl)] at frames
      cases frames
    · have last : _ ∨ _ ∧ (w.resume o).state.Holds (.bound o') :=
        Writing.pulls_resume pulls fun m calls => by cases done.symm.trans calls
      exact events ▸ last.elim Nat.le_succ_of_le And.left
    · exact events ▸ List.mem_append_right _ (drawn.ended (Writing.ends_of_done done))
  · rw [same] at result
    refine .writing result ?_
    rw [events]
    exact Writing.pulls_resume pulls fun m next => calls m next ▸ rfl

theorem Spares.step (spares : u.Spares s k n) (reachable : s.Reachable) (known : u.Known s.events)
    (step : Scene.Step s s') (silent : s'.passed u.half = s.passed u.half) : u.Spares s' k n := by
  have later := step.later
  have reached : s'.Reachable := reachable.tail step
  cases spares with
  | writing mem pulls =>
      have drawn := u.drawn reachable known mem
      obtain ⟨lt, kind, waits⟩ := writer_waits reachable.cast mem
      rcases drawn.goes_on reachable known mem step with ⟨o, rfl, result, events⟩ |
        ⟨st', result, goes, same, untaken⟩
      · exact .turn reached (drawn.toDraws.step reachable.cast step) drawn result events pulls
      · refine .writing result (same ▸ pulls.imp_right fun ⟨most, holds⟩ => ⟨most, ?_⟩)
        refine Writing.holds_goes holds (fun sending => ?_) ((later.kindOf lt).trans kind) goes
          (untaken silent)
        rw [Writing.Waits, sending] at waits
        obtain ⟨chunk, inCall⟩ := waits
        exact ⟨chunk, later.inCall lt inCall⟩
  | ended finished number alone pulls ended =>
      have draws (th) (mem : th ∈ s'.threads) : ¬ th.DrawsFrom k := by
        intro draws
        rcases step.draws reachable.cast mem draws with ⟨th', old, draws', -⟩ | ⟨new, -⟩
        · exact alone th' old draws'
        · exact absurd number (new ▸ Nat.not_succ_le_self _)
      have same : Event.pulls s'.events k = Event.pulls s.events k := by
        refine (step.pulls k).resolve_right ?_
        rintro ⟨o, i, w, fs, n, inside, -⟩
        exact alone _ inside ⟨i, w, fs, rfl⟩
      exact .ended (finished.step (reachable.orderly.opened known.opened).1 step)
        (number.trans step.sources) draws (same.trans_le pulls) (later.mem ended)

end Upload

end ObjectTransfer
