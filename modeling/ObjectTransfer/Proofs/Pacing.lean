import ObjectTransfer.Proofs.Aborts
import ObjectTransfer.Proofs.Wakings

/-! # How fast a writer draws from its source

A writer never draws more than one chunk ahead of those that were taken, draws none after a send of
it was refused, and ends its source once (`Exchange.sources_paced`). Each chunk that is taken pays
for one more to be drawn (`WriterCall.Paced`), and a phase of a writer tells whether its source
ended (`Writing.balances_resume`).
-/

namespace ObjectTransfer

variable {P : Plugin}

/-! ## Ends of sources -/

def Event.isEnd (k : Nat) : Event → Bool
  | sourceEnded k' => k' == k
  | _ => false

/-- How often a source ended. -/
def Event.ends (events : List Event) (k : Nat) : Nat := events.countP (·.isEnd k)

theorem Event.ends_append (es events : List Event) (k : Nat) :
    ends (es ++ events) k = ends es k + ends events k :=
  List.countP_append

theorem Event.same_counts {es events events' : List Event} {k : Nat}
    (grown : events' = es ++ events)
    (apart : ∀ e ∈ es, e.isOf k = false) :
    pulls events' k = pulls events k ∧ ends events' k = ends events k := by
  have none {f : Event → Bool} (tells : ∀ e, f e = true → e.isOf k = true) :
      (es ++ events).countP f = events.countP f := by
    rw [List.countP_append, List.countP_eq_zero.mpr, Nat.zero_add]
    exact fun e mem counts => Bool.false_ne_true ((apart e mem).symm.trans (tells e counts))
  subst grown
  refine ⟨none fun e pull => ?_, none fun e ends => ?_⟩
  · cases e <;> first | exact pull | cases pull
  · cases e <;> first | exact ends | cases ends

def Writing.Remark.isEnd : Remark → Bool
  | sourceEnded => true
  | _ => false

/-- How often a writer in a phase told its source to end. -/
def WritingPhase.ended : WritingPhase → Nat
  | starting | blocked | asking (.chunk _) _ | sending => 0
  | _ => 1

theorem WritingPhase.ended_eq_one {phase : WritingPhase} (ends : phase.Ends) : phase.ended = 1 := by
  cases phase with
  | asking answer => cases answer <;> first | rfl | exact ends.elim
  | starting | blocked | sending => exact ends.elim
  | _ => rfl

theorem WritingPhase.ends_of_pos {phase : WritingPhase} (pos : 0 < phase.ended) : phase.Ends := by
  cases phase with
  | asking answer => cases answer <;> trivial
  | starting | blocked | sending => exact absurd pos (Nat.lt_irrefl 0)
  | _ => trivial

theorem WritingPhase.ended_le (phase : WritingPhase) : phase.ended ≤ 1 := by
  unfold ended
  split <;> decide

namespace Writing

variable {w : Writing} {o : Outcome} {k : Nat}

theorem Turn.ends_events (turn : Turn) (k : Nat) :
    Event.ends (turn.events k) k = turn.remarks.countP (·.isEnd) := by
  rw [Turn.events, Event.ends, List.countP_reverse, List.countP_filterMap]
  congr 1
  funext r
  cases r <;> simp [Remark.event?, Event.isEnd, Remark.isEnd]

/-- Whether a turn of a writer in a phase tells its source to end exactly if it comes to a phase
where it did for the first time. -/
def Turn.Balances (turn : Turn) (phase : WritingPhase) : Prop :=
  turn.state.phase.ended = turn.remarks.countP (·.isEnd) + phase.ended

theorem balances_pull (w : Writing) {phase : WritingPhase} (first : phase.ended = 0) :
    w.pull.Balances phase := by
  rw [Turn.Balances, first, pull]
  split <;> rfl

theorem balances_abort (v : Value) (ended : w.phase.ended = 1) : (w.abort v).Balances w.phase := by
  rw [Turn.Balances, abort, ended]
  split
  · rfl
  · exact ended

theorem balances_finish (w : Writing) (o : Outcome) (logs : List Log) :
    (w.finish o logs).Balances w.phase := by
  have silent : (logs.map Remark.logged).countP (·.isEnd) = 0 := by
    refine List.countP_eq_zero.mpr fun r mem => ?_
    obtain ⟨log, -, rfl⟩ := List.mem_map.mp mem
    exact Bool.false_ne_true
  rw [Turn.Balances, finish, silent, Nat.zero_add]

theorem balances_resume (w : Writing) (o : Outcome) : (w.resume o).Balances w.phase := by
  obtain ⟨bucket, key, source, phase⟩ := w
  cases phase with
  | starting => cases o <;> exact balances_pull _ rfl
  | blocked =>
      cases o with
      | ok => exact balances_pull _ rfl
      | error => rfl
  | asking answer turns =>
      rcases turns with _ | _ | turns
      · cases answer with
        | failed v => exact balances_abort v rfl
        | chunk | exhausted => rfl
      · cases answer with
        | failed v => exact balances_abort v rfl
        | chunk | exhausted => rfl
      · cases answer <;> rfl
  | sending =>
      cases o with
      | ok => exact balances_pull _ rfl
      | error => rfl
  | stopping => rfl
  | leaving failure =>
      cases failure with
      | none => rfl
      | some v => exact balances_abort v rfl
  | aborting =>
      cases o with
      | ok => exact balances_finish _ _ _
      | error v =>
          simp only [resume]
          split
          · rfl
          · exact balances_finish _ _ _
  | discarding => cases o <;> rfl
  | failing => exact balances_finish _ _ _
  | acknowledging =>
      simp only [resume]
      split <;> first | contradiction | exact balances_finish _ _ _

/-- Whether a writer drew its last chunk, since its source ended or its send was refused. -/
def Shut (w : Writing) (st : Stage) : Prop :=
  w.phase.Ends ∨ w.phase = .sending ∧ ∃ v, st = .bound (.error v)

theorem shut_resume (shut : w.Shut (.bound o)) :
    (w.resume o).state.phase.Ends ∧ Event.pulls ((w.resume o).events k) k = 0 := by
  have balances := w.balances_resume o
  rcases shut with ends | ⟨phase, v, same⟩
  · have apart : ¬ w.Keen o := by
      intro keen
      obtain ⟨bucket, key, source, phase⟩ := w
      cases phase <;> cases o <;> first | exact keen | exact ends | cases keen
    rw [Turn.Balances, WritingPhase.ended_eq_one ends] at balances
    exact ⟨WritingPhase.ends_of_pos (balances ▸ Nat.succ_pos _),
      Turn.pulls_events (spares_resume apart).pulled⟩
  · cases same
    obtain ⟨bucket, key, source, _⟩ := w
    subst phase
    exact ⟨trivial, Turn.pulls_events (by simp [resume, leave])⟩

theorem holds_of_other {st st' : Stage} (other : w.phase ≠ .sending) (holds : w.Holds st) :
    w.Holds st' := by
  obtain ⟨bucket, key, source, phase⟩ := w
  cases phase with
  | sending => exact absurd rfl other
  | _ => exact holds

theorem pull_not_sending (w : Writing) : w.pull.state.phase ≠ .sending := by
  rw [pull]
  split <;> rintro ⟨⟩

theorem abort_not_sending (v : Value) (other : w.phase ≠ .sending) :
    (w.abort v).state.phase ≠ .sending := by
  rw [abort]
  split
  · rintro ⟨⟩
  · exact other

theorem resume_sending (sends : (w.resume o).state.phase = .sending) :
    ∃ v, (w.resume o).next = .calls (.send ((w.resume o).state.request v)) := by
  by_cases keen : w.Keen o
  · rw [resume_of_keen keen] at sends
    exact absurd sends w.pull_not_sending
  obtain ⟨bucket, key, source, phase⟩ := w
  cases phase with
  | asking answer turns =>
      cases answer with
      | chunk v => rcases turns with _ | _ | turns <;> first | exact ⟨v, rfl⟩ | cases sends
      | exhausted => rcases turns with _ | _ | turns <;> cases sends
      | failed v =>
          rcases turns with _ | _ | turns
          · exact absurd sends (abort_not_sending v (by rintro ⟨⟩))
          · exact absurd sends (abort_not_sending v (by rintro ⟨⟩))
          · cases sends
  | leaving failure =>
      cases failure with
      | none => cases sends
      | some v => exact absurd sends (abort_not_sending v (by rintro ⟨⟩))
  | aborting =>
      cases o with
      | ok => cases sends
      | error v =>
          simp only [resume] at sends
          split at sends <;> cases sends
  | acknowledging =>
      simp only [resume] at sends
      split at sends <;> contradiction
  | starting | blocked | sending | discarding =>
      cases o <;> first | exact absurd trivial keen | exact absurd rfl keen | cases sends
  | stopping | failing => cases sends

end Writing

/-! ## What is taken and what is drawn -/

namespace WriterCall

variable {s₀ s s' : Scene P} {p : WriterCall} {w : Writing} {st st' : Stage} {n : Nat}
  {refused : Option Nat}

def Takes (s s' : Scene P) (p : WriterCall) : Prop :=
  ∃ w v, w.phase = .sending ∧ p.thread w (.offering p.requests (.payload v) false) ∈ s.threads ∧
    p.thread w (.sent p.requests false true) ∈ s'.threads

/-- Shifts in which so many chunks of a writer are taken. -/
inductive Yields (s₀ : Scene P) (p : WriterCall) : Scene P → Nat → Prop where
  | refl : Yields s₀ p s₀ 0
  | passes {s s' : Scene P} {n : Nat} : Yields s₀ p s n → Scene.Shift s s' → ¬ p.Takes s s' →
      Yields s₀ p s' n
  | takes {s s' : Scene P} {n : Nat} : Yields s₀ p s n → Scene.Shift s s' → p.Takes s s' →
      Yields s₀ p s' (n + 1)

/-- What is known of a writer of which so many chunks were taken, and a send was refused when it had
drawn so many. -/
structure Tally (s : Scene P) (p : WriterCall) (n : Nat) (refused : Option Nat) (w : Writing)
    (st : Stage) : Prop where
  pulled : Event.pulls s.events p.source ≤ n ∨ Event.pulls s.events p.source ≤ n + 1 ∧ w.Holds st
  ended : Event.ends s.events p.source = w.phase.ended
  sends : w.phase = .sending → ∃ v, st.InCall s p.stream .client (.send (w.request v))
  refused : ∀ r ∈ refused, w.Shut st ∧ Event.pulls s.events p.source = r

/-- What is known of a call that writes, of which so many chunks were taken, and a send was refused
when it had drawn so many. -/
inductive Paced (s : Scene P) (p : WriterCall) (n : Nat) (refused : Option Nat) : Prop where
  | writing {w : Writing} {st : Stage} : p.thread w st ∈ s.threads → p.Tally s n refused w st →
      Paced s p n refused
  | finished : p.source ≤ s.sources → (∀ th ∈ s.threads, ¬ th.DrawsFrom p.source) →
    Event.pulls s.events p.source ≤ n + 1 → Event.ends s.events p.source = 1 →
    (∀ r ∈ refused, Event.pulls s.events p.source = r) → Paced s p n refused

theorem Tally.turn {o : Outcome} (tally : p.Tally s n refused w (.bound o))
    (events : s'.events = (w.resume o).events p.source ++ s.events)
    (calls : ∀ m, (w.resume o).next = .calls m → st' = .entering p.stream .client m) :
    p.Tally s' n refused (w.resume o).state st' where
  pulled := by
    rw [events]
    exact Writing.pulls_resume tally.pulled fun m next => calls m next ▸ rfl
  ended := by
    rw [events, Event.ends_append, Writing.Turn.ends_events, tally.ended]
    exact (w.balances_resume o).symm
  sends sending := by
    obtain ⟨v, next⟩ := Writing.resume_sending sending
    exact ⟨v, .inl (calls _ next)⟩
  refused r mem := by
    obtain ⟨shut, pulls⟩ := tally.refused r mem
    obtain ⟨ends, none⟩ := Writing.shut_resume shut
    exact ⟨.inl ends, by rw [events, Event.pulls_append, none, Nat.zero_add, pulls]⟩

theorem Tally.goes {n' : Nat} (tally : p.Tally s n refused w st) (known : p.Known s)
    (later : Scene.Later s s') {es : List Event} (events : s'.events = es ++ s.events)
    (apart : ∀ e ∈ es, e.isOf p.source = false) (goes : st.Goes s' st')
    (pulled : Event.pulls s.events p.source ≤ n' ∨
      Event.pulls s.events p.source ≤ n' + 1 ∧ w.Holds st') : p.Tally s' n' refused w st' := by
  obtain ⟨samePulls, sameEnds⟩ := Event.same_counts events apart
  refine ⟨samePulls ▸ pulled, sameEnds.trans tally.ended, fun sending => ?_, fun r mem => ?_⟩
  · obtain ⟨v, inCall⟩ := tally.sends sending
    exact ⟨v, (later.inCall known.lt inCall).goes goes⟩
  · obtain ⟨shut, pulls⟩ := tally.refused r mem
    refine ⟨shut.imp_right fun ⟨sending, v, bound⟩ => ⟨sending, v, ?_⟩, samePulls.trans pulls⟩
    exact Stage.bound_goes (bound ▸ goes)

theorem Tally.on (tally : p.Tally s n refused w st) (known : p.Known s) (later : Scene.Later s s')
    {es : List Event} (events : s'.events = es ++ s.events)
    (apart : ∀ e ∈ es, e.isOf p.source = false) (goes : st.Goes s' st')
    (untaken : ∀ h m terminal, st = .offering h m terminal → st' ≠ .sent h terminal true) :
    p.Tally s' n refused w st' := by
  have sends (sending : w.phase = .sending) :
      ∃ v, st.InCall s' p.stream .client (.send (w.request v)) := by
    obtain ⟨v, inCall⟩ := tally.sends sending
    exact ⟨v, later.inCall known.lt inCall⟩
  refine tally.goes known later events apart goes
    (tally.pulled.imp_right fun ⟨most, holds⟩ => ⟨most, ?_⟩)
  exact Writing.holds_goes holds sends (known.later later).kind goes fun _ _ => untaken _ _ _

theorem Tally.taken {h : HalfId} {m : Message} {terminal : Bool}
    (tally : p.Tally s n refused w (.offering h m terminal)) (known : p.Known s)
    (later : Scene.Later s s') (mem : p.thread w (.offering h m terminal) ∈ s.threads)
    (result : p.thread w (.sent h terminal true) ∈ s'.threads)
    (events : s'.events = .handed h m :: s.events) :
    p.Tally s' n refused w (.sent h terminal true) ∨
      p.Takes s s' ∧ p.Tally s' (n + 1) refused w (.sent h terminal true) := by
  have goes : (Stage.offering h m terminal).Goes s' (.sent h terminal true) :=
    .taken (events ▸ List.mem_cons_self)
  have apart : ∀ e ∈ [Event.handed h m], e.isOf p.source = false :=
    List.forall_mem_singleton.mpr rfl
  by_cases sending : w.phase = .sending
  · refine .inr ⟨?_, tally.goes known later events apart goes (.inl ?_)⟩
    · obtain ⟨v, entering | hasStage⟩ := tally.sends sending
      · cases entering
      · rw [known.kind, Method.entry_send] at hasStage
        cases hasStage with
        | sends sends =>
            cases sends
            exact ⟨w, _, sending, mem, result⟩
    · exact tally.pulled.elim Nat.le_succ_of_le And.left
  · refine .inl
      (tally.goes known later events apart goes (tally.pulled.imp_right (And.imp_right ?_)))
    exact Writing.holds_of_other sending

/-- A writer takes a turn, and may be done with it. -/
theorem Tally.shift {o : Outcome} (tally : p.Tally s n refused w (.bound o)) (facts : s.WriterFacts)
    (mem : p.thread w (.bound o) ∈ s.threads) (shift : Scene.Shift s s')
    {gates : String → Option Outcome}
    (result : (w.resume o).thread gates p.stream p.source [] (.call p.call) ∈ s'.threads)
    (events : s'.events = (w.resume o).events p.source ++ s.events) : p.Paced s' n refused := by
  have turned {st : Stage} : _ → p.Tally s' n refused (w.resume o).state st := tally.turn events
  rcases (w.resume o).thread_cases (P := P) gates p.stream p.source [] (.call p.call) with
    ⟨o', done, same⟩ | ⟨st', same, calls⟩
  · rw [same] at result
    have last : p.Tally s' n refused (w.resume o).state (.bound o') :=
      turned fun m calls => by cases done.symm.trans calls
    have ends : (w.resume o).state.phase.Ends :=
      (Writing.shut_resume (k := p.source) (.inl (Writing.ends_of_done done))).1
    refine .finished ((facts.number mem rfl).trans shift.sources)
      (fun th inside draws => ?_) ?_ ?_ ?_
    · have number := facts.number mem rfl
      obtain ⟨th₀, old, ⟨i, v, fs, frames⟩, owner⟩ := facts.draws_shift shift inside draws number
      have alone := facts.lone _ old i p.source v (frames ▸ List.mem_cons_self)
      have owner' : th.owner = .call p.call := owner.trans (facts.alone old alone mem rfl)
      cases (facts.accounted_next mem shift).eq inside result (owner' ▸ rfl) rfl
      obtain ⟨_, _, _, none⟩ := draws
      cases none
    · exact last.pulled.elim Nat.le_succ_of_le And.left
    · exact last.ended.trans (WritingPhase.ended_eq_one ends)
    · exact fun r mem => (last.refused r mem).2
  · rw [same] at result
    exact .writing result (turned calls)

theorem Paced.shift (paced : p.Paced s n refused) (facts : s.WriterFacts) (known : p.Known s)
    (shift : Scene.Shift s s') :
    p.Paced s' n refused ∨ p.Takes s s' ∧ p.Paced s' (n + 1) refused := by
  have later := shift.later
  cases paced with
  | writing mem tally =>
      cases facts.moves mem shift with
      | turn result events => exact .inl (tally.shift facts mem shift result events)
      | taken _ result _ events =>
          exact (tally.taken known later mem result events).imp (.writing result)
            (And.imp_right (.writing result))
      | on events apart result goes untaken =>
          exact .inl (.writing result (tally.on known later events apart goes untaken))
  | finished number alone pulls ends same =>
      refine .inl ?_
      rcases shift.sourced p.source with ⟨es, events, apart⟩ | ⟨o, i, w, fs, n, inside, -⟩
      · obtain ⟨samePulls, sameEnds⟩ := Event.same_counts events apart
        refine .finished (number.trans shift.sources) (fun th mem draws => ?_) (samePulls ▸ pulls)
          (sameEnds.trans ends) fun r mem => samePulls.trans (same r mem)
        obtain ⟨th₀, old, draws₀, -⟩ := facts.draws_shift shift mem draws number
        exact alone th₀ old draws₀
      · exact absurd ⟨i, w, fs, rfl⟩ (alone _ inside)

theorem Tally.mono {n' : Nat} (tally : p.Tally s n refused w st) (more : n ≤ n') :
    p.Tally s n' refused w st :=
  { tally with
    pulled := tally.pulled.imp (·.trans more) (And.imp_left (·.trans (Nat.succ_le_succ more))) }

theorem Paced.mono {n' : Nat} (paced : p.Paced s n refused) (more : n ≤ n') :
    p.Paced s n' refused := by
  cases paced with
  | writing mem tally => exact .writing mem (tally.mono more)
  | finished number alone pulls ends same =>
      exact .finished number alone (pulls.trans (Nat.succ_le_succ more)) ends same

theorem Yields.shifts (yields : p.Yields s₀ s n) : Scene.Shifts s₀ s := by
  induction yields with
  | refl => exact .refl
  | passes _ shift _ ih | takes _ shift _ ih => exact ih.tail shift

theorem exists_yields (p : WriterCall) (shifts : Scene.Shifts s₀ s) : ∃ n, p.Yields s₀ s n := by
  induction shifts with
  | refl => exact ⟨0, .refl⟩
  | @tail s s' before shift ih =>
      obtain ⟨n, yields⟩ := ih
      by_cases takes : p.Takes s s'
      · exact ⟨n + 1, yields.takes shift takes⟩
      · exact ⟨n, yields.passes shift takes⟩

/-- Each chunk that is taken lets a writer draw one more. -/
theorem Yields.paced {m : Nat} (yields : p.Yields s₀ s n) (facts : s₀.WriterFacts)
    (known : p.Known s₀)
    (paced : p.Paced s₀ m refused) : p.Paced s (m + n) refused := by
  induction yields with
  | refl => exact paced
  | passes before shift untaken ih =>
      have next :=
        ih.shift (facts.shifts before.shifts) (known.later (Scene.Shifts.later before.shifts)) shift
      exact next.resolve_right fun taken => untaken taken.1
  | takes before shift _ ih =>
      have next :=
        ih.shift (facts.shifts before.shifts) (known.later (Scene.Shifts.later before.shifts)) shift
      exact next.elim (·.mono (Nat.le_succ _)) And.right

/-- A chunk that is taken passes on the request half. -/
theorem Takes.passed (takes : p.Takes s s') (facts : s.WriterFacts) (shift : Scene.Shift s s') :
    ∃ m, s'.passed p.requests = s.passed p.requests ++ [m] := by
  obtain ⟨w, v, -, mem, result⟩ := takes
  cases facts.moves mem shift with
  | taken _ _ _ events => exact ⟨_, Scene.passed_handed events⟩
  | on _ _ after _ untaken =>
      cases (facts.shift shift).eq_writer result after rfl
      exact absurd rfl (untaken _ _ _ rfl)

theorem Yields.passed (yields : p.Yields s₀ s n) (facts : s₀.WriterFacts) :
    (s₀.passed p.requests).length + n ≤ (s.passed p.requests).length := by
  induction yields with
  | refl => exact Nat.le_refl _
  | passes before shift _ ih => exact ih.trans shift.later.passed.length_le
  | takes before shift taken ih =>
      obtain ⟨m, passed⟩ := taken.passed (facts.shifts before.shifts) shift
      rw [passed, List.length_append]
      exact Nat.succ_le_succ ih

theorem paced_start (facts : s.WriterFacts) (mem : p.thread w st ∈ s.threads)
    (starting : w.phase = .starting) : p.Paced s 0 none := by
  have fresh := facts.fresh mem rfl starting
  obtain ⟨pulls, ends⟩ := Event.same_counts (List.append_nil s.events).symm fresh
  refine .writing mem ⟨.inl pulls.le, ?_, fun sending => ?_, by rintro _ ⟨⟩⟩
  · rw [starting]
    exact ends
  · cases starting.symm.trans sending

/-- A send of a writer was refused. -/
theorem Paced.refuse (paced : p.Paced s n none) (facts : s.WriterFacts) {v : Value}
    (sending : w.phase = .sending) (mem : p.thread w (.bound (.error v)) ∈ s.threads) :
    p.Paced s n (some (Event.pulls s.events p.source)) := by
  cases paced with
  | writing inside tally =>
      cases facts.eq_writer mem inside rfl
      refine .writing inside { tally with refused := fun r same => ?_ }
      cases same
      exact ⟨.inr ⟨sending, v, rfl⟩, rfl⟩
  | finished _ alone => exact absurd ⟨_, _, _, rfl⟩ (alone _ mem)

theorem Paced.same {r : Nat} (paced : p.Paced s n (some r)) :
    Event.pulls s.events p.source = r := by
  cases paced with
  | writing _ tally => exact (tally.refused r rfl).2
  | finished _ _ _ _ same => exact same r rfl

theorem Paced.pulls_le (paced : p.Paced s n refused) : Event.pulls s.events p.source ≤ n + 1 := by
  cases paced with
  | writing _ tally => exact tally.pulled.elim Nat.le_succ_of_le And.left
  | finished _ _ pulls => exact pulls

theorem Paced.ends_le (paced : p.Paced s n refused) : Event.ends s.events p.source ≤ 1 := by
  cases paced with
  | writing _ tally => exact tally.ended.trans_le (WritingPhase.ended_le _)
  | finished _ _ _ ends => exact ends.le

theorem Paced.settled (paced : p.Paced s n refused) (facts : s.WriterFacts) {so : Settlement}
    (settled : .settled p.call so ∈ s.events) : Event.ends s.events p.source = 1 := by
  cases paced with
  | writing mem => exact absurd settled (facts.unsettled mem so)
  | finished _ _ _ ends => exact ends

end WriterCall

namespace Exchange

variable {x y z : Exchange P} {kinds : List StreamKind} {p : WriterCall}

theorem countP_scene {f : Event → Bool} (silent : ∀ line, f (.logged line) = false)
    (x : Exchange P) (ts) : (x.scene ts).events.countP f = x.journal.countP f := by
  rw [scene, List.countP_filter]
  refine List.countP_congr fun e _ => ?_
  cases e <;> simp [Event.isLogged, silent]

theorem counts_scene (x : Exchange P) (k : Nat) (ts) :
    Event.pulls (x.scene ts).events k = Event.pulls x.journal k ∧
      Event.ends (x.scene ts).events k = Event.ends x.journal k :=
  ⟨countP_scene (fun _ => rfl) x ts, countP_scene (fun _ => rfl) x ts⟩

/-- Whether a call is about to write an object to an upload. -/
structure StartsWriting (x : Exchange P) (p : WriterCall) : Prop where
  upload : x.kindOf p.stream = .upload
  writer :
    ∃ bucket key source, p.thread (.start bucket key source) (.bound (.ok .undefined)) ∈ x.threads

theorem kindOf_openCall (n : Nat) (kind : StreamKind) (x : Exchange P) :
    (x.openCall n kind).kindOf x.nextStream = kind := by
  rw [← kindOf_scene _ [], scene_openCall, ← length_kinds_scene x []]
  simp [Scene.kindOf, Scene.openStream]

/-- A call that writes an object to an upload that is open already is about to do so. -/
theorem startsWriting_stream {i : StreamId} (upload : x.kindOf i = .upload) (bucket key : String)
    (source : Source) :
    (x.command (.call (.stream i (.write bucket key source)))).StartsWriting
      ⟨x.calls, i, x.sources + 1⟩ where
  upload := upload
  writer := ⟨bucket, key, source, mem_threads_agenda List.mem_cons_self (List.mem_singleton_self _)⟩

/-- So is a call that opens an upload for its object. -/
theorem startsWriting_plugin (x : Exchange P) (bucket key : String) (source : Source) :
    (x.command (.call (.plugin (.write bucket key source)))).StartsWriting
      ⟨x.calls, x.nextStream, x.sources + 1⟩ where
  upload := kindOf_openCall _ _ _
  writer := by
    refine ⟨bucket, key, source, mem_threads_agenda (List.mem_cons_of_mem _ List.mem_cons_self) ?_⟩
    exact List.mem_singleton_self _

/-- Whether a send of a call that writes an object was just refused. -/
def Refused (x : Exchange P) (p : WriterCall) : Prop :=
  ∃ w v, w.phase = .sending ∧ p.thread w (.bound (.error v)) ∈ x.threads

/-- Whether so many chunks of a call that writes an object are taken on the way between two states.
-/
def Yields (x y : Exchange P) (p : WriterCall) (n : Nat) : Prop :=
  ∃ ts ts', p.Yields (x.scene ts) (y.scene ts') n

/-- How a call that writes an object draws from its source, since it began. -/
structure Paced (x y : Exchange P) (p : WriterCall) : Prop where
  /-- So many of its chunks were taken, each of them as a message on the request half. -/
  counted : ∃ n, Yields x y p n
  passed : ∀ n, Yields x y p n → (x.passed p.requests).length + n ≤ (y.passed p.requests).length
  /-- It drew one chunk more at most. -/
  ahead : ∀ n, Yields x y p n → Event.pulls y.journal p.source ≤ n + 1
  /-- It drew none after a send was refused. -/
  refused : ∀ z, Run (fun _ => True) x z → Run (fun _ => True) z y → z.Refused p →
    Event.pulls y.journal p.source = Event.pulls z.journal p.source
  /-- Its source ended once at most, and did so when it settled. -/
  once : Event.ends y.journal p.source ≤ 1
  ended : ∀ so, .settled p.call so ∈ y.journal → Event.ends y.journal p.source = 1

theorem StartsWriting.known (starts : x.StartsWriting p)
    (run : Run (fun _ => True) (ofStreams P kinds) x) (ts) :
    p.Known (x.scene ts) ∧ p.Paced (x.scene ts) 0 none := by
  obtain ⟨bucket, key, source, mem⟩ := starts.writer
  have facts := run.facts ts
  exact ⟨facts.known mem ((kindOf_scene x ts p.stream).trans starts.upload),
    WriterCall.paced_start facts mem rfl⟩

/-- Whatever else is called, however the other side receives, and in whatever order tasks go on: a
call that writes an object to an upload draws one chunk at most ahead of those that were taken and
none after a send was refused, and its source ended exactly once when it settles. -/
theorem sources_paced (run : Run (fun _ => True) (ofStreams P kinds) x) (starts : x.StartsWriting p)
    (later : Run (fun _ => True) x y) : Paced x y p := by
  have paced {z : Exchange P} {ts ts' n} (yields : p.Yields (x.scene ts) (z.scene ts') n) :
      p.Paced (z.scene ts') n none := by
    obtain ⟨known, first⟩ := starts.known run ts
    exact Nat.zero_add n ▸ yields.paced (run.facts ts) known first
  obtain ⟨ts', shifts⟩ := run.shifts later []
  obtain ⟨n, yields⟩ := WriterCall.exists_yields p shifts
  have facts := (run.trans later).facts ts'
  have counts (ts) := counts_scene y p.source ts
  refine ⟨⟨n, [], ts', yields⟩, ?_, ?_, ?_, ?_, fun so settled => ?_⟩
  · rintro n ⟨ts, ts', yields⟩
    have passed := yields.passed (run.facts ts)
    rwa [passed_scene, passed_scene] at passed
  · rintro n ⟨ts, ts', yields⟩
    exact (counts ts').1 ▸ (paced yields).pulls_le
  · -- From the refusal on, the count that was reached then is part of what shifts keep.
    rintro z before after ⟨w, v, sending, mem⟩
    obtain ⟨ts₁, shifts₁⟩ := run.shifts before []
    obtain ⟨n₁, yields₁⟩ := WriterCall.exists_yields p shifts₁
    have between := run.trans before
    obtain ⟨ts₂, shifts₂⟩ := between.shifts after ts₁
    obtain ⟨n₂, yields₂⟩ := WriterCall.exists_yields p shifts₂
    have refused := (paced yields₁).refuse (between.facts ts₁) sending mem
    have known := (starts.known run []).1.later (Scene.Shifts.later shifts₁)
    have same := (yields₂.paced (between.facts ts₁) known refused).same
    rwa [(counts ts₂).1, (counts_scene z p.source ts₁).1] at same
  · exact (counts ts').2 ▸ (paced yields).ends_le
  · exact (counts ts').2 ▸ (paced yields).settled facts ((mem_events rfl ts').mpr settled)

/-- A client writes an object of three chunks while a receive waits on the other side. -/
def pacedWrite : Exchange .idle :=
  let x :=
    ((ofStreams .idle [.upload]).command (.call (.stream 0 (.method .server .receive)))).advance 20
  x.command (.call (.stream 0 (.write "bucket" "key"
    ⟨false, [.chunk (.bytes [1]), .chunk (.bytes [2]), .chunk (.bytes [3])]⟩)))

/-- The other side closes the request half after it took a chunk, so that the next one is refused.
-/
def refusedWrite : Exchange .idle :=
  ((pacedWrite.advance 60).command (.call (.stream 0 (.close .requests)))).advance 1

/-- Then it closes the response half too. -/
def endedWrite : Exchange .idle :=
  ((refusedWrite.advance 60).command (.call (.stream 0 (.close .responses)))).advance 60

/-- A client opens an upload for an object of two chunks, and the handler takes none of them. -/
def untakenWrite : Exchange .idle :=
  (empty .idle).command (.call (.plugin (.write "bucket" "key"
    ⟨false, [.chunk (.bytes [1]), .chunk (.bytes [2])]⟩)))

/-- The call on the open upload settled when it had drawn two of its three chunks, and its source
ended once. So did the source of the other one, of which a single chunk was drawn. -/
theorem endedWrite_paced : pacedWrite.StartsWriting ⟨1, 0, 1⟩ ∧ refusedWrite.Refused ⟨1, 0, 1⟩ ∧
    Paced pacedWrite endedWrite ⟨1, 0, 1⟩ ∧ (∃ so, .settled 1 so ∈ endedWrite.journal) ∧
    Event.pulls endedWrite.journal 1 = 2 ∧ Event.ends endedWrite.journal 1 = 1 ∧
    Paced untakenWrite (untakenWrite.advance 60) ⟨0, 0, 1⟩ ∧
    Event.pulls (untakenWrite.advance 60).journal 1 = 1 ∧
    Event.ends (untakenWrite.advance 60).journal 1 = 1 := by
  have asked : Run (fun _ => True) (ofStreams .idle [.upload]) _ :=
    Run.refl.command (c := .call (.stream 0 (.method .server .receive))) rfl trivial 20
  have run : Run (fun _ => True) (ofStreams .idle [.upload]) pacedWrite := by
    rw [pacedWrite]
    exact asked.step (.command rfl trivial)
  have closed : Run (fun _ => True) pacedWrite refusedWrite :=
    (run_advance 60 _).command rfl trivial 1
  have later : Run (fun _ => True) pacedWrite endedWrite :=
    (closed.trans (run_advance 60 _)).command rfl trivial 60
  have starts : pacedWrite.StartsWriting ⟨1, 0, 1⟩ := startsWriting_stream rfl _ _ _
  have refused : refusedWrite.Refused ⟨1, 0, 1⟩ :=
    ⟨_, _, rfl, Wake.mem_threads (List.mem_of_getElem? (i := 0) rfl) (List.mem_singleton_self _)⟩
  have put : Run (fun _ => True) (ofStreams .idle []) untakenWrite := (Move.command rfl trivial).run
  exact ⟨starts, refused, sources_paced run starts later,
    ⟨_, List.mem_of_getElem? (i := 0) rfl⟩, rfl, rfl,
    sources_paced put (startsWriting_plugin _ _ _ _) (run_advance 60 _), rfl, rfl⟩

end Exchange

end ObjectTransfer
