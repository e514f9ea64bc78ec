import ObjectTransfer.Proofs.Accounts

/-! # After the end of a half

A half is closed once a call tells that it ended: one that offered the last message, or one that got
an error. A receive on it that begins afterwards comes to the end marker, and what needs it open
fails (`Exchange.closed_of_terminal_settled`).
-/

namespace ObjectTransfer

variable {P : Plugin} {kind : StreamKind} {h : HalfId}

namespace Entry

def Asks (side : Side) (e : Entry) : Prop :=
  e = .receives side ∨ e = .closesAndReceives ∧ side = .responses

/-- Whether a method is refused by a half that is closed. -/
def Needs (side : Side) : Entry → Prop
  | sends side' _ _ _ => side' = side
  | closesOpen side' => side' = side
  | _ => False

end Entry

/-! ## Receives on a closed half -/

/-- The stages of a receive on a half that was closed before. -/
inductive Stage.Barren (h : HalfId) : Stage → Prop where
  | closing {h'} : Barren h (.closing h' (.asking h))
  | asking : Barren h (.asking h)
  | ended : Barren h (.received h none)
  | eof : Barren h (.bound (.ok .eof))

theorem Stage.Barren.goes {s : Scene P} {st st' : Stage} (barren : st.Barren h)
    (goes : st.Goes s st')
    (waits : st = .asking h → st' ≠ .wanting h) : st'.Barren h := by
  cases barren with
  | closing =>
      cases goes with
      | shut => exact .asking
      | stay | release | gate => exact .closing
  | asking =>
      cases goes with
      | want => exact absurd rfl (waits rfl)
      | ended => exact .ended
      | stay | release | gate => exact .asking
  | ended =>
      cases goes with
      | note => exact .eof
      | stay | release | gate => exact .ended
  | eof => exact bound_goes goes ▸ .eof

namespace Entry

variable {closed : HalfId → Bool} {e : Entry}

theorem Asks.barren (asks : e.Asks h.side) :
    e.isPlain = false ∧ (e.stage closed h.stream).Barren h := by
  obtain ⟨i, side⟩ := h
  rcases asks with rfl | ⟨rfl, rfl⟩
  · exact ⟨rfl, .asking⟩
  · exact ⟨rfl, .closing⟩

theorem Needs.refused (needs : e.Needs h.side) (shut : closed h = true) :
    e.isPlain = false ∧ e.stage closed h.stream = .bound (.error (.fault .streamClosed)) := by
  obtain ⟨i, side⟩ := h
  cases e with
  | sends | closesOpen =>
      obtain rfl := needs
      exact ⟨rfl, if_pos shut⟩
  | _ => exact needs.elim

end Entry

namespace Scene

variable {s s' : Scene P} {n : Nat}

structure Barren (s : Scene P) (n : Nat) (h : HalfId) : Prop where
  threads : ∀ th ∈ s.threads, th.owner.name? = some (.inl n) →
    th.owner = .call n ∧ th.frames = [] ∧ th.stage.Barren h
  settled : ∀ so, .settled n so ∈ s.events → so = .fulfilled .eof

namespace Barren

theorem step (barren : s.Barren n h) (lt : n < s.calls) (closed : s.closed h = true)
    (step : Step s s') : s'.Barren n h where
  threads th' mem named := by
    obtain ⟨th, old, named', ⟨stage, rfl, goes, waits⟩ | ⟨ths, es, turns, inside⟩⟩ :=
      step.waits lt mem named
    · obtain ⟨owner, frames, before⟩ := barren.threads th old named'
      refine ⟨owner, frames, before.goes goes fun asks wants => ?_⟩
      rw [waits asks wants] at closed
      cases closed
    · obtain ⟨owner, frames, -⟩ := barren.threads th old named'
      cases turns with
      | settle => exact absurd inside List.not_mem_nil
      | start | handle | read | write | serve | delivered | follow => cases frames
  settled so settled := by
    rcases step.settled settled with old | ⟨o, w, mem, learns⟩
    · exact barren.settled so old
    · obtain ⟨rfl, -, stage⟩ := barren.threads _ mem (Owner.name_of_learns learns)
      cases stage
      simpa [Owner.events, Settlement.ofPromise] using learns

theorem passes (barren : s.Barren n h) (passes : Passes s s' n) : s'.Barren n h where
  threads th mem named := barren.threads th (passes.threads th mem named) named
  settled so settled := barren.settled so (passes.settled so settled)

end Barren

/-! ## Calls that begin afterwards -/

/-- Whether the calls on a half that is closed, from this number on, come to what is left to them.
-/
structure Lapsed (kind : StreamKind) (h : HalfId) (since : Nat) (s : Scene P) : Prop where
  attends : s.Attends kind h.stream
  closed : s.closed h = true
  past : since ≤ s.calls
  barren : ∀ {n role m}, .called n (.stream h.stream (.method role m)) ∈ s.events → since ≤ n →
    (m.entry kind role).Asks h.side → s.Barren n h
  due : ∀ {n role m}, .called n (.stream h.stream (.method role m)) ∈ s.events → since ≤ n →
    (m.entry kind role).Needs h.side → s.Due n (.error (.fault .streamClosed))

namespace Lapsed

variable {since : Nat}

theorem of_closed (attends : s.Attends kind h.stream) (closed : s.closed h = true) :
    s.Lapsed kind h s.calls where
  attends := attends
  closed := closed
  past := le_rfl
  barren called new := absurd (attends.numbered.below called) (Nat.not_lt.mpr new)
  due called new := absurd (attends.numbered.below called) (Nat.not_lt.mpr new)

theorem shift (lapsed : s.Lapsed kind h since) (shift : Shift s s') : s'.Lapsed kind h since := by
  have attends := lapsed.attends
  have unsettled {c} (events : s'.events = .called s.calls c :: s.events) (so) :
      .settled s.calls so ∉ s'.events := by
    intro mem
    rw [events] at mem
    exact attends.numbered.fresh.2 so ((List.mem_cons.mp mem).resolve_left (by rintro ⟨⟩))
  refine ⟨attends.shift shift, shift.later.closed h attends.lt lapsed.closed,
    lapsed.past.trans shift.later.calls, fun mem new asks => ?_, fun mem new needs => ?_⟩
  · rcases shift.streamCall mem with old | ⟨rfl, ths, begins, threads, events, -⟩
    · have barren := lapsed.barren old new asks
      have lt := attends.numbered.below old
      rcases shift.passes lt (attends.numbered.apart old) with step | passes
      · exact barren.step lt lapsed.closed step
      · exact barren.passes passes
    · refine ⟨fun th mem named => ?_, fun so mem => absurd mem (unsettled events so)⟩
      obtain ⟨frames, stage, owner⟩ := attends.first begins threads mem named
      obtain ⟨promise, barren⟩ := asks.barren
      rw [promise] at owner
      exact ⟨owner, frames, stage ▸ barren⟩
  · rcases shift.streamCall mem with old | ⟨rfl, ths, begins, threads, events, -⟩
    · have due := lapsed.due old new needs
      exact due.stir (attends.numbered.below old) (shift.stir (attends.numbered.apart old))
    · refine ⟨fun th mem named => ?_, fun so mem => absurd mem (unsettled events so)⟩
      obtain ⟨frames, stage, owner⟩ := attends.first begins threads mem named
      obtain ⟨promise, refused⟩ := needs.refused lapsed.closed
      rw [promise] at owner
      exact ⟨owner, frames, stage ▸ refused ▸ rfl⟩

theorem shifts (lapsed : s.Lapsed kind h since) (shifts : Shifts s s') :
    s'.Lapsed kind h since := by
  induction shifts with
  | refl => exact lapsed
  | tail _ shift ih => exact ih.shift shift

end Lapsed

end Scene

namespace Exchange

variable {x y : Exchange P} {kinds : List StreamKind}

/-- A half where nothing can be sent or received any more: it is closed, and what is called on it
from this number on gets the end marker or fails. -/
structure Terminated (kind : StreamKind) (h : HalfId) (since : Nat) (x : Exchange P) : Prop where
  closed : (x.half h).closed = true
  asks : ∀ {n role m}, .called n (.stream h.stream (.method role m)) ∈ x.journal → since ≤ n →
    (m.entry kind role).Asks h.side → x.Leads n (.fulfilled .eof)
  needs : ∀ {n role m}, .called n (.stream h.stream (.method role m)) ∈ x.journal → since ≤ n →
    (m.entry kind role).Needs h.side → x.Leads n (.rejected (.fault .streamClosed))

theorem Terminated.of_lapsed {since : Nat} {ts} (lapsed : (x.scene ts).Lapsed kind h since) :
    x.Terminated kind h since := by
  refine ⟨lapsed.closed, fun called new asks => ?_, fun called new needs => ?_⟩
  · have called := (mem_events rfl ts).mpr called
    have barren := lapsed.barren called new asks
    refine leads (lapsed.attends.accounted called) (fun th mem named parked => ?_) barren.settled
    obtain ⟨-, -, stage⟩ := barren.threads th mem named
    cases h : th.stage <;> rw [h] at parked stage <;> first | exact parked.elim | cases stage
  · have called := (mem_events rfl ts).mpr called
    exact leads_of_due (lapsed.attends.accounted called) (lapsed.due called new needs)

theorem ends_scene {n : Nat} {so : Settlement} (ends : Event.Ends kind h x.journal n so) (ts) :
    Event.Ends kind h (x.scene ts).events n so := by
  cases ends with
  | sent mem ends =>
      obtain ⟨m, relayed, entry⟩ := Event.entry?_of_endOn? ends
      obtain ⟨role, method, rfl, -⟩ := Event.eq_of_entry? entry
      exact .sent ((mem_events rfl ts).mpr mem) ends
  | heard mem asks =>
      obtain ⟨e, entry, -⟩ := Event.entry?_of_askOn? asks
      obtain ⟨role, method, rfl, -⟩ := Event.eq_of_entry? entry
      exact .heard ((mem_events rfl ts).mpr mem) asks

/-- However the streams are used and in whatever order their tasks go on: once a call has settled
that offered the last message of a half, or that asked for a message and got an error, the half is
closed. It stays closed, receives that begin from then on get the end marker, and what needs the
half open fails. -/
theorem closed_of_terminal_settled (run : Run (fun _ => True) (ofStreams P kinds) x)
    (known : kinds[h.stream]? = some kind) {n : Nat} {so : Settlement}
    (ends : Event.Ends kind h x.journal n so) (settled : .settled n so ∈ x.journal)
    (later : Run (fun _ => True) x y) : y.Terminated kind h x.calls := by
  obtain ⟨turns, attends⟩ := run.attends known
  have closed :=
    Scene.closed_of_ends (ends_scene ends turns) ((mem_events rfl turns).mpr settled) attends.under
  obtain ⟨turns', shifts⟩ := run.shifts later turns
  exact .of_lapsed ((Scene.Lapsed.of_closed attends closed).shifts shifts)

/-- The server of a download fails and the client receives its error. -/
def failedDownload : Exchange .idle :=
  let x := ((ofStreams .idle [.download]).command (.call
    (.stream 0 (.method .server (.fail (.fault ⟨.error, none, "boom", .undefined⟩)))))).clear 20
  (x.command (.call (.stream 0 (.method .client .receive)))).advance 20

/-- The client receives once more, and the server sends something. -/
def triedAgain : Exchange .idle :=
  let x := (failedDownload.command (.call (.stream 0 (.method .client .receive)))).clear 20
  (x.command (.call (.stream 0 (.method .server (.send (.bytes [1])))))).advance 20

/-- One gets the end marker, and the other fails. -/
theorem triedAgain_closed :
    .settled 1 (.rejected (.fault ⟨.error, none, "boom", .undefined⟩)) ∈ failedDownload.journal ∧
    (failedDownload.half ⟨0, .responses⟩).closed = true ∧
    .settled 2 (.fulfilled .eof) ∈ triedAgain.journal ∧
    .settled 3 (.rejected (.fault .streamClosed)) ∈ triedAgain.journal := by
  have failed : Run (fun _ => True) (ofStreams .idle [.download]) _ :=
    (Run.refl.step (.command (c := .call (.stream 0 (.method .server
      (.fail (.fault ⟨.error, none, "boom", .undefined⟩))))) rfl trivial)).trans (run_clear 20 _)
  have run : Run (fun _ => True) (ofStreams .idle [.download]) failedDownload :=
    (failed.step (.command (c := .call (.stream 0 (.method .client .receive))) rfl trivial)).trans
      (run_advance 20 _)
  have received : Run (fun _ => True) failedDownload _ :=
    (Run.refl.step (.command (c := .call (.stream 0 (.method .client .receive))) rfl trivial)).trans
      (run_clear 20 _)
  have later : Run (fun _ => True) failedDownload triedAgain :=
    (received.step (.command (c := .call (.stream 0 (.method .server (.send (.bytes [1]))))) rfl
      trivial)).trans (run_advance 20 _)
  have settled : .settled 1 (.rejected (.fault ⟨.error, none, "boom", .undefined⟩)) ∈
      failedDownload.journal := List.mem_of_getElem? (i := 0) rfl
  have ends : Event.Ends .download ⟨0, .responses⟩ failedDownload.journal 1
      (.rejected (.fault ⟨.error, none, "boom", .undefined⟩)) :=
    .heard (List.mem_of_getElem? (i := 5) rfl) rfl
  have quiet : triedAgain.isQuiet = true := rfl
  obtain ⟨-, asks, needs⟩ :=
    closed_of_terminal_settled run (h := ⟨0, .responses⟩) rfl ends settled later
  exact ⟨settled,
    (closed_of_terminal_settled run (h := ⟨0, .responses⟩) rfl ends settled .refl).closed,
    (asks (List.mem_of_getElem? (i := 4) rfl) (by decide) (.inl rfl)).2 quiet,
    (needs (List.mem_of_getElem? (i := 3) rfl) (by decide) rfl).2 quiet⟩

end Exchange

end ObjectTransfer
