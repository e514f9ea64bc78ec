import ObjectTransfer.Proofs.InOrder

/-! # After the last message

A message after which nothing can follow closes its half only when the call that sent it goes on,
or, if it is an error, the call that received it. Until then other messages may still pass. Once one
of the two calls has settled, none does (`Exchange.terminal_last`).
-/

namespace ObjectTransfer

variable {P : Plugin} {kind : StreamKind} {h : HalfId}

def Side.speaker : Side → Role
  | requests => .client
  | responses => .server

namespace Event

/-- The call that offers a half its last message. -/
def endOn? (kind : StreamKind) (h : HalfId) (e : Event) : Option Nat :=
  match e.entry? kind with
  | some (n, i, .sends side _ true _) => if ⟨i, side⟩ = h then some n else none
  | _ => none

/-- Whether the settlement of a call tells that a half is closed: the call offered the last message,
or it asked for a message and got an error. -/
inductive Ends (kind : StreamKind) (h : HalfId) (events : List Event) (n : Nat) : Settlement → Prop
  | sent {e so} : e ∈ events → e.endOn? kind h = some n → Ends kind h events n so
  | heard {e v} : e ∈ events → e.askOn? kind h = some n → Ends kind h events n (.rejected v)

theorem eq_of_entry? {e : Event} {n : Nat} {i : StreamId} {entry : Entry}
    (shows : e.entry? kind = some (n, i, entry)) :
    ∃ role m, e = .called n (.stream i (.method role m)) ∧ m.entry kind role = entry := by
  unfold entry? at shows
  split at shows
  · cases shows
    exact ⟨_, _, rfl, rfl⟩
  · cases shows

theorem entry?_of_endOn? {e : Event} {n : Nat} (ends : e.endOn? kind h = some n) :
    ∃ m relayed, e.entry? kind = some (n, h.stream, .sends h.side m true relayed) := by
  unfold endOn? at ends
  split at ends
  next entry =>
    split at ends
    next here =>
      cases ends
      subst here
      exact ⟨_, _, entry⟩
    next => cases ends
  next => cases ends

theorem entry?_of_askOn? {e : Event} {n : Nat} (asks : e.askOn? kind h = some n) :
    ∃ entry, e.entry? kind = some (n, h.stream, entry) ∧
      (entry = .receives h.side ∨ entry = .closesAndReceives ∧ h.side = .responses) := by
  unfold askOn? at asks
  split at asks
  next entry =>
    split at asks
    next here =>
      cases asks
      subst here
      exact ⟨_, entry, .inl rfl⟩
    next => cases asks
  next entry =>
    split at asks
    next here =>
      cases asks
      subst here
      exact ⟨_, entry, .inr ⟨rfl, rfl⟩⟩
    next => cases asks
  next => cases asks

theorem endOn?_of_offerOn? {e : Event} {n : Nat} {m : Message} (final : m.Final kind h.side.speaker)
    (offers : e.offerOn? kind h = some (n, m)) : e.endOn? kind h = some n := by
  unfold offerOn? at offers
  split at offers
  next n' i side m' terminal relayed entry =>
    split at offers
    next here =>
      cases offers
      subst here
      obtain ⟨role, method, -, sends⟩ := eq_of_entry? entry
      obtain ⟨speaks, ends, -⟩ := sends ▸ method.entry_fits kind role
      obtain rfl : role = side.speaker := by
        rw [speaks]
        cases role <;> rfl
      have : terminal = true := ends.mpr final
      simp [endOn?, entry, this]
    next => cases offers
  next => cases offers

theorem suffix_of_history {α : Type} {f : Event → Option α} {events : List Event} {k : Nat} {a : α}
    (place : (history f events)[k]? = some a) :
    ∃ e earlier, e :: earlier <:+ events ∧ f e = some a ∧ (history f earlier).length = k := by
  induction events with
  | nil => simp [history] at place
  | cons e earlier ih =>
      rw [← List.singleton_append, history_append] at place
      by_cases old : k < (history f earlier).length
      · rw [List.getElem?_append_left old] at place
        obtain ⟨e', earlier', suffix, shows⟩ := ih place
        exact ⟨e', earlier', suffix.trans (List.suffix_cons e earlier), shows⟩
      · have le := Nat.le_of_not_lt old
        rw [List.getElem?_append_right le] at place
        obtain ⟨lt, -⟩ := List.getElem?_eq_some_iff.mp place
        cases shows : f e with
        | none => simp [history, shows] at lt
        | some b =>
            have only : history f [e] = [b] := by simp [history, shows]
            rw [only, List.length_singleton] at lt
            have here : k - (history f earlier).length = 0 := by omega
            rw [only, here] at place
            exact ⟨e, earlier, List.suffix_rfl, shows.trans place, by omega⟩

end Event

namespace Scene

variable {s s' : Scene P}

/-- Whether a call is in the course of what is left to do on a stream. -/
structure Under (s : Scene P) (n : Nat) (i : StreamId) (e : Entry) : Prop where
  threads : ∀ th ∈ s.threads, th.owner.name? = some (.inl n) → th.frames = [] ∧
    e.HasStage s i th.stage
  settled : ∀ so, .settled n so ∈ s.events →
    ∃ o, e.HasStage s i (.bound o) ∧ (so = .ofPromise o ∨ so = .ofPlain o)

namespace Under

variable {n : Nat} {i : StreamId} {e : Entry}

theorem step (under : s.Under n i e) (lt : n < s.calls) (known : i < s.kinds.length)
    (step : Step s s') : s'.Under n i e where
  threads th' mem named := by
    obtain ⟨th, old, named', ⟨stage, rfl, goes⟩ | ⟨ths, es, turns, mem⟩⟩ := step.named lt mem named
    · obtain ⟨frames, hasStage⟩ := under.threads th old named'
      exact ⟨frames, (step.later.hasStage known hasStage).goes goes⟩
    · obtain ⟨frames, -⟩ := under.threads th old named'
      cases turns with
      | settle => exact absurd mem List.not_mem_nil
      | start | handle | read | write | serve | delivered | follow => cases frames
  settled so settled := by
    rcases step.settled settled with old | ⟨o, w, mem, learns⟩
    · obtain ⟨o, hasStage, same⟩ := under.settled so old
      exact ⟨o, step.later.hasStage known hasStage, same⟩
    · have named : w.name? = some (.inl n) := by
        cases w <;> simp_all [Owner.events, Owner.name?]
      obtain ⟨-, hasStage⟩ := under.threads _ mem named
      refine ⟨o, step.later.hasStage known hasStage, ?_⟩
      cases w <;> simp_all [Owner.events]

theorem entered (under : s.Under n i e) (lt : n < s.calls) (known : i < s.kinds.length)
    (later : Later s s') {th : Thread P} {event : Event} (threads : s'.threads = th ::ₘ s.threads)
    (named : th.owner.name? = some (.inl s.calls)) (events : s'.events = event :: s.events)
    (unsettled : ∀ n so, event ≠ .settled n so) : s'.Under n i e where
  threads other mem named' := by
    rw [threads, Multiset.mem_cons] at mem
    rcases mem with rfl | mem
    · rw [named] at named'
      cases named'
      omega
    · obtain ⟨frames, hasStage⟩ := under.threads other mem named'
      exact ⟨frames, later.hasStage known hasStage⟩
  settled so settled := by
    rw [events, List.mem_cons] at settled
    have old := settled.resolve_left fun same => unsettled n so same.symm
    obtain ⟨o, hasStage, same⟩ := under.settled so old
    exact ⟨o, later.hasStage known hasStage, same⟩

theorem closed_of_sent {side : Side} {m : Message} {relayed : Bool} {so : Settlement}
    (under : s.Under n i (.sends side m true relayed)) (settled : .settled n so ∈ s.events) :
    s.closed ⟨i, side⟩ = true := by
  obtain ⟨o, hasStage, -⟩ := under.settled so settled
  cases hasStage with
  | sends sends =>
      cases sends with
      | told _ closed => exact closed rfl

theorem closed_of_heard {side : Side} {v : Value} (under : s.Under n i e)
    (asks : e = .receives side ∨ e = .closesAndReceives ∧ side = .responses)
    (settled : .settled n (.rejected v) ∈ s.events) : s.closed ⟨i, side⟩ = true := by
  obtain ⟨o, hasStage, same⟩ := under.settled _ settled
  obtain ⟨v, rfl⟩ : ∃ v, o = .error v := by
    cases o with
    | error v => exact ⟨v, rfl⟩
    | ok => rcases same with same | same <;> cases same
  have receives : (Stage.bound (.error v)).Receives s ⟨i, side⟩ := by
    rcases asks with rfl | ⟨rfl, rfl⟩
    · cases hasStage with
      | receives receives => exact receives
    · cases hasStage with
      | thenReceives _ receives => exact receives
  cases receives with
  | failure _ closed => exact closed

end Under

/-- A half is closed once a call has settled that tells of its end. -/
theorem closed_of_ends {n : Nat} {so : Settlement} (ends : Event.Ends kind h s.events n so)
    (settled : .settled n so ∈ s.events)
    (under : ∀ {role m}, .called n (.stream h.stream (.method role m)) ∈ s.events →
      s.Under n h.stream (m.entry kind role)) : s.closed h = true := by
  cases ends with
  | sent mem ends =>
      obtain ⟨m, relayed, entry⟩ := Event.entry?_of_endOn? ends
      obtain ⟨role, method, rfl, sends⟩ := Event.eq_of_entry? entry
      exact (sends ▸ under mem).closed_of_sent settled
  | heard mem asks =>
      obtain ⟨e, entry, receives⟩ := Event.entry?_of_askOn? asks
      obtain ⟨role, method, rfl, rfl⟩ := Event.eq_of_entry? entry
      exact (under mem).closed_of_heard receives settled

/-! ## No message after the end of a half -/

/-- A scene of a single stream, where nothing passed on a half once it was known to have ended. -/
structure Concluding (kind : StreamKind) (s : Scene P) : Prop where
  tracked : s.Tracked kind
  under : ∀ {e n i entry}, e ∈ s.events → e.entry? kind = some (n, i, entry) →
    i = 0 ∧ s.Under n 0 entry
  lapsed : ∀ {h m earlier n so}, .handed h m :: earlier <:+ s.events → .settled n so ∈ earlier →
    ¬ Event.Ends kind h s.events n so

namespace Concluding

theorem closed (concluding : s.Concluding kind) {n : Nat} {so : Settlement}
    (ends : Event.Ends kind h s.events n so) (settled : .settled n so ∈ s.events) :
    s.closed h = true := by
  refine closed_of_ends ends settled fun called => ?_
  obtain ⟨here, under⟩ := concluding.under called rfl
  exact here.symm ▸ under

theorem lt (concluding : s.Concluding kind) {e : Event} {n : Nat} {rest : StreamId × Entry}
    (mem : e ∈ s.events) (entry : e.entry? kind = some (n, rest)) : n < s.calls := by
  obtain ⟨c, rfl⟩ := Event.called_of_entry? entry
  exact concluding.tracked.below n (Event.mem_history.mpr ⟨_, mem, rfl⟩)

theorem entered_before (step : Step s s') {e : Event} {rest : Nat × StreamId × Entry}
    (mem : e ∈ s'.events) (entry : e.entry? kind = some rest) : e ∈ s.events := by
  rcases step.events_cases with ⟨es, events, quiet, -⟩ | ⟨c, -, rfl⟩ | ⟨c, _, _, -, rfl⟩
  · rw [events, List.mem_append] at mem
    rcases mem with new | old
    · obtain ⟨n, rest⟩ := rest
      obtain ⟨c, rfl⟩ := Event.called_of_entry? entry
      exact absurd trivial (quiet _ new)
    · exact old
  · rcases List.mem_cons.mp mem with rfl | old
    · cases entry
    · exact old
  · rcases List.mem_cons.mp mem with rfl | mem
    · cases entry
    · rcases List.mem_cons.mp mem with rfl | old
      · cases entry
      · exact old

theorem ends_before (step : Step s s') {n : Nat} {so : Settlement}
    (ends : Event.Ends kind h s'.events n so) : Event.Ends kind h s.events n so := by
  cases ends with
  | sent mem ends =>
      obtain ⟨m, relayed, entry⟩ := Event.entry?_of_endOn? ends
      exact .sent (entered_before step mem entry) ends
  | heard mem asks =>
      obtain ⟨e, entry, -⟩ := Event.entry?_of_askOn? asks
      exact .heard (entered_before step mem entry) asks

theorem step (concluding : s.Concluding kind) (step : Step s s') : s'.Concluding kind where
  tracked := concluding.tracked.step step
  under mem entry := by
    have old := entered_before step mem entry
    obtain ⟨rfl, under⟩ := concluding.under old entry
    exact ⟨rfl, under.step (concluding.lt old entry) concluding.tracked.kinds.length_le step⟩
  lapsed := by
    intro h m earlier n so passes settled ends
    have before := ends_before step ends
    obtain ⟨es, events, calm | ⟨h', m', fs, w, terminal, fs', w', rfl, isOpen, -⟩⟩ := step.news
    · rw [events] at passes
      exact concluding.lapsed (Event.suffix_of_not_mem (calm h m) passes) settled before
    · rw [events, List.singleton_append] at passes
      rcases List.suffix_cons_iff.mp passes with now | old
      · -- The half is still open, so none of the calls that end it has settled.
        cases now
        rw [concluding.closed before settled] at isOpen
        cases isOpen
      · exact concluding.lapsed old settled before

theorem steps (concluding : s.Concluding kind) (steps : Steps s s') : s'.Concluding kind := by
  induction steps with
  | refl => exact concluding
  | tail _ step ih => exact ih.step step

end Concluding

end Scene

namespace Exchange

variable {x : Exchange P}

/-- The calls before keep their course when another one begins. -/
theorem concluding_beginning (concluding : (x.scene []).Concluding kind) (c : StreamCall)
    {st : Stage} {owner : Owner} (named : owner.name? = some (.inl x.calls))
    (hasStage : ∀ {n i entry}, Event.entry? kind (.called x.calls (.stream 0 c)) =
      some (n, i, entry) →
      n = x.calls ∧ i = 0 ∧ entry.HasStage (x.beginning c st owner) 0 st) :
    (x.beginning c st owner).Concluding kind := by
  have owned := concluding.tracked.owned
  have known : 0 < (x.scene []).kinds.length := concluding.tracked.kinds.length_le
  have threads : (x.beginning c st owner).threads = ⟨st, [], owner⟩ ::ₘ (x.scene []).threads := rfl
  have events : (x.beginning c st owner).events =
      .called x.calls (.stream 0 c) :: (x.scene []).events := rfl
  have later : Scene.Later (x.scene []) (x.beginning c st owner) :=
    { Scene.Later.refl (x.scene []) with events := List.suffix_cons _ _, calls := Nat.le_succ _ }
  refine ⟨beginning_tracked concluding.tracked c st owner named, fun mem entry => ?_, ?_⟩
  · rw [events, List.mem_cons] at mem
    rcases mem with rfl | old
    · obtain ⟨rfl, rfl, hasStage⟩ := hasStage entry
      refine ⟨rfl, fun th mem named' => ?_, fun so settled => ?_⟩
      · rw [threads, Multiset.mem_cons] at mem
        rcases mem with rfl | old
        · exact ⟨rfl, hasStage⟩
        · exact absurd (owned.calls (Scene.mem_names.mpr ⟨th, old, named'⟩)) (Nat.lt_irrefl _)
      · rw [events, List.mem_cons] at settled
        exact absurd (owned.settled (settled.resolve_left nofun)).2 (Nat.lt_irrefl _)
    · obtain ⟨rfl, under⟩ := concluding.under old entry
      exact ⟨rfl, under.entered (concluding.lt old entry) known later threads named events nofun⟩
  · intro h m earlier n so passes settled ends
    rw [events] at passes
    have old := (List.suffix_cons_iff.mp passes).resolve_left nofun
    have settled' := old.subset (List.mem_cons_of_mem _ settled)
    have lt : n < x.calls := (owned.settled settled').2
    apply concluding.lapsed old settled
    -- The call that begins has not settled before.
    have before {e rest} (mem : e ∈ (x.beginning c st owner).events)
        (entry : e.entry? kind = some (n, rest)) : e ∈ (x.scene []).events := by
      rw [events, List.mem_cons] at mem
      rcases mem with rfl | old
      · obtain ⟨rfl, -⟩ := hasStage entry
        exact absurd lt (Nat.lt_irrefl _)
      · exact old
    cases ends with
    | sent mem ends =>
        obtain ⟨m, relayed, entry⟩ := Event.entry?_of_endOn? ends
        exact .sent (before mem entry) ends
    | heard mem asks =>
        obtain ⟨e, entry, -⟩ := Event.entry?_of_askOn? asks
        exact .heard (before mem entry) asks

theorem Orderly.concluding_command (orderly : x.Orderly kind)
    (concluding : (x.scene []).Concluding kind) {c : Command} (allowed : c.OnStream) :
    ((x.command c).scene []).Concluding kind := by
  unfold Command.OnStream at allowed
  split at allowed
  · subst allowed
    refine (concluding_beginning concluding _ (x.nextOwner_name _) ?_).steps
      (orderly.enter_steps _ _)
    rintro _ _ _ ⟨⟩
    exact ⟨rfl, rfl, Entry.hasStage_start _⟩
  · subst allowed
    exact (concluding_beginning concluding _ rfl (by rintro _ _ _ ⟨⟩)).steps (x.close_steps _)
  · exact allowed.elim

theorem concluding_ofStream (kind : StreamKind) : ((ofStream kind).scene []).Concluding kind := by
  refine ⟨(Orderly.ofStream kind).tracked, nofun, ?_⟩
  intro h m earlier n so passes
  cases List.suffix_nil.mp passes

theorem Run.concluding {x : Exchange .idle} (run : Run Command.OnStream (ofStream kind) x) :
    (x.scene []).Concluding kind := by
  induction run with
  | refl => exact concluding_ofStream kind
  | step before move ih =>
      have orderly := Run.orderly before
      cases move with
      | work agenda => exact ih.steps (orderly.work_steps agenda)
      | resume quiet lt =>
          rw [scene_resume quiet lt]
          exact ih
      | command quiet allowed => exact orderly.concluding_command ih allowed

/-- No message passes once the call that sent a message that ends its half has settled, nor, if that
message is an error, once the call that received it has. So another message is obtained after it
only by calls that overlap with both. -/
theorem terminal_last {x : Exchange .idle}
    (run : Run Command.OnStream (ofStream kind) x) {j k : Nat} {m m' : Message}
    (first : (x.passed h)[j]? = some m) (final : m.Final kind h.side.speaker)
    (second : (x.passed h)[k]? = some m') :
    ∃ n n' earlier, (Event.accepted kind h x.journal)[j]? = some (n, m) ∧
      (Event.accepted kind h x.journal)[k]? = some (n', m') ∧
      .handed h m' :: earlier <:+ x.journal ∧
      (Event.history (·.handedOn? h) earlier).length = k ∧
      (∀ so, .settled n so ∉ earlier) ∧
      ∀ f, m = .failure f → ∃ r, (Event.asked kind h x.journal)[j]? = some r ∧
        ∀ so, .settled r so ∉ earlier := by
  have concluding := run.concluding
  have order := inOrder run h
  have sender {j : Nat} {m : Message} (place : (x.passed h)[j]? = some m) :
      ∃ n, (Event.accepted kind h x.journal)[j]? = some (n, m) := by
    obtain ⟨rest, accepted⟩ := order.passed
    have there : ((Event.accepted kind h x.journal).map (·.2))[j]? = some m := by
      rw [← accepted, List.getElem?_append_left (List.getElem?_eq_some_iff.mp place).1, place]
    rw [List.getElem?_map, Option.map_eq_some_iff] at there
    obtain ⟨⟨n, _⟩, there, rfl⟩ := there
    exact ⟨n, there⟩
  obtain ⟨n, offers⟩ := sender first
  obtain ⟨n', offers'⟩ := sender second
  obtain ⟨e, earlier, suffix, hands, count⟩ := Event.suffix_of_history second
  obtain rfl := Event.handedOn?_eq_some.mp hands
  have passes : .handed h m' :: earlier.filter (!·.isLogged) <:+ (x.scene []).events :=
    List.IsSuffix.filter (fun e : Event => !e.isLogged) suffix
  have unsettled {n so} (ends : Event.Ends kind h (x.scene []).events n so) :
      .settled n so ∉ earlier := by
    intro settled
    exact concluding.lapsed passes (List.mem_filter.mpr ⟨settled, rfl⟩) ends
  refine ⟨n, n', earlier, offers, offers', suffix, count, fun so => ?_, fun f failure => ?_⟩
  · obtain ⟨e, inside, offer⟩ := Event.mem_accepted (List.mem_of_getElem? offers)
    obtain ⟨c, rfl⟩ := Event.called_of_offerOn? offer
    exact unsettled (.sent ((mem_events rfl []).mpr inside) (Event.endOn?_of_offerOn? final offer))
  · have within := (List.getElem?_eq_some_iff.mp first).1
    have asks : j < (Event.asked kind h x.journal).length := within.trans_le order.enough
    refine ⟨_, List.getElem?_eq_getElem asks, fun so settled => ?_⟩
    have learned := order.received (List.getElem?_eq_getElem asks)
      (suffix.subset (List.mem_cons_of_mem _ settled))
    obtain ⟨e, inside, ask⟩ := Event.mem_history.mp (List.getElem_mem asks)
    obtain ⟨c, rfl⟩ := Event.called_of_askOn? ask
    rcases learned with ⟨m, place, rfl⟩ | ⟨beyond, -⟩
    · obtain rfl : m = .failure f := by simpa [first, failure] using place.symm
      exact unsettled (.heard ((mem_events rfl []).mpr inside) ask) settled
    · omega

/-- A server responds twice to an upload before the client asks for the response. -/
def twiceResponded : Exchange .idle :=
  (((ofStream .upload).command
    (.call (.stream 0 (.method .server (.respond (.text "first")))))).command
    (.call (.stream 0 (.method .server (.respond (.text "second")))))).advance 20

/-- The client asks for the response twice at once. -/
def twiceAnswered : Exchange .idle :=
  ((((twiceResponded.command (.call (.stream 0 (.method .client .awaitResponse)))).clear 20).command
    (.call (.stream 0 (.method .client .awaitResponse)))).clear 20).advance 20

/-- The client gets both results. The second one passes before the call that sent the first settles.
-/
theorem twiceAnswered_lapses : twiceAnswered.isQuiet = true ∧
    .settled 2 (.fulfilled (.text "first")) ∈ twiceAnswered.journal ∧
    .settled 3 (.fulfilled (.text "second")) ∈ twiceAnswered.journal ∧
    ∃ earlier, .handed ⟨0, .responses⟩ (.payload (.text "second")) :: earlier <:+
      twiceAnswered.journal ∧ ∀ so, .settled 0 so ∉ earlier := by
  have responded : Run Command.OnStream (ofStream .upload) twiceResponded :=
    ((Run.refl.step (.command (by rfl) (by rfl))).step (.command (by rfl) (by rfl))).trans
      (run_advance 20 _)
  have asked : Run Command.OnStream (ofStream .upload)
      ((twiceResponded.command (.call (.stream 0 (.method .client .awaitResponse)))).clear 20) :=
    (responded.step (.command (by rfl) (by rfl))).trans (run_clear 20 _)
  have run : Run Command.OnStream (ofStream .upload) twiceAnswered :=
    ((asked.step (.command (by rfl) (by rfl))).trans (run_clear 20 _)).trans (run_advance 20 _)
  obtain ⟨n, n', earlier, sender, -, passes, -, unsettled, -⟩ :=
    terminal_last run (h := ⟨0, .responses⟩) (j := 0) (k := 1) rfl ⟨rfl, rfl⟩ rfl
  cases sender
  exact ⟨rfl, List.mem_of_getElem? (i := 4) rfl, List.mem_of_getElem? (i := 2) rfl, earlier, passes,
    unsettled⟩

end Exchange

end ObjectTransfer
