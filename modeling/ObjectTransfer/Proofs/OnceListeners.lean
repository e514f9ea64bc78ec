import ObjectTransfer.Proofs.Hearings
import ObjectTransfer.Proofs.Registrations
import ObjectTransfer.Proofs.Shifts

/-! # Listeners for the next emission

A plain emission takes the listeners for the next emission off before it calls them. So whatever is
subscribed, withdrawn and emitted, also by listeners that are called, plain emissions call such a
listener at most as often as it was registered. An awaited emission takes nobody off and calls each
registration once more (`Exchange.once_heard`).
-/

namespace ObjectTransfer

variable {P : Plugin}

def Event.onceFor? (tag : String) : Event → Option String
  | called _ (.emitter event (.subscribeOnce l)) => if l.tag = tag then some event else none
  | _ => none

/-- The event of which a call is an awaited emission. -/
def Event.awaits? : Event → Option String
  | called _ (.emitter event (.emitAndWait _)) => some event
  | _ => none

/-- Whether a call registers no listener of a tag, unless for a next emission. -/
def Call.Spares (tag : String) : Call → Prop
  | emitter _ (.subscribe l) => l.tag ≠ tag
  | stream _ (.whenClosed l) => l.tag ≠ tag
  | _ => True

instance (tag : String) (c : Call) : Decidable (c.Spares tag) :=
  match c with
  | .emitter _ (.subscribe l) => inferInstanceAs (Decidable (l.tag ≠ tag))
  | .stream _ (.whenClosed l) => inferInstanceAs (Decidable (l.tag ≠ tag))
  | .emitter _ (.subscribeOnce _) | .emitter _ (.unsubscribe _) | .emitter _ (.emit _) |
    .emitter _ (.emitAndWait _) => isTrue trivial
  | .stream _ (.method _ _) | .stream _ (.close _) | .stream _ .identified | .stream _ .read |
    .stream _ (.write _ _ _) => isTrue trivial
  | .plugin _ => isTrue trivial

namespace Exchange

variable {x y : Exchange P} {tag : String} {c : Nat}

/-- How many calls registered a listener of a tag for a next emission. -/
def onces (x : Exchange P) (tag : String) : Nat := x.journal.countP fun e => (e.onceFor? tag).isSome

def hasOnce (x : Exchange P) (tag event : String) : Bool :=
  x.journal.any (·.onceFor? tag == some event)

/-- How many awaited emissions there were of events for which a listener of a tag was registered. -/
def awaitedOnces (x : Exchange P) (tag : String) : Nat :=
  x.journal.countP fun e => e.awaits?.any (x.hasOnce tag)

def waitingOnces (x : Exchange P) (tag : String) : Nat :=
  x.emitter.total fun r => r.once.listeners.countP (·.shows tag)

/-- Whether listeners of a tag were and will be called no more often than they may, after so many
more calls. -/
structure OnceLimited (tag : String) (c : Nat) (x : Exchange P) : Prop where
  tidy : x.emitter.Tidy
  lasting : ∀ r ∈ x.emitter.events, ∀ l ∈ r.2.lasting.listeners, l.shows tag = false
  once : ∀ r ∈ x.emitter.events, ∀ l ∈ r.2.once.listeners, l.shows tag = true →
    x.hasOnce tag r.1 = true
  hooks : ∀ h, ∀ hook ∈ (x.half h).hooks, hook.shows tag = false
  countdowns : ∀ entry ∈ x.countdowns, entry.2.shows tag = false
  waiting : x.waitingOnces tag ≤ x.onces tag
  bounded : x.hearings tag + x.due (·.shows tag) + x.waitingOnces tag + c ≤
    x.onces tag * (1 + x.awaitedOnces tag)

theorem hasOnce_mono {event : String} (more : x.journal ⊆ y.journal)
    (has : x.hasOnce tag event = true) : y.hasOnce tag event = true := by
  obtain ⟨e, mem, once⟩ := List.any_eq_true.mp has
  exact List.any_eq_true.mpr ⟨e, more mem, once⟩

theorem awaitedOnces_le (tag : String) (more : x.journal <:+ y.journal) :
    x.awaitedOnces tag ≤ y.awaitedOnces tag := by
  refine Nat.le_trans (List.countP_mono_left fun e mem awaited => ?_) more.sublist.countP_le
  cases awaits : e.awaits? with
  | none => simp [awaits] at awaited
  | some event =>
      rw [awaits] at awaited
      exact hasOnce_mono more.subset awaited

theorem Discreet.onces (discreet : Discreet x y) : y.onces tag = x.onces tag :=
  discreet.countP_journal fun e quiet => by
    cases e <;> first | exact quiet.elim | rfl

namespace OnceLimited

theorem mono (limited : OnceLimited tag c x) {c' : Nat} (le : c' ≤ c) : OnceLimited tag c' x :=
  { limited with bounded := Nat.le_trans (Nat.add_le_add_left le _) limited.bounded }

theorem of_same (limited : OnceLimited tag c x) {c' : Nat} (emitter : y.emitter = x.emitter)
    (countdowns : y.countdowns = x.countdowns)
    (hooks : ∀ h, ∀ hook ∈ (y.half h).hooks, hook ∈ (x.half h).hooks)
    (grown : x.journal <:+ y.journal) (onces : y.onces tag = x.onces tag)
    (called : y.hearings tag + y.due (·.shows tag) + c' ≤
      x.hearings tag + x.due (·.shows tag) + c) : OnceLimited tag c' y where
  tidy := emitter ▸ limited.tidy
  lasting := emitter ▸ limited.lasting
  once r mem l listens shows :=
    hasOnce_mono grown.subset (limited.once r (emitter ▸ mem) l listens shows)
  hooks h hook mem := limited.hooks h hook (hooks h hook mem)
  countdowns := countdowns ▸ limited.countdowns
  waiting := by
    rw [onces, waitingOnces, emitter]
    exact limited.waiting
  bounded := by
    have before := limited.bounded
    have awaited :=
      Nat.mul_le_mul_left (x.onces tag) (Nat.add_le_add_left (awaitedOnces_le tag grown) 1)
    rw [onces, waitingOnces, emitter]
    rw [waitingOnces] at before
    omega

theorem discreet (limited : OnceLimited tag c x) (discreet : Discreet x y) : OnceLimited tag c y :=
  limited.of_same discreet.emitter discreet.countdowns (fun h _ mem => discreet.hooks h ▸ mem)
    discreet.suffix discreet.onces (by rw [discreet.hearings, discreet.due])

theorem push {w : Work P} (limited : OnceLimited tag (w.hooks.countP (·.shows tag) + c) x) :
    OnceLimited tag c (x.push w) := by
  refine limited.of_same rfl rfl (fun _ _ => id) List.suffix_rfl rfl ?_
  rw [due_push]
  change x.hearings tag + _ + c ≤ _
  omega

theorem wake {w : Wake P} (limited : OnceLimited tag (w.hooks.countP (·.shows tag) + c) x) :
    OnceLimited tag c (x.wake w) := by
  refine limited.of_same rfl rfl (fun _ _ => id) List.suffix_rfl rfl ?_
  rw [due_wake]
  change x.hearings tag + _ + c ≤ _
  omega

theorem taken (limited : OnceLimited tag c x) {w : Work P} {rest : List (Work P)}
    (agenda : x.agenda = w :: rest) :
    OnceLimited tag (w.hooks.countP (·.shows tag) + c) { x with agenda := rest } := by
  refine limited.of_same rfl rfl (fun _ _ => id) List.suffix_rfl rfl ?_
  rw [due_taken agenda]
  change x.hearings tag + _ + _ ≤ _
  omega

theorem record (limited : OnceLimited tag c x) {e : Event} (registers : e.onceFor? tag = none)
    {c' : Nat} (called : c' + (if e.hears tag then 1 else 0) ≤ c) :
    OnceLimited tag c' (x.record e) := by
  refine limited.of_same rfl rfl (fun _ _ => id) (List.suffix_cons _ _) ?_ ?_
  · simp [onces, Exchange.record, registers]
  · simp only [hearings, due, Exchange.record, List.countP_cons]
    omega

/-! ## Closures -/

theorem modifyHalf (limited : OnceLimited tag c x) (h : HalfId) {f : Half P → Half P}
    (spares : ∀ hook ∈ (f (x.half h)).hooks, hook.shows tag = false) :
    OnceLimited tag c (x.modifyHalf h f) := by
  by_cases has : x.Has h
  · refine { limited with hooks := fun h' hook mem => ?_ }
    by_cases here : h' = h
    · subst here
      rw [half_modifyHalf has] at mem
      exact spares hook mem
    · rw [half_modifyHalf_of_ne here] at mem
      exact limited.hooks h' hook mem
  · rwa [modifyHalf_of_not_has has]

theorem announce {h : HalfId} {next : Work P}
    (limited : OnceLimited tag (next.hooks.countP (·.shows tag) + c) x) :
    OnceLimited tag c (x.announce h next) := by
  have pushed := limited.push
  have spared : ((x.push next).half h).hooks.countP (·.shows tag) = 0 :=
    List.countP_eq_zero.mpr fun hook mem => by simp [limited.hooks h hook mem]
  simp only [Exchange.announce]
  split
  · exact pushed
  · refine OnceLimited.push (w := .emit _) ?_
    rwa [Work.hooks, closureEmission, spared, Nat.zero_add]

theorem closeHalf {h : HalfId} (guarded : (x.half h).Guarded) {next : Work P}
    (limited : OnceLimited tag (next.hooks.countP (·.shows tag) + c) x) :
    OnceLimited tag c (x.closeHalf h next) := by
  by_cases isClosed : (x.half h).closed = true
  · rw [closeHalf_of_closed isClosed]
    exact limited.push
  · rw [closeHalf_of_open guarded (by simpa using isClosed)]
    have marked :=
      (limited.modifyHalf h (f := fun half => { half with closed := true })
        (limited.hooks h)).record
      (e := .closed h) rfl (Nat.le_refl _)
    exact announce (marked.discreet (.closeChannel h _ _ _))

theorem attach (limited : OnceLimited tag c x) (h : HalfId) {hook : Hook}
    (spares : hook.shows tag = false) : OnceLimited tag c (x.attach h hook) := by
  simp only [Exchange.attach]
  split
  · refine wake ?_
    simpa [Wake.hooks, spares] using limited
  · refine limited.modifyHalf h fun other mem => ?_
    rcases List.mem_append.mp mem with old | new
    · exact limited.hooks h other old
    · rwa [List.mem_singleton.mp new]

theorem whenClosed (limited : OnceLimited tag c x) (i : StreamId) {l : Listener}
    (spares : l.shows tag = false) : OnceLimited tag c (x.whenClosed i l) := by
  simp only [Exchange.whenClosed]
  split
  · exact limited.attach _ spares
  · have counted : OnceLimited tag c { x with countdowns := x.countdowns ++ [(2, l)] } := by
      refine { limited with countdowns := fun entry mem => ?_ }
      rcases List.mem_append.mp mem with old | new
      · exact limited.countdowns entry old
      · rwa [List.mem_singleton.mp new]
    exact (counted.attach _ rfl).attach _ rfl

theorem openStream (limited : OnceLimited tag c x) (kind : StreamKind) :
    OnceLimited tag c (x.openStream (.fresh P kind)) := by
  refine { limited with hooks := fun h hook mem => ?_ }
  by_cases new : h.stream = x.streams.length
  · rw [half_openStream_new new] at mem
    have none : ((Stream.fresh P kind).half h.side).hooks = [] := by
      cases kind <;> cases h.side <;> rfl
    exact absurd (none ▸ mem) List.not_mem_nil
  · rw [half_openStream_of_ne new] at mem
    exact limited.hooks h hook mem

theorem openCall (limited : OnceLimited tag c x) (n : Nat) (kind : StreamKind) :
    OnceLimited tag c (x.openCall n kind) := by
  have recorded :=
    (limited.openStream kind).record (e := .opened n x.nextStream) rfl (Nat.le_refl _)
  have listed :
      OnceLimited tag c { (x.openStream (.fresh P kind)).record (.opened n x.nextStream) with
      active := x.active ++ [x.nextStream] } := { recorded with }
  exact listed.whenClosed _ rfl

/-! ## The emitter -/

theorem lasting_registrations (limited : OnceLimited tag c x) (event : String) :
    ∀ l ∈ (x.emitter.registrations event).lasting.listeners, l.shows tag = false := by
  rcases x.emitter.registrations_mem event with mem | none
  · exact limited.lasting _ mem
  · rw [none]
    exact List.forall_mem_nil _

theorem once_registrations (limited : OnceLimited tag c x) (event : String) :
    ∀ l ∈ (x.emitter.registrations event).once.listeners, l.shows tag = true →
    x.hasOnce tag event = true := by
  rcases x.emitter.registrations_mem event with mem | none
  · exact limited.once _ mem
  · rw [none]
    exact List.forall_mem_nil _

theorem modify (limited : OnceLimited tag c x) {e : Emitter} (tidy : e.Tidy)
    (events : e.events = x.emitter.events) (event : String) {f : Registrations → Registrations}
    (lasting : ∀ l ∈ (f (x.emitter.registrations event)).lasting.listeners,
      l ∈ (x.emitter.registrations event).lasting.listeners ∨ l.shows tag = false)
    (once : ∀ l ∈ (f (x.emitter.registrations event)).once.listeners,
      l ∈ (x.emitter.registrations event).once.listeners ∨
      (l.shows tag = true → x.hasOnce tag event = true))
    (waiting : x.waitingOnces tag +
      (f (x.emitter.registrations event)).once.listeners.countP (·.shows tag) ≤
      x.onces tag + (x.emitter.registrations event).once.listeners.countP (·.shows tag))
    {c' : Nat}
      (bounded : (f (x.emitter.registrations event)).once.listeners.countP (·.shows tag) + c' ≤
      (x.emitter.registrations event).once.listeners.countP (·.shows tag) + c) :
    OnceLimited tag c' { x with emitter := e.modify event f } := by
  have same : e.registrations event = x.emitter.registrations event := by
    simp only [Emitter.registrations, events]
  have total : (e.modify event f).total (fun r => r.once.listeners.countP (·.shows tag)) +
      (x.emitter.registrations event).once.listeners.countP (·.shows tag) =
      x.waitingOnces tag +
      (f (x.emitter.registrations event)).once.listeners.countP (·.shows tag) := by
    have changed :=
      Emitter.total_modify (m := fun r => r.once.listeners.countP (·.shows tag)) tidy event rfl f
    rw [same] at changed
    rw [changed, waitingOnces, Emitter.total, Emitter.total, events]
  refine ⟨tidy.modify event f, ?_, ?_, limited.hooks, limited.countdowns, ?_, ?_⟩
  · intro r mem l listens
    rcases Emitter.mem_modify tidy mem with old | rfl
    · exact limited.lasting r (events ▸ old) l listens
    · rw [same] at listens
      exact (lasting l listens).elim (limited.lasting_registrations event l) id
  · intro r mem l listens shows
    rcases Emitter.mem_modify tidy mem with old | rfl
    · exact limited.once r (events ▸ old) l listens shows
    · rw [same] at listens
      exact (once l listens).elim (fun old => limited.once_registrations event l old shows)
        fun new => new shows
  · change (e.modify event f).total _ ≤ x.onces tag
    omega
  · have before := limited.bounded
    change x.hearings tag + x.due (·.shows tag) + (e.modify event f).total _ + c' ≤
      x.onces tag * (1 + x.awaitedOnces tag)
    omega

theorem subscribe (limited : OnceLimited tag c x) (event : String) {l : Listener}
    (spares : l.tag ≠ tag) :
    OnceLimited tag c { x with emitter := x.emitter.subscribe event l } := by
  obtain ⟨tidy, tagged⟩ := limited.tidy.identify l
  have events := x.emitter.events_identify l
  refine limited.modify (f := fun r => { r with lasting := r.lasting.add (x.emitter.identify l).2 })
    tidy events event
    (fun k listens => ?_) (fun k listens => .inl listens) (Nat.add_le_add_right limited.waiting _)
    (Nat.le_refl _)
  refine (List.mem_append.mp listens).imp_right fun new => ?_
  obtain rfl := List.mem_singleton.mp new
  exact Bool.eq_false_iff.mpr fun shows => spares (tagged ▸ Listener.tag_of_shows shows)

theorem unsubscribe (limited : OnceLimited tag c x) (event : String) (l : Listener) :
    OnceLimited tag c { x with emitter := x.emitter.unsubscribe event l } := by
  obtain ⟨tidy, -⟩ := limited.tidy.identify l
  have events := x.emitter.events_identify l
  have fewer :=
    Waiting.withdraw_sublist (x.emitter.identify l).2.tag (x.emitter.registrations event).once
  have less := fewer.countP_le (p := fun l : Listener => l.shows tag)
  have waiting := limited.waiting
  refine limited.modify (f := fun r => ⟨r.lasting.withdraw (x.emitter.identify l).2.tag,
    r.once.withdraw (x.emitter.identify l).2.tag⟩) tidy events event (fun k listens => .inl ?_)
    (fun k listens => .inl (fewer.subset listens)) ?_ ?_
  · exact Lasting.withdraw_subset _ _ listens
  · dsimp only
    omega
  · dsimp only
    omega

/-- The listeners that wait for a next emission are taken off before they are called. -/
theorem clearOnce (limited : OnceLimited tag c x) (event : String) :
    OnceLimited tag ((x.emitter.registrations event).once.listeners.countP (·.shows tag) + c)
      { x with emitter := x.emitter.clearOnce event } := by
  have waiting := limited.waiting
  refine limited.modify limited.tidy rfl event (fun k listens => .inl listens)
    (fun k listens => .inl ?_) ?_ ?_
  · exact absurd listens List.not_mem_nil
  · simp only [Waiting.listeners, List.countP_nil]
    omega
  · simp [Waiting.listeners]

/-- With a registration for the next emission the listener may be called once more. -/
theorem recordOnce (limited : OnceLimited tag c x) (n : Nat) (event : String) {l : Listener}
    (here : l.tag = tag) :
    OnceLimited tag (c + 1) (x.record (.called n (.emitter event (.subscribeOnce l)))) ∧
      (x.record (.called n (.emitter event (.subscribeOnce l)))).hasOnce tag event = true ∧
      (x.record (.called n (.emitter event (.subscribeOnce l)))).onces tag = x.onces tag + 1 := by
  have called : Event.onceFor? tag (.called n (.emitter event (.subscribeOnce l))) = some event :=
    if_pos here
  have grown : x.journal <:+ (x.record (.called n (.emitter event (.subscribeOnce l)))).journal :=
    List.suffix_cons _ _
  have onces : (x.record (.called n (.emitter event (.subscribeOnce l)))).onces tag =
      x.onces tag + 1 := by
    simp [Exchange.onces, Exchange.record, called]
  refine ⟨?_, List.any_eq_true.mpr ⟨_, List.mem_cons_self, by simp [called]⟩, onces⟩
  refine { limited with once := fun r mem k listens shows => ?_, waiting := ?_, bounded := ?_ }
  · exact hasOnce_mono grown.subset (limited.once r mem k listens shows)
  · rw [onces]
    exact Nat.le_succ_of_le limited.waiting
  · have before := limited.bounded
    have waiting := limited.waiting
    have more :=
      Nat.mul_le_mul_left (x.onces tag + 1) (Nat.add_le_add_left (awaitedOnces_le tag grown) 1)
    have hearings : (x.record (.called n (.emitter event (.subscribeOnce l)))).hearings tag =
        x.hearings tag := by
      simp [Exchange.hearings, Exchange.record, Event.hears]
    rw [onces, hearings]
    change x.hearings tag + x.due (·.shows tag) + x.waitingOnces tag + (c + 1) ≤ _
    rw [Nat.add_mul, Nat.one_mul] at more
    omega

theorem subscribeOnce (limited : OnceLimited tag c x) (n : Nat) (event : String) (l : Listener) :
    OnceLimited tag c { x.record (.called n (.emitter event (.subscribeOnce l))) with
      emitter := x.emitter.subscribeOnce event l } := by
  obtain ⟨tidy, tagged⟩ := limited.tidy.identify l
  have events := x.emitter.events_identify l
  have noted : Emitter.Tidy { (x.emitter.identify l).1 with usesOnce := true } :=
    ⟨tidy.keys, tidy.known⟩
  by_cases here : l.tag = tag
  · obtain ⟨recorded, has, onces⟩ := limited.recordOnce n event here
    have one : ((x.emitter.registrations event).once.add (x.emitter.identify l).2).listeners.countP
        (·.shows tag) ≤
          (x.emitter.registrations event).once.listeners.countP (·.shows tag) + 1 := by
      rw [Waiting.listeners_add, List.countP_append]
      exact Nat.add_le_add_left (List.countP_le_length (l := [(x.emitter.identify l).2])) _
    refine recorded.modify (f := fun r => { r with once := r.once.add (x.emitter.identify l).2 })
      noted events event (fun k listens => .inl listens) (fun k listens => .inr fun _ => has) ?_ ?_
    · change x.waitingOnces tag + _ ≤ _
      rw [onces, Nat.add_assoc, Nat.add_comm 1]
      exact Nat.add_le_add limited.waiting one
    · rw [Nat.add_comm c 1, ← Nat.add_assoc]
      exact Nat.add_le_add_right one c
  · have called : Event.onceFor? tag (.called n (.emitter event (.subscribeOnce l))) =
        none := if_neg here
    have recorded : OnceLimited tag c (x.record (.called n (.emitter event (.subscribeOnce l)))) :=
      limited.record called (Nat.le_refl _)
    have other : (x.emitter.identify l).2.shows tag = false :=
      Bool.eq_false_iff.mpr fun shows => here (tagged ▸ Listener.tag_of_shows shows)
    have none : ((x.emitter.registrations event).once.add (x.emitter.identify l).2).listeners.countP
        (·.shows tag) = (x.emitter.registrations event).once.listeners.countP (·.shows tag) := by
      simp [Waiting.listeners_add, other]
    refine recorded.modify (f := fun r => { r with once := r.once.add (x.emitter.identify l).2 })
      noted events event (fun k listens => .inl listens) (fun k listens => ?_) ?_ ?_
    · rw [Waiting.listeners_add] at listens
      refine (List.mem_append.mp listens).imp_right fun new => ?_
      obtain rfl := List.mem_singleton.mp new
      exact fun shows => absurd shows (by simp [other])
    · exact Nat.add_le_add recorded.waiting none.le
    · exact Nat.add_le_add_right none.le _

/-- An awaited emission calls every listener that waits for a next emission once more. -/
theorem awaited (limited : OnceLimited tag c x) (n : Nat) (event : String) (v : Value) :
    OnceLimited tag ((x.emitter.listeners event).countP (·.shows tag) + c)
      (x.record (.called n (.emitter event (.emitAndWait v)))) := by
  have lasting : (x.emitter.registrations event).lasting.listeners.countP (·.shows tag) = 0 :=
    List.countP_eq_zero.mpr fun l mem => by simp [limited.lasting_registrations event l mem]
  have once : (x.emitter.registrations event).once.listeners.countP (·.shows tag) ≤ x.onces tag :=
    (Emitter.le_total limited.tidy event
      (m := fun r => r.once.listeners.countP (·.shows tag)) rfl).trans
      limited.waiting
  rw [Emitter.listeners_eq, List.countP_append, lasting, Nat.zero_add]
  by_cases none : (x.emitter.registrations event).once.listeners.countP (·.shows tag) = 0
  · rw [none, Nat.zero_add]
    exact limited.record rfl (Nat.le_refl _)
  · obtain ⟨l, mem, shows⟩ := List.countP_pos_iff.mp (Nat.pos_of_ne_zero none)
    have has := limited.once_registrations event l mem shows
    have grown : x.journal <:+ (x.record (.called n (.emitter event (.emitAndWait v)))).journal :=
      List.suffix_cons _ _
    have more : x.awaitedOnces tag + 1 ≤
        (x.record (.called n (.emitter event (.emitAndWait v)))).awaitedOnces tag := by
      have again : Option.any ((x.record (.called n (.emitter event (.emitAndWait v)))).hasOnce tag)
          (Event.awaits? (.called n (.emitter event (.emitAndWait v)))) = true :=
        hasOnce_mono grown.subset has
      have old : x.awaitedOnces tag ≤ x.journal.countP fun e => e.awaits?.any
          ((x.record (.called n (.emitter event (.emitAndWait v)))).hasOnce tag) := by
        refine List.countP_mono_left fun e _ awaited => ?_
        cases awaits : e.awaits? with
        | none => simp [awaits] at awaited
        | some event =>
            rw [awaits] at awaited
            exact hasOnce_mono grown.subset awaited
      rw [awaitedOnces]
      change _ ≤ (List.countP _ (_ :: x.journal))
      rw [List.countP_cons, if_pos again]
      exact Nat.succ_le_succ old
    have before := limited.bounded
    have times := Nat.mul_le_mul_left (x.onces tag) (Nat.add_le_add_left more 1)
    rw [← Nat.add_assoc, Nat.mul_succ] at times
    refine { limited with once := fun r mem k listens shows => ?_, bounded := ?_ }
    · exact hasOnce_mono grown.subset (limited.once r mem k listens shows)
    · change x.hearings tag + x.due (·.shows tag) + x.waitingOnces tag + _ ≤ x.onces tag * _
      omega

/-! ## Steps -/

theorem startEmitter (limited : OnceLimited tag c x) (n : Nat) (event : String) (call : EmitterCall)
    (spares : (Call.emitter event call).Spares tag) :
    OnceLimited tag c ((x.record (.called n (.emitter event call))).startEmitter n event call) := by
  have recorded (none : Event.onceFor? tag (.called n (.emitter event call)) = none) :
      OnceLimited tag c (x.record (.called n (.emitter event call))) :=
        limited.record none (Nat.le_refl _)
  cases call with
  | subscribe l => exact ((recorded rfl).subscribe event spares).discreet (.answer _ _ _)
  | subscribeOnce l => exact (limited.subscribeOnce n event l).discreet (.answer _ _ _)
  | unsubscribe l => exact ((recorded rfl).unsubscribe event l).discreet (.answer _ _ _)
  | emit v =>
      have spared :
          ((x.emitter.registrations event).lasting.audible.map Hook.direct).countP (·.shows tag) =
            0 := by
        rw [List.countP_map]
        refine List.countP_eq_zero.mpr fun l mem => ?_
        simp [Hook.shows, limited.lasting_registrations event l (Lasting.audible_subset _ mem)]
      simp only [Exchange.startEmitter]
      split
      · refine push (w := .emit _) ?_
        change OnceLimited tag
          (((x.emitter.registrations event).lasting.audible.map Hook.direct).countP
          (·.shows tag) + c) _
        rw [spared, Nat.zero_add]
        exact recorded rfl
      · exact (recorded rfl).discreet (.answer _ _ _)
  | emitAndWait v =>
      rw [startEmitter_emitAndWait]
      refine push (w := .emit _) ?_
      change OnceLimited tag
          (((x.emitter.listeners event).map Hook.direct).countP (·.shows tag) + c) _
      rw [List.countP_map]
      exact limited.awaited n event v

theorem startStream (limited : OnceLimited tag c x) (n : Nat) (i : StreamId) (call : StreamCall)
    (spares : (Call.stream i call).Spares tag) : OnceLimited tag c (x.startStream n i call) := by
  cases call with
  | method role m => exact limited.discreet (.enterEntry _ _ _ x)
  | close side => exact limited.discreet (.push x trivial)
  | whenClosed l =>
      have spared : l.shows tag = false :=
        Bool.eq_false_iff.mpr fun shows => spares (Listener.tag_of_shows shows)
      exact (limited.whenClosed i spared).discreet (.answer _ _ _)
  | identified => exact limited.discreet (.answer _ _ x)
  | read => exact limited.discreet (.push x trivial)
  | write =>
      have counted : Discreet x x.nextSource := { Discreet.refl x with }
      exact limited.discreet (counted.thenPush trivial)

theorem startPlugin (limited : OnceLimited tag c x) (n : Nat) (call : PluginCall) :
    OnceLimited tag c (x.startPlugin n call) := by
  have kept {y : Exchange P} (name : String) (i : StreamId) : Discreet y (y.keep name i) :=
    { Discreet.refl y with }
  have served {y : Exchange P} {w : Work P} (discreet : w.Discreet) (i : StreamId)
      (invocation : Invocation) :
      Discreet y ((y.push w).push (.serve i invocation)) :=
        (Discreet.push y discreet).thenPush trivial
  cases call with
  | read => exact (limited.openCall n .download).discreet (served (by trivial) _ _)
  | write =>
      have counted : Discreet x x.nextSource := { Discreet.refl x with }
      exact ((limited.discreet counted).openCall n .upload).discreet (served (by trivial) _ _)
  | openDownload | openUpload =>
      exact ((limited.openCall n _).discreet (kept _ _)).discreet (served (by trivial) _ _)
  | method name m =>
      simp only [Exchange.startPlugin]
      split
      · exact limited.discreet (.enterEntry _ _ _ x)
      · exact limited.discreet (.settle _ _ x)
  | readKept name =>
      simp only [Exchange.startPlugin]
      split
      · exact limited.discreet (.push x trivial)
      · exact limited.discreet (.settle _ _ x)
  | holds | keys => exact limited.discreet (.answer _ _ x)

theorem command (limited : OnceLimited tag c x) {command : Command}
    (spares : ∀ call, command = .call call → call.Spares tag) :
    OnceLimited tag c (x.command command) := by
  cases command with
  | settle name o =>
      have due := due_settleGate (p := Hook.shows tag) name o x
      rw [Exchange.command]
      rcases settleGate_cases name o x with same | ⟨-, waiting, woken, after, -, -⟩
      · rw [same]
        exact limited
      · rw [after] at due ⊢
        exact limited.of_same rfl rfl (fun _ _ => id) List.suffix_rfl rfl
          (by rw [due]; exact Nat.le_refl _)
  | call call =>
      have counted : OnceLimited tag c { x with calls := x.calls + 1 } := { limited with }
      cases call with
      | stream i call =>
          exact (counted.record (e := .called x.calls (.stream i call)) rfl
            (Nat.le_refl _)).startStream _ i call (spares _ rfl)
      | plugin call =>
          exact (counted.record (e := .called x.calls (.plugin call)) rfl
            (Nat.le_refl _)).startPlugin _ call
      | emitter event call => exact counted.startEmitter _ event call (spares _ rfl)

theorem startListener {l : Listener}
    (limited : OnceLimited tag ((if l.shows tag then 1 else 0) + c) x)
    (argument : Value) : OnceLimited tag c (x.startListener l argument).1 := by
  cases l with
  | script t actions =>
      refine limited.record rfl ?_
      rw [Nat.add_comm]
      exact Nat.le_refl _
  | forget i => exact { limited.mono (Nat.le_add_left c _) with }

theorem startHook {hook : Hook}
    (limited : OnceLimited tag ((if hook.shows tag then 1 else 0) + c) x)
    (argument : Value) : OnceLimited tag c (x.startHook hook argument).1 := by
  cases hook with
  | direct l => exact limited.startListener argument
  | half n =>
      replace limited : OnceLimited tag c x := limited.mono (Nat.le_add_left c _)
      simp only [Exchange.startHook]
      split
      · exact limited
      next stillOpen l found =>
        have spared := limited.countdowns _ (List.mem_of_getElem? found)
        have counted :
            OnceLimited tag c { x with countdowns := x.countdowns.set n (stillOpen - 1, l) } := by
          refine { limited with countdowns := fun entry mem => ?_ }
          rcases List.mem_or_eq_of_mem_set mem with old | rfl
          · exact limited.countdowns entry old
          · exact spared
        split
        · refine startListener ?_ _
          simpa [spared] using counted
        · exact counted

theorem completed {e : Emission (Work P)} {emits : Nat → Prop} (sober : e.purpose.Sober emits)
    (limited : OnceLimited tag c x) : OnceLimited tag c (x.completed e) := by
  cases purpose : e.purpose with
  | closure | awaited =>
      simp only [Exchange.completed, purpose]
      exact limited.discreet (.awaitReplies _ _ x)
  | lateClosure =>
      simp only [Exchange.completed, purpose, lateWitness]
      split
      · exact limited.discreet (.wake x rfl)
      · exact limited.discreet (.awaitReplies _ _ x)
  | plainLasting n event =>
      rw [completed_plainLasting purpose]
      refine push (w := .emit _) ?_
      change OnceLimited tag
        (((x.emitter.registrations event).once.listeners.map Hook.direct).countP
        (·.shows tag) + c) _
      rw [List.countP_map]
      exact limited.clearOnce event
  | plainLast =>
      simp only [Exchange.completed, purpose]
      exact limited.discreet (.answer _ _ x)
  | closing =>
      rw [purpose] at sober
      exact sober.elim

theorem broken {e : Emission (Work P)} {emits : Nat → Prop}
    (sober : e.purpose.Sober emits) (v : Value)
    (limited : OnceLimited tag c x) : OnceLimited tag c (x.broken e v) := by
  simp only [Exchange.broken]
  cases purpose : e.purpose with
  | closure | lateClosure | awaited => exact limited.discreet (.wake x rfl)
  | plainLasting | plainLast => exact limited.discreet (.settle _ _ x)
  | closing =>
      rw [purpose] at sober
      exact sober.elim

theorem emission {e : Emission (Work P)} {emits : Nat → Prop} (sober : e.purpose.Sober emits)
    (limited : OnceLimited tag (e.rest.countP (·.shows tag) + c) x)
    (spares : ∀ call actions reply, e.current = some (.performs (.call call) :: actions, reply) →
      call.Spares tag) : OnceLimited tag c (x.emission e) := by
  have fewer : OnceLimited tag c x := limited.mono (Nat.le_add_left c _)
  have goesOn (current replies) :
      OnceLimited tag c (x.push (.emit ⟨current, replies, e.rest, e.argument, e.purpose⟩)) :=
        push (w := .emit _) limited
  unfold Exchange.emission
  split
  · exact fewer.broken sober _
  · exact goesOn _ _
  · exact goesOn _ _
  next command actions reply current =>
    refine (goesOn _ _).command fun call same => spares call actions reply ?_
    rw [current, same]
  · exact goesOn _ _
  · cases rest : e.rest with
    | nil => exact fewer.completed sober
    | cons hook hooks =>
        refine push (w := .emit _) (startHook ?_ _)
        rw [rest, List.countP_cons] at limited
        refine limited.mono ?_
        simp only [Work.hooks]
        omega

theorem work {w : Work P} {emits : Nat → Prop} (guarded : ∀ h, (x.half h).Guarded)
    (sober : w.Sober emits) (limited : OnceLimited tag (w.hooks.countP (·.shows tag) + c) x)
    (spares : ∀ e call actions reply, w = .emit e →
      e.current = some (.performs (.call call) :: actions, reply) → call.Spares tag) :
    OnceLimited tag c (x.work w) := by
  have fewer : OnceLimited tag c x := limited.mono (Nat.le_add_left c _)
  have discreet (discreet : w.Discreet) (closes : ∀ h next, w ≠ .close h next) :
      OnceLimited tag c (x.work w) :=
    fewer.discreet (.work discreet closes x)
  cases w with
  | run w =>
      cases w with
      | late hook label turns =>
          cases turns with
          | zero => exact push (w := .emit _) limited
          | succ turns => exact wake (w := .late hook label turns) limited
      | sent | received | returned => exact discreet trivial (by simp)
  | close h next =>
      have closing : OnceLimited tag (next.hooks.countP (·.shows tag) + c) x := limited
      exact closing.closeHalf (guarded h)
  | emit e => exact limited.emission sober fun call actions reply => spares e call actions reply rfl
  | give | receive | enter | serve | deliver => exact discreet trivial (by simp)

theorem move {allowed : Command → Prop} (limited : OnceLimited tag c x) {past : List Event}
    (sound : Sound past x) (sober : x.Sober) (move : Move allowed x y)
    (only : ∀ n call, .called n call ∈ y.journal → call.Spares tag) : OnceLimited tag c y := by
  cases move with
  | @work w rest agenda =>
      have taken := limited.taken agenda
      refine taken.work (fun h => (sound.aligned h).guarded)
        (sober.work w (agenda ▸ List.mem_cons_self)) ?_
      rintro e call actions reply rfl current
      exact only x.calls call (called_of_performs current _)
  | @resume place quiet lt =>
      have due := due_resume (p := Hook.shows tag) quiet lt
      unfold resume at due ⊢
      rw [List.getElem?_eq_getElem lt] at due ⊢
      exact limited.of_same rfl rfl (fun _ _ => id) List.suffix_rfl rfl
        (by rw [due]; exact Nat.le_refl _)
  | @command command quiet =>
      refine limited.command fun call same => only x.calls call ?_
      subst same
      exact mem_called call x

end OnceLimited

/-! ## Runs -/

variable {kinds : List StreamKind}

theorem limited_ofStreams (P : Plugin) (kinds : List StreamKind) (tag : String) :
    OnceLimited tag 0 (ofStreams P kinds) := by
  induction kinds using List.reverseRecOn with
  | nil =>
      have nothing {p : String × Registrations → Prop} (r) (mem : r ∈ (empty P).emitter.events) :
          p r :=
        absurd mem List.not_mem_nil
      refine ⟨⟨List.nodup_nil, List.forall_mem_nil _⟩, nothing, nothing, fun h => ?_,
        List.forall_mem_nil _, Nat.le_refl _, Nat.zero_le _⟩
      exact List.forall_mem_nil _
  | append_singleton kinds kind ih =>
      rw [ofStreams_concat]
      exact ih.openStream kind

theorem Run.limited (run : Run (fun _ => True) (ofStreams P kinds) x)
    (only : ∀ n call, .called n call ∈ x.journal → call.Spares tag) : OnceLimited tag 0 x := by
  induction run with
  | refl => exact limited_ofStreams P kinds tag
  | @step y z before move ih =>
      have sound := Run.sound before (sound_ofStreams P kinds)
      exact (ih fun n call called => only n call (move.suffix.subset called)).move sound
        before.sober move only

/-- However an emitter is used, by listeners as well: a listener that is only registered for next
emissions is called at most once for each registration by all plain emissions, and at most once more
for each registration by each awaited emission of an event for which it was registered. -/
theorem once_heard (run : Run (fun _ => True) (ofStreams P kinds) x)
    (only : ∀ n call, .called n call ∈ x.journal → call.Spares tag) :
    x.hearings tag ≤ x.onces tag * (1 + x.awaitedOnces tag) := by
  have bounded := (run.limited only).bounded
  omega

/-- A listener for the next emission is registered, and the event is emitted twice with waiting and
twice without. -/
def repeated : Exchange .idle :=
  let x := ((ofStreams .idle []).command
    (.call (.emitter "e" (.subscribeOnce (.script "a" []))))).advance 9
  let x := (x.command (.call (.emitter "e" (.emitAndWait .undefined)))).advance 9
  let x := (x.command (.call (.emitter "e" (.emitAndWait .undefined)))).advance 9
  let x := (x.command (.call (.emitter "e" (.emit .undefined)))).advance 9
  (x.command (.call (.emitter "e" (.emit .undefined)))).advance 9

/-- The awaited emissions leave the listener registered, and only the first plain one calls it. -/
theorem repeated_heard : repeated.hearings "a" = 3 ∧ repeated.onces "a" = 1 ∧
    repeated.awaitedOnces "a" = 2 ∧
    repeated.hearings "a" ≤ repeated.onces "a" * (1 + repeated.awaitedOnces "a") := by
  have registered : Run (fun _ => True) (ofStreams .idle []) _ :=
    Run.refl.command (c := .call (.emitter "e" (.subscribeOnce (.script "a" [])))) rfl trivial 9
  have awaited :=
    (registered.command rfl trivial (c := .call (.emitter "e" (.emitAndWait .undefined))) 9).command
      rfl trivial (c := .call (.emitter "e" (.emitAndWait .undefined))) 9
  have emitted : Run (fun _ => True) (ofStreams .idle []) repeated :=
    (awaited.command rfl trivial (c := .call (.emitter "e" (.emit .undefined))) 9).command
      rfl trivial (c := .call (.emitter "e" (.emit .undefined))) 9
  refine ⟨rfl, rfl, rfl, once_heard emitted fun n call called => ?_⟩
  have spares : repeated.journal.all (·.keepsTo fun call => decide (call.Spares "a")) = true := rfl
  exact of_decide_eq_true (called_of_all spares called)

end Exchange

end ObjectTransfer
