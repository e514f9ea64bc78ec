import ObjectTransfer.Proofs.Performances
import ObjectTransfer.Proofs.Progress

/-! # What calls on the client of a download do

The thread of a call does what the call asks for (`Scene.Reachable.performs`). So the client of a
download closes it only if a call abandons it or a failure passed (`Scene.Reachable.closer_down`),
and if the calls that receive from it follow one another, at most one thread receives
(`Scene.Reachable.solitary_down`).
-/

namespace ObjectTransfer

variable {P : Plugin} {s s' : Scene P} {i : StreamId} {h : HalfId} {th : Thread P}

/-! ## Calls -/

inductive Thread.Performs (s : Scene P) : PluginCall → Thread P → Prop where
  | method {name i m st w} : i < s.kinds.length → st.InCall s i .client m →
    Performs s (.method name m) ⟨st, [], w⟩
  | reading {p i r st w} : p.Reads → i < s.kinds.length → st.InCall s i .client .receive →
    Performs s p ⟨st, [.reading i r], w⟩
  | writing {bucket key source i k v st w} :
    Performs s (.write bucket key source) ⟨st, [.writing i k v], w⟩
  | done {p o w} : Performs s p ⟨.bound o, [], w⟩

namespace Thread.Performs

variable {p : PluginCall}

theorem step (performs : th.Performs s p) (later : Scene.Later s s') {th' : Thread P}
    (becomes : (∃ stage, th' = { th with stage } ∧ th.stage.Goes s' stage) ∨
      ∃ ths es, th.Turns s ths es ∧ th' ∈ ths) : th'.Performs s' p := by
  rcases becomes with ⟨stage, rfl, goes⟩ | ⟨ths, es, turns, mem⟩
  · cases performs with
    | method lt inCall => exact .method (later.lt lt) ((later.inCall lt inCall).goes goes)
    | reading reads lt inCall =>
        exact .reading reads (later.lt lt) ((later.inCall lt inCall).goes goes)
    | writing => exact .writing
    | done =>
        cases Stage.bound_goes goes
        exact .done
  · cases performs with
    | method | done =>
        cases turns
        exact absurd mem List.not_mem_nil
    | @reading p i r st w reads lt =>
        cases turns with
        | @read o =>
            obtain rfl := List.mem_singleton.mp mem
            cases r.resume o with
            | again r => exact .reading reads (later.lt lt) (.inl rfl)
            | done o => exact .done
    | writing =>
        cases turns with
        | @write o i k v =>
            obtain rfl := List.mem_singleton.mp mem
            simp only [Writing.Turn.thread]
            split
            · exact .writing
            · exact .writing
            · exact .writing
            · exact .done

end Thread.Performs

theorem Method.closesOpen_download {m : Method} {side : Side}
    (entry : m.entry .download .client = .closesOpen side) : m = .halfClose := by
  cases m <;> first | rfl | cases entry

namespace Scene

theorem Orderly.performs (orderly : s.Orderly) (p : PluginCall)
    (kinds : s.kinds.length ≤ s'.kinds.length)
    (opens : ∀ kind invocation, opens? p = some (kind, invocation) →
      s.kinds.length < s'.kinds.length) : (s.firstThread p).Performs s' p := by
  have known {name : String} {i : StreamId} (kept : s.keptClient? name = some i) :
      i < s'.kinds.length := by
    obtain ⟨c, mem, rfl⟩ := keptClient?_mem kept
    exact Nat.lt_of_lt_of_le (orderly.clients c mem) kinds
  cases p with
  | read => exact .reading trivial (opens _ _ rfl) (.inl rfl)
  | write => exact .writing
  | openDownload | openUpload | holds | keys => exact .done
  | method name m =>
      simp only [firstThread]
      cases kept : s.keptClient? name with
      | none => exact .done
      | some i => exact .method (known kept) (.inl rfl)
  | readKept name =>
      simp only [firstThread]
      cases kept : s.keptClient? name with
      | none => exact .done
      | some i => exact .reading trivial (known kept) (.inl rfl)

theorem Reachable.performs (reachable : s.Reachable) {n : Nat} {p : PluginCall}
    (called : .called n (.plugin p) ∈ s.events) (mem : th ∈ s.threads)
    (named : th.owner.name? = some (.inl n)) : th.Performs s p := by
  induction reachable generalizing th with
  | refl => exact absurd called List.not_mem_nil
  | @tail s s' steps step ih =>
      have reachable : s.Reachable := steps
      have reached : s'.Reachable := steps.tail step
      -- A call that began before goes on, and one that begins now has one thread.
      have old (before : .called n (.plugin p) ∈ s.events) : th.Performs s' p := by
        obtain ⟨first, inside, named', becomes⟩ :=
          step.named (reachable.orderly.called before) mem named
        exact (ih before inside named').step step.later becomes
      have new (began : n = s.calls) (first : s.firstThread p ∈ s'.threads)
          (performs : (s.firstThread p).Performs s' p) : th.Performs s' p := by
        have same := began ▸ s.firstThread_owner p
        obtain rfl := reached.owned.eq mem first named same
        exact performs
      rcases step.events_cases with
        ⟨es, events, quiet, -⟩ | ⟨c, opens, rfl⟩ | ⟨c, kind, invocation, opens, rfl⟩
      · rw [events, List.mem_append] at called
        exact old (called.resolve_left fun mem => quiet _ mem trivial)
      · rcases List.mem_cons.mp called with same | before
        · cases same
          exact new rfl (Multiset.mem_cons_self _ _)
            (reachable.orderly.performs p le_rfl fun _ _ opens' => nomatch opens.symm.trans opens')
        · exact old before
      · have more : s.kinds.length < (s.opened c kind invocation).kinds.length := by
          simp [Scene.opened, openStream, begin]
        rcases List.mem_cons.mp called with same | called
        · cases same
        rcases List.mem_cons.mp called with same | before
        · cases same
          exact new rfl (Multiset.mem_cons_of_mem (Multiset.mem_cons_self _ _))
            (reachable.orderly.performs p more.le fun _ _ _ => more)
        · exact old before

/-! ## Who closes a download -/

/-- Whoever leads to the closing of a download is its service or a handler beside it, or a call
abandons the download, or a failure passed. -/
theorem Reachable.closer_down (reachable : s.Reachable) (kind : s.kindOf i = .download)
    (mem : th ∈ s.threads) (closes : th.stage.Closes ⟨i, .responses⟩) :
    th.owner = .service i ∨ th.Beside i ∨ Event.Abandoned s.events i ∨
      ∃ f, .handed ⟨i, .responses⟩ (.failure f) ∈ s.events := by
  have proper := reachable.cast th mem
  obtain ⟨lt, owner | beside | ⟨n, m', named, uses, -⟩⟩ := proper.closer closes
  · exact .inl owner
  · exact .inr (.inl beside)
  refine .inr (.inr ?_)
  obtain ⟨p, called⟩ := uses.called
  cases reachable.performs called mem named with
  | @method name j m st w lt inCall =>
      obtain rfl : i = j := inCall.closes closes
      rcases inCall with rfl | hasStage
      · exact closes.elim
      have fits := m.entry_fits (s.kindOf i) .client
      have half := @Method.closesOpen_download m
      rw [kind] at hasStage fits
      generalize m.entry .download .client = e at hasStage fits half
      cases hasStage with
      | receives receives =>
          obtain rfl : _ = Side.responses := fits
          exact .inr (receives.closes closes).2
      | closingOpen =>
          obtain rfl := half rfl
          exact .inl (.intro called uses)
      | sends sends =>
          obtain ⟨rfl, -⟩ := fits
          cases sends with
          | closing => exact closes.elim nofun False.elim
          | _ => exact closes.elim
      | closing => exact nomatch fits.2
      | closingFirst => exact closes.elim nofun False.elim
      | thenReceives _ receives => exact .inr (receives.closes closes).2
      | _ => exact closes.elim
  | @reading p j r st w _ _ inCall =>
      obtain rfl : i = j := inCall.closes closes
      rcases inCall with rfl | hasStage
      · exact closes.elim
      · rw [kind] at hasStage
        cases hasStage with
        | receives receives => exact .inr (receives.closes closes).2
  | writing =>
      cases proper with
      | writer _ upload _ _ waits =>
          obtain ⟨m, inCall⟩ := (waits.calls fun rests => rests.not_closes closes).inCall
          obtain rfl := inCall.closes closes
          exact nomatch upload.symm.trans kind
  | done => exact closes.elim

/-- A download is closed by its service, or by a call that abandons it, or after a failure. -/
theorem Step.closes_down (step : Step s s') (reachable : s.Reachable) (unforked : s.Unforked i)
    (lt : i < s.kinds.length) (kind : s.kindOf i = .download)
    (isOpen : s.closed ⟨i, .responses⟩ = false) (closed : s'.closed ⟨i, .responses⟩ = true) :
    (∃ th ∈ s.threads, th.owner = .service i ∧ ∃ next, th.stage = .closing ⟨i, .responses⟩ next) ∨
      Event.Abandoned s.events i ∨ ∃ f, .handed ⟨i, .responses⟩ (.failure f) ∈ s.events := by
  obtain ⟨th, mem, next, stage⟩ := step.shuts lt isOpen closed
  have closes : th.stage.Closes ⟨i, .responses⟩ := stage ▸ .inl rfl
  rcases reachable.closer_down kind mem closes with owner | beside | why
  · exact .inl ⟨th, mem, owner, next, stage⟩
  · exact absurd beside (reachable.not_beside unforked th mem)
  · exact .inr why

end Scene

/-! ## Receives in turn -/

theorem exists_suffix {α : Type} {a b : α} {l : List α} (mem : a ∈ l) (mem' : b ∈ l)
    (differ : a ≠ b) : ∃ rest, a :: rest <:+ l ∧ b ∈ rest ∨ b :: rest <:+ l ∧ a ∈ rest := by
  induction l with
  | nil => exact absurd mem List.not_mem_nil
  | cons first l ih =>
      rcases List.mem_cons.mp mem with rfl | old
      · exact ⟨l, .inl ⟨List.suffix_rfl, (List.mem_cons.mp mem').resolve_left differ.symm⟩⟩
      rcases List.mem_cons.mp mem' with rfl | old'
      · exact ⟨l, .inr ⟨List.suffix_rfl, old⟩⟩
      obtain ⟨rest, ⟨suffix, inside⟩ | ⟨suffix, inside⟩⟩ := ih old old'
      · exact ⟨rest, .inl ⟨suffix.trans (List.suffix_cons _ _), inside⟩⟩
      · exact ⟨rest, .inr ⟨suffix.trans (List.suffix_cons _ _), inside⟩⟩

inductive PluginCall.Listens : PluginCall → Prop where
  | reads {p : PluginCall} : p.Reads → Listens p
  | receive {name} : Listens (.method name .receive)
  | receiveRaw {name} : Listens (.method name .receiveRaw)

/-- Whether each call that received from the client of a stream settled before the next one began.
-/
def Event.InTurn (events : List Event) (i : StreamId) : Prop :=
  ∀ n p n' p' earlier, .called n' (.plugin p') :: earlier <:+ events → p'.Listens →
    Uses events n' i →
    .called n (.plugin p) ∈ earlier → p.Listens → Uses events n i → ∃ so, .settled n so ∈ earlier

theorem Event.InTurn.before {events events' : List Event} (inTurn : InTurn events' i)
    (later : events <:+ events') : InTurn events i :=
  fun n p n' p' earlier suffix listens uses called listens' uses' =>
    inTurn n p n' p' earlier (suffix.trans later) listens (uses.later later) called listens'
      (uses'.later later)

namespace Scene

theorem Reachable.listens (reachable : s.Reachable) (kind : s.kindOf i = .download)
    (mem : th ∈ s.threads) (hears : th.stage.Hears ⟨i, .responses⟩) :
      ∃ n p, th.owner.name? = some (.inl n) ∧
      Event.Uses s.events n i ∧ .called n (.plugin p) ∈ s.events ∧ p.Listens := by
  obtain ⟨-, role, m', side, calls⟩ := reachable.cast.hears mem hears
  cases role with
  | server => exact nomatch side
  | client =>
      obtain ⟨n, named, uses⟩ := calls.uses
      obtain ⟨p, called⟩ := uses.called
      refine ⟨n, p, named, uses, called, ?_⟩
      cases reachable.performs called mem named with
      | @method name j m st w lt inCall =>
          obtain ⟨same, -⟩ := inCall.hears hears.stage
          obtain rfl : i = j := congrArg HalfId.stream same
          rcases inCall with rfl | hasStage
          · exact hears.elim
          rw [kind] at hasStage
          cases m with
          | receive => exact .receive
          | receiveRaw => exact .receiveRaw
          | _ => cases hasStage <;> exact hears.elim
      | reading reads => exact .reads reads
      | writing =>
          cases calls with
          | writer frames =>
              cases frames
              cases reachable.cast _ mem with
              | writer _ upload => exact nomatch upload.symm.trans kind
          | reader frames | caller frames => exact nomatch frames
      | done => exact hears.elim

/-- If the calls that receive from the client of a download follow one another, at most one
receives. -/
theorem Reachable.solitary_down (reachable : s.Reachable) (kind : s.kindOf i = .download)
    (inTurn : Event.InTurn s.events i) : s.Solitary ⟨i, .responses⟩ := by
  intro th rest threads hears other inside hears'
  have mem : th ∈ s.threads := threads ▸ Multiset.mem_cons_self _ _
  have mem' : other ∈ s.threads := threads ▸ Multiset.mem_cons_of_mem inside
  obtain ⟨n, p, named, uses, called, listens⟩ := reachable.listens kind mem hears
  obtain ⟨n', p', named', uses', called', listens'⟩ := reachable.listens kind mem' hears'
  -- Neither call has settled.
  have unsettled {th : Thread P} {n so} (mem : th ∈ s.threads)
      (named : th.owner.name? = some (.inl n))
      (settled : .settled n so ∈ s.events) : False :=
    (reachable.owned.settled settled).1 (mem_names.mpr ⟨th, mem, named⟩)
  have differ : Event.called n (.plugin p) ≠ .called n' (.plugin p') := by
    intro same
    cases same
    have pair : th ::ₘ {other} ≤ s.threads := by
      rw [threads, Multiset.cons_le_cons_iff]
      exact Multiset.singleton_le.mpr inside
    exact reachable.owned.unique pair named named'
  obtain ⟨earlier, ⟨suffix, before⟩ | ⟨suffix, before⟩⟩ := exists_suffix called called' differ
  · obtain ⟨so, settled⟩ := inTurn n' p' n p earlier suffix listens uses before listens' uses'
    exact unsettled mem' named' (suffix.subset (List.mem_cons_of_mem _ settled))
  · obtain ⟨so, settled⟩ := inTurn n p n' p' earlier suffix listens' uses' before listens uses
    exact unsettled mem named (suffix.subset (List.mem_cons_of_mem _ settled))

/-- If the calls that receive from the client of a download follow one another, they come to the
messages that passed, in order, and then to the end marker. -/
theorem Reachable.ledger_down (reachable : s.Reachable) (lt : i < s.kinds.length)
    (kind : s.kindOf i = .download) (inTurn : Event.InTurn s.events i) :
    s.Ledger ⟨i, .responses⟩ True := by
  refine reachable.ledger lt (fun t reached steps => ?_) (fun _ _ _ _ _ _ _ => trivial)
  have later := Steps.later steps
  by_cases before : i < t.kinds.length
  · exact reached.solitary_down ((later.kindOf before).symm.trans kind) (inTurn.before later.events)
  · intro th rest threads hears
    exact absurd (reached.cast.hears (threads ▸ Multiset.mem_cons_self _ _) hears).1 before

end Scene

end ObjectTransfer
