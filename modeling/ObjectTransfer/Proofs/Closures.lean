import ObjectTransfer.Proofs.Owners

/-! # Halves that will be closed

A half is doomed when it is closed or when some thread is about to close it, whatever else happens.
A message after which nothing can follow dooms its half (`Scene.Sealed`), and a service that ends
dooms both halves of its stream (`Scene.Attended`).
-/

namespace ObjectTransfer

variable {P : Plugin}

/-! ## What the methods of a party do -/

def Role.hears : Role → Side
  | client => .responses
  | server => .requests

def Role.speaks : Role → Side
  | client => .requests
  | server => .responses

def Message.Final (kind : StreamKind) (role : Role) : Message → Prop
  | payload _ => kind = .upload ∧ role = .server
  | failure _ => True

/-- What the entry of a method of a party can leave to do. -/
def Entry.Fits (kind : StreamKind) (role : Role) : Entry → Prop
  | receives side => side = role.hears
  | sends side m terminal _ =>
    side = role.speaks ∧ (terminal = true ↔ m.Final kind role) ∧
      ∀ v, m = .payload v → v.isNothing = false
  | closes side => side = .responses ∧ role = .server
  | closesOpen _ => role = .client
  | closesAndReceives => role = .client
  | _ => True

theorem Entry.fits_ofPayload {kind role side parameter terminal relayed v}
    (speaks : side = role.speaks) (final : terminal = true ↔ kind = .upload ∧ role = .server) :
    (Entry.ofPayload side parameter terminal relayed v).Fits kind role := by
  simp only [ofPayload]
  split
  · trivial
  next something =>
    refine ⟨speaks, final, fun v' same => ?_⟩
    cases same
    simpa using something

theorem Entry.fits_ofError {kind role side complaint relayed v} (speaks : side = role.speaks) :
    (Entry.ofError side complaint relayed v).Fits kind role := by
  cases v with
  | fault f => exact ⟨speaks, ⟨fun _ => trivial, fun _ => rfl⟩, nofun⟩
  | _ => trivial

theorem Entry.fits_ofRaw {kind role message payload failure textless}
    (payloads : ∀ v, (payload v).Fits kind role) (failures : ∀ v, (failure v).Fits kind role)
    (others : ∀ f, (textless f).Fits kind role) :
    (Entry.ofRaw message payload failure textless).Fits kind role := by
  simp only [ofRaw]
  split
  · trivial
  · split
    · exact payloads _
    · exact failures _
    · split
      · trivial
      · exact others _

theorem Method.entry_fits (kind : StreamKind) (role : Role) (m : Method) :
    (m.entry kind role).Fits kind role := by
  cases kind <;> cases role <;> cases m <;>
    first
    | trivial
    | rfl
    | exact ⟨rfl, rfl⟩
    | exact Entry.fits_ofPayload rfl (by simp)
    | exact Entry.fits_ofError rfl
    | exact Entry.fits_ofRaw (fun _ => Entry.fits_ofPayload rfl (by simp))
        (fun _ => Entry.fits_ofError rfl) fun _ => trivial

/-! ## Who is in a call -/

/-- How a thread comes to call a method of a party of a stream. -/
inductive Thread.Calls (s : Scene P) (th : Thread P) : StreamId → Role → Method → Prop where
  | service {i m} : th.owner = .service i → Calls s th i .server m
  | beside {i m state} : th.frames = [.handling i state] → th.owner = .nobody →
    Calls s th i .server m
  | reader {i n r} : th.frames = [.reading i r] → th.owner = .call n → Event.Uses s.events n i →
    Calls s th i .client .receive
  | writer {i k w n m} : th.frames = [.writing i k w] → th.owner = .call n →
    .opened n i ∈ s.events → Event.Uses s.events n i → Calls s th i .client m
  | caller {i n m} : th.frames = [] → th.owner = .call n ∨ th.owner = .plain n →
    Event.Borrows s.events n i → Calls s th i .client m

def Stage.IsCalling : Stage → Prop
  | entering _ _ _ => True
  | asking _ => True
  | wanting _ => True
  | offering _ _ _ => True
  | received _ _ => True
  | _ => False

variable {s s' : Scene P} {i : StreamId} {h : HalfId} {th : Thread P}

theorem Thread.Proper.calls (proper : th.Proper s) (calling : th.stage.IsCalling) :
    ∃ i role m, i < s.kinds.length ∧ th.Calls s i role m ∧ th.stage.InCall s i role m := by
  have resting {st : Stage} (rests : st.Rests) : ¬ st.IsCalling := by
    cases rests <;> exact id
  cases proper with
  | starting | served | finished => exact calling.elim
  | handler lt handles =>
      obtain ⟨m, inCall⟩ := handles.resolve_left fun rests => resting rests calling
      exact ⟨_, _, m, lt, .service rfl, inCall⟩
  | beside lt handles =>
      obtain ⟨m, inCall⟩ := handles.resolve_left fun rests => resting rests calling
      exact ⟨_, _, m, lt, .beside rfl rfl, inCall⟩
  | delivering lt delivers =>
      cases delivers with
      | closing | delivering | undelivered => exact calling.elim
      | calling _ inCall => exact ⟨_, _, _, lt, .service rfl, inCall⟩
  | finishing lt finishes => cases finishes <;> exact calling.elim
  | reader lt uses inCall => exact ⟨_, _, _, lt, .reader rfl rfl uses, inCall⟩
  | @writer i k w n st source lt kind opened called waits =>
      have calls {m} : Thread.Calls s ⟨st, [.writing i k w], .call n⟩ i .client m :=
        .writer rfl rfl opened (.inl ⟨opened, called, rfl⟩)
      obtain ⟨m, inCall⟩ := (waits.calls fun rests => resting rests calling).inCall
      exact ⟨_, _, m, lt, calls, inCall⟩
  | caller lt borrows owner inCall => exact ⟨_, _, _, lt, .caller rfl owner borrows, inCall⟩

theorem Thread.Calls.uses {m} (calls : th.Calls s i .client m) :
    ∃ n, th.owner.name? = some (.inl n) ∧ Event.Uses s.events n i := by
  cases calls with
  | reader _ owner uses | writer _ owner _ uses => exact ⟨_, owner ▸ rfl, uses⟩
  | caller _ owner borrows =>
      refine ⟨_, ?_, .inr borrows⟩
      rcases owner with owner | owner <;> exact owner ▸ rfl

theorem Thread.Calls.of_service {j : StreamId} {role m} (calls : th.Calls s j role m)
    (owner : th.owner = .service i) : j = i ∧ role = .server := by
  cases calls with
  | service owner' =>
      cases owner'.symm.trans owner
      exact ⟨rfl, rfl⟩
  | beside _ owner' | reader _ owner' | writer _ owner' => exact nomatch owner'.symm.trans owner
  | caller _ owner' => rcases owner' with owner' | owner' <;> exact nomatch owner'.symm.trans owner

namespace Stage.InCall

variable {role : Role} {m' : Method}

theorem offering {m : Message} {terminal} (inCall : (offering h m terminal).InCall s i role m') :
    h = ⟨i, role.speaks⟩ ∧ (terminal = true ↔ m.Final (s.kindOf i) role) ∧
      ∀ v, m = .payload v → v.isNothing = false := by
  have hasStage := inCall.resolve_left nofun
  have fits := m'.entry_fits (s.kindOf i) role
  generalize m'.entry (s.kindOf i) role = e at hasStage fits
  cases hasStage with
  | receives receives => cases receives
  | sends sends =>
      cases sends
      exact ⟨congrArg _ fits.1, fits.2⟩
  | thenReceives _ receives => cases receives

theorem hears {st : Stage} (inCall : st.InCall s i role m')
    (stage : st = .asking h ∨ st = .wanting h ∨ ∃ m, st = .received h m) :
    h = ⟨i, role.hears⟩ ∧ st.Receives s h := by
  have hasStage := inCall.resolve_left fun same => by
    rcases stage with rfl | rfl | ⟨m, rfl⟩ <;> exact nomatch same
  have fits := m'.entry_fits (s.kindOf i) role
  generalize m'.entry (s.kindOf i) role = e at hasStage fits
  have half {h' : HalfId} (receives : st.Receives s h') : h = h' := by
    rcases stage with rfl | rfl | ⟨m, rfl⟩ <;> cases receives <;> rfl
  cases hasStage with
  | receives receives =>
      have same := half receives
      subst same
      exact ⟨congrArg _ fits, receives⟩
  | thenReceives _ receives =>
      have same := half receives
      subst same
      have client : role = .client := fits
      subst client
      exact ⟨rfl, receives⟩
  | sends sends => rcases stage with rfl | rfl | ⟨m, rfl⟩ <;> cases sends
  | _ => rcases stage with same | same | ⟨m, same⟩ <;> exact nomatch same

end Stage.InCall

/-! ## Dooms -/

theorem Stage.Goes.closes {st st' : Stage} (goes : st.Goes s st') (closes : st.Closes h) :
    st'.Closes h ∨ s.closed h = true := by
  cases goes with
  | stay => exact .inl closes
  | @note h' m =>
      rcases m with _ | v | f
      · exact closes.elim
      · exact closes.elim
      · exact .inl (.inl closes)
  | shut closed =>
      rcases closes with rfl | closes
      · exact .inr closed
      · exact .inl closes
  | want | ended | enter | undelivered | deliver | take | taken => exact closes.elim
  | release =>
      cases st with
      | wanting | offering => exact closes.elim
      | _ => exact .inl closes
  | gate =>
      cases st with
      | waiting => exact closes.elim
      | _ => exact .inl closes

namespace Scene

/-- Whether a half is closed or will be. -/
def Doomed (s : Scene P) (h : HalfId) : Prop :=
  h.stream < s.kinds.length ∧ (s.closed h = true ∨ ∃ th ∈ s.threads, th.stage.Closes h)

theorem Doomed.of_thread (lt : h.stream < s.kinds.length) (mem : th ∈ s.threads)
    (closes : th.stage.Closes h) : s.Doomed h :=
  ⟨lt, .inr ⟨th, mem, closes⟩⟩

/-- Who leads to the closing of a half does so until it is closed. -/
theorem Step.closes (step : Step s s') (mem : th ∈ s.threads) (closes : th.stage.Closes h) :
    s'.closed h = true ∨ ∃ stage, { th with stage } ∈ s'.threads ∧ stage.Closes h := by
  obtain ⟨parts⟩ := step.parts
  obtain ⟨ths, becomes, results⟩ := parts.fate mem
  rcases becomes.cases parts.events_eq with ⟨stage, rfl, goes⟩ | turns
  · rcases goes.closes closes with closes | closed
    · exact .inr ⟨stage, results _ List.mem_cons_self, closes⟩
    · exact .inl closed
  · generalize parts.events = es at turns
    cases turns <;> exact closes.elim

theorem Doomed.step (doomed : s.Doomed h) (step : Step s s') : s'.Doomed h := by
  obtain ⟨lt, doomed⟩ := doomed
  refine ⟨step.later.lt lt, ?_⟩
  rcases doomed with closed | ⟨th, mem, closes⟩
  · exact .inl (step.later.closed h lt closed)
  · exact (step.closes mem closes).imp_right fun ⟨st, mem, closes⟩ => ⟨_, mem, closes⟩

/-- What a step notes. Where a message is handed over, its sender and its receiver meet. -/
theorem Step.news (step : Step s s') : ∃ es, s'.events = es ++ s.events ∧
    ((∀ h m, .handed h m ∉ es) ∨ ∃ h m fs w terminal fs' w', es = [.handed h m] ∧
      s.closed h = false ∧
      ⟨.wanting h, fs, w⟩ ∈ s.threads ∧ ⟨.offering h m terminal, fs', w'⟩ ∈ s.threads ∧
      ⟨.received h (some m), fs, w⟩ ∈ s'.threads ∧
      ⟨.sent h terminal true, fs', w'⟩ ∈ s'.threads) := by
  cases step with
  | solo threads solo =>
      refine ⟨_, rfl, .inl fun h m mem => ?_⟩
      have causes := solo.causes mem trivial
      cases solo <;> obtain ⟨_, stage⟩ := causes <;> cases stage
  | @handle o i state fs w rest threads =>
      refine ⟨_, rfl, .inl fun h m mem => ?_⟩
      obtain ⟨_, _, _, did⟩ := Act.eq_did mem
      exact nomatch did
  | start | gate | strike | count | notice => exact ⟨[], rfl, .inl nofun⟩
  | close | call => exact ⟨[_], rfl, .inl (by simp)⟩
  | opening => exact ⟨[_, _], rfl, .inl (by simp)⟩
  | meet threads isOpen =>
      refine ⟨[_], rfl, .inr ⟨_, _, _, _, _, _, _, rfl, isOpen, ?_, ?_,
        Multiset.mem_cons_self _ _, Multiset.mem_cons_of_mem (Multiset.mem_cons_self _ _)⟩⟩
      · exact threads ▸ Multiset.mem_cons_self _ _
      · exact threads ▸ Multiset.mem_cons_of_mem (Multiset.mem_cons_self _ _)

theorem Step.handed (step : Step s s') {m} (handed : .handed h m ∈ s'.events) :
    .handed h m ∈ s.events ∨ s.closed h = false ∧ ∃ fs w terminal fs' w',
      ⟨.wanting h, fs, w⟩ ∈ s.threads ∧ ⟨.offering h m terminal, fs', w'⟩ ∈ s.threads ∧
      ⟨.received h (some m), fs, w⟩ ∈ s'.threads ∧
      ⟨.sent h terminal true, fs', w'⟩ ∈ s'.threads := by
  obtain ⟨es, events, calm | ⟨h', m', fs, w, terminal, fs', w', rfl, isOpen, meeting⟩⟩ := step.news
  · rw [events, List.mem_append] at handed
    exact .inl (handed.resolve_left (calm h m))
  · rw [events, List.mem_append, List.mem_singleton] at handed
    rcases handed with same | old
    · cases same
      exact .inr ⟨isOpen, fs, w, terminal, fs', w', meeting⟩
    · exact .inl old

/-- Every half over which a final message passed is doomed, and no payload is nothing. -/
def Sealed (s : Scene P) : Prop :=
  ∀ h m, .handed h m ∈ s.events →
    h.stream < s.kinds.length ∧ (∀ v, m = .payload v → v.isNothing = false) ∧
      ∃ role, h.side = Role.speaks role ∧ (m.Final (s.kindOf h.stream) role → s.Doomed h)

theorem Sealed.step (seals : s.Sealed) (cast : s.Cast) (step : Step s s') : s'.Sealed := by
  intro h m handed
  rcases step.handed handed with old | ⟨-, fs, w, terminal, fs', w', -, offers, -, sent⟩
  · obtain ⟨lt, something, role, speaks, final⟩ := seals h m old
    rw [step.later.kindOf lt]
    exact ⟨step.later.lt lt, something, role, speaks, fun isFinal => (final isFinal).step step⟩
  · obtain ⟨i, role, m', lt, -, inCall⟩ := (cast _ offers).calls trivial
    obtain ⟨rfl, terminal, something⟩ := inCall.offering
    rw [step.later.kindOf lt]
    refine ⟨step.later.lt lt, something, role, rfl, fun isFinal => ?_⟩
    obtain rfl := terminal.mpr isFinal
    exact .of_thread (step.later.lt lt) sent (.inl rfl)

theorem Reachable.seals {s : Scene P} (reachable : s.Reachable) : s.Sealed := by
  induction reachable with
  | refl => exact fun h m handed => absurd handed List.not_mem_nil
  | tail steps step ih => exact ih.step (Reachable.cast steps) step

/-- Whether a stream has a service that has not begun to close it, or both halves are doomed. -/
def Attended (s : Scene P) (i : StreamId) : Prop :=
  (∃ th ∈ s.threads, th.owner = .service i ∧ th.frames ≠ []) ∨
    s.Doomed ⟨i, .requests⟩ ∧ s.Doomed ⟨i, .responses⟩

theorem mem_act_threads (act : Act P.Local) (gates : String → Option Outcome) (i : StreamId)
    (fs : List (Frame P)) (w : Owner) : ∃ th ∈ act.threads gates i fs w,
      th.owner = w ∧
      ((∃ o, th = ⟨.bound o, fs, w⟩) ∨ ∃ next, th.frames = .handling i next :: fs) := by
  cases act with
  | succeed | fail | refuse => exact ⟨_, List.mem_cons_self, rfl, .inl ⟨_, rfl⟩⟩
  | fork => exact ⟨_, List.mem_cons_of_mem _ List.mem_cons_self, rfl, .inr ⟨_, rfl⟩⟩
  | _ => exact ⟨_, List.mem_cons_self, rfl, .inr ⟨_, rfl⟩⟩

theorem Attended.finishing (lt : i < s.kinds.length) {o fs w}
    (mem : ⟨.finishing i o, fs, w⟩ ∈ s.threads) : s.Attended i := by
  have requests : (Stage.finishing i o).Closes ⟨i, .requests⟩ := Or.inl rfl
  have responses : (Stage.finishing i o).Closes ⟨i, .responses⟩ := Or.inr (Or.inl rfl)
  exact .inr ⟨.of_thread lt mem requests, .of_thread lt mem responses⟩

theorem Attended.step (attended : s.Attended i) (lt : i < s.kinds.length) (cast : s.Cast)
    (step : Step s s') : s'.Attended i := by
  have lt' := step.later.lt lt
  rcases attended with ⟨th, mem, owner, busy⟩ | ⟨requests, responses⟩
  · obtain ⟨parts⟩ := step.parts
    obtain ⟨ths, becomes, results⟩ := parts.fate mem
    rcases becomes.cases parts.events_eq with ⟨stage, rfl, -⟩ | turns
    · exact .inl ⟨_, results _ List.mem_cons_self, owner, busy⟩
    · have proper := cast th mem
      generalize parts.events = es at turns
      cases turns with
      | start =>
          cases owner
          exact .inl ⟨_, results _ List.mem_cons_self, rfl, (by rintro ⟨⟩)⟩
      | handle =>
          obtain ⟨th', mem', owner', goes⟩ := mem_act_threads _ _ _ _ _
          refine .inl ⟨th', results th' mem', owner'.trans owner, ?_⟩
          cases proper with
          | handler => rcases goes with ⟨o, rfl⟩ | ⟨next, frames⟩ <;> simp_all
          | beside => cases owner
      | @serve o =>
          cases proper with
          | served =>
              cases owner
              have mem' := results _ List.mem_cons_self
              cases o with
              | ok => exact .finishing lt' mem'
              | error v =>
                  simp only [Thread.served] at mem'
                  split at mem'
                  · exact .finishing lt' mem'
                  · split at mem'
                    · exact .inl ⟨_, mem', rfl, (by rintro ⟨⟩)⟩
                    · exact .finishing lt' mem'
      | delivered =>
          cases proper
          cases owner
          exact .finishing lt' (results _ List.mem_cons_self)
      | read | write =>
          cases proper
          cases owner
      | follow => cases proper
      | settle => exact absurd rfl busy
  · exact .inr ⟨requests.step step, responses.step step⟩

theorem Reachable.attended {s : Scene P} (reachable : s.Reachable) :
    ∀ i < s.kinds.length, s.Attended i := by
  induction reachable with
  | refl => exact fun i lt => absurd lt (Nat.not_lt_zero i)
  | @tail s s' steps step ih =>
      intro i lt
      obtain ⟨parts⟩ := step.parts
      rcases parts.enters.service lt with old | ⟨rfl, c, kind, invocation, -, rfl⟩
      · exact (ih i old).step old (Reachable.cast steps) step
      · exact .inl ⟨s.firstService invocation, Multiset.mem_cons_self _ _, rfl, nofun⟩

end Scene

end ObjectTransfer
