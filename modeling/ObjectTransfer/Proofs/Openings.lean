import ObjectTransfer.Proofs.Fates

/-! # Calls and the streams that they open

The events tell which call opened which stream and which client a name stands for
(`Scene.Orderly`). A stream that is opened to read or to write an object at once has no client that
could be used by another call.
-/

namespace ObjectTransfer

variable {P : Plugin}

def PluginCall.keeps? : PluginCall → Option String
  | openDownload name _ _ => some name
  | openUpload name => some name
  | _ => none

def PluginCall.uses? : PluginCall → Option String
  | method name _ => some name
  | readKept name => some name
  | _ => none

namespace Event

def IsCall : Event → Prop
  | called _ _ => True
  | opened _ _ => True
  | _ => False

/-- The stream of the client that is kept under a name after these events, the latest first. -/
def keptAfter (name : String) : List Event → Option StreamId
  | opened n i :: called n' (.plugin c) :: earlier =>
    if n = n' ∧ c.keeps? = some name then some i else keptAfter name earlier
  | _ :: earlier => keptAfter name earlier
  | [] => none

/-- Whether the call of this number is made on the client of this stream, which was kept. -/
inductive Borrows (events : List Event) (n : Nat) (i : StreamId) : Prop where
  | intro {earlier c name} : .called n (.plugin c) :: earlier <:+ events →
    c.uses? = some name → keptAfter name earlier = some i → Borrows events n i

/-- Whether the call of this number opened this stream for itself. -/
inductive Owns (events : List Event) (n : Nat) (i : StreamId) : Prop where
  | intro {c} : .opened n i ∈ events → .called n (.plugin c) ∈ events → c.keeps? = none →
    Owns events n i

def Uses (events : List Event) (n : Nat) (i : StreamId) : Prop :=
  Owns events n i ∨ Borrows events n i

variable {events events' : List Event} {n : Nat} {i : StreamId}

theorem Borrows.later (borrows : Borrows events n i) (later : events <:+ events') :
    Borrows events' n i := by
  obtain ⟨suffix, uses, kept⟩ := borrows
  exact ⟨suffix.trans later, uses, kept⟩

theorem Uses.later (uses : Uses events n i) (later : events <:+ events') : Uses events' n i := by
  rcases uses with ⟨opened, called, keeps⟩ | borrows
  · exact .inl ⟨later.subset opened, later.subset called, keeps⟩
  · exact .inr (borrows.later later)

theorem Owns.opened (owns : Owns events n i) : .opened n i ∈ events := by
  obtain ⟨opened, -⟩ := owns
  exact opened

theorem Uses.called (uses : Uses events n i) : ∃ c, .called n (.plugin c) ∈ events := by
  rcases uses with ⟨-, called, -⟩ | ⟨suffix, -⟩
  · exact ⟨_, called⟩
  · exact ⟨_, suffix.subset List.mem_cons_self⟩

theorem opened_of_keptAfter {name : String} (kept : keptAfter name events = some i) :
    ∃ n c, .opened n i ∈ events ∧ .called n (.plugin c) ∈ events ∧ c.keeps? = some name := by
  fun_induction keptAfter name events with
  | case1 n i' n' c earlier keeps =>
      cases kept
      obtain ⟨rfl, keeps⟩ := keeps
      exact ⟨n, c, List.mem_cons_self, List.mem_cons_of_mem _ List.mem_cons_self, keeps⟩
  | case2 n i' n' c earlier other ih =>
      obtain ⟨m, c', opened, called, keeps⟩ := ih kept
      exact ⟨m, c', List.mem_cons_of_mem _ (List.mem_cons_of_mem _ opened),
        List.mem_cons_of_mem _ (List.mem_cons_of_mem _ called), keeps⟩
  | case3 e earlier _ ih =>
      obtain ⟨m, c', opened, called, keeps⟩ := ih kept
      exact ⟨m, c', List.mem_cons_of_mem _ opened, List.mem_cons_of_mem _ called, keeps⟩
  | case4 => exact nomatch kept

theorem suffix_of_not_mem {e : Event} {es earlier : List Event} (absent : e ∉ es)
    (suffix : e :: earlier <:+ es ++ events) : e :: earlier <:+ events := by
  induction es with
  | nil => exact suffix
  | cons e' es ih =>
      rw [List.mem_cons, not_or] at absent
      rcases List.suffix_cons_iff.mp suffix with same | later
      · exact absurd (List.cons.inj same).1 absent.1
      · exact ih absent.2 later

theorem keptAfter_append {es : List Event} (calm : ∀ e ∈ es, ¬ e.IsCall) (name : String)
    (events : List Event) : keptAfter name (es ++ events) = keptAfter name events := by
  induction es with
  | nil => rfl
  | cons e es ih =>
      obtain ⟨first, rest⟩ := List.forall_mem_cons.mp calm
      have skip : keptAfter name (e :: (es ++ events)) = keptAfter name (es ++ events) := by
        cases e with
        | opened => exact absurd trivial first
        | _ => rw [keptAfter]; nofun
      rw [List.cons_append, skip, ih rest]

end Event

namespace Scene

theorem Solo.not_call {kindOf closed gates} {th : Thread P} {ths es e}
    (solo : Solo kindOf closed gates th ths es) (mem : e ∈ es) : ¬ e.IsCall := by
  cases solo with
  | received =>
      obtain rfl := List.mem_singleton.mp mem
      exact id
  | write =>
      obtain ⟨r, -, remarked⟩ := List.mem_filterMap.mp (List.mem_reverse.mp mem)
      cases r <;> cases remarked <;> exact id
  | @settle o w =>
      cases w <;> simp only [Owner.events, List.mem_singleton, List.not_mem_nil] at mem <;>
        exact mem ▸ id
  | _ => exact absurd mem List.not_mem_nil

/-- A step starts a call on the plugin, or it leaves calls and streams alone. -/
theorem Step.events_cases {s s' : Scene P} (step : Step s s') :
    (∃ es, s'.events = es ++ s.events ∧ (∀ e ∈ es, ¬ e.IsCall) ∧ s'.kinds = s.kinds ∧
      s'.calls = s.calls ∧ s'.clients = s.clients) ∨
      (∃ c, opens? c = none ∧ s' = s.begin c) ∨
      ∃ c kind invocation, opens? c = some (kind, invocation) ∧
      s' = s.opened c kind invocation := by
  cases step with
  | solo threads solo => exact .inl ⟨_, rfl, fun e mem => solo.not_call mem, rfl, rfl, rfl⟩
  | @handle o i state =>
      refine .inl ⟨_, rfl, fun e mem => ?_, rfl, rfl, rfl⟩
      obtain ⟨_, _, _, rfl⟩ := Act.eq_did mem
      exact id
  | start | gate | strike | count | notice => exact .inl ⟨[], rfl, nofun, rfl, rfl, rfl⟩
  | close | meet => exact .inl ⟨[_], rfl, List.forall_mem_singleton.mpr id, rfl, rfl, rfl⟩
  | call opens => exact .inr (.inl ⟨_, opens, rfl⟩)
  | opening opens => exact .inr (.inr ⟨_, _, _, opens, rfl⟩)

/-- What the events tell of calls and streams. -/
structure Orderly (s : Scene P) : Prop where
  kept : ∀ name, s.keptClient? name = Event.keptAfter name s.events
  clients : ∀ c ∈ s.clients, c.2 < s.kinds.length
  called : ∀ {n c}, .called n c ∈ s.events → n < s.calls
  calledOnce : ∀ {n c c'}, .called n c ∈ s.events → .called n c' ∈ s.events → c = c'
  opened : ∀ {n i}, .opened n i ∈ s.events → n < s.calls ∧ i < s.kinds.length
  openedOnce : ∀ {n i i'}, .opened n i ∈ s.events → .opened n i' ∈ s.events → i = i'
  openedBy : ∀ {n n' i}, .opened n i ∈ s.events → .opened n' i ∈ s.events → n = n'
  opens : ∀ {n i}, .opened n i ∈ s.events → ∃ c kind invocation,
    .called n (.plugin c) ∈ s.events ∧ opens? c = some (kind, invocation) ∧ s.kindOf i = kind
  keptOpened : ∀ {name i}, s.keptClient? name = some i → ∃ n c,
    .opened n i ∈ s.events ∧ .called n (.plugin c) ∈ s.events ∧ c.keeps? = some name
  streams : ∀ i < s.kinds.length, ∃ n, .opened n i ∈ s.events

namespace Orderly

variable {s s' : Scene P}

theorem noted (orderly : s.Orderly) (es : List Event) (calm : ∀ e ∈ es, ¬ e.IsCall)
    (events : s'.events = es ++ s.events) (kinds : s'.kinds = s.kinds) (calls : s'.calls = s.calls)
    (clients : s'.clients = s.clients) : s'.Orderly := by
  have old {e : Event} (call : e.IsCall) : e ∈ s'.events ↔ e ∈ s.events := by
    rw [events, List.mem_append]
    exact or_iff_right fun mem => calm e mem call
  have calledOld {n c} : Event.called n c ∈ s'.events ↔ .called n c ∈ s.events := old trivial
  have openedOld {n i} : Event.opened n i ∈ s'.events ↔ .opened n i ∈ s.events := old trivial
  have kept (name) : s'.keptClient? name = s.keptClient? name := by
    rw [keptClient?, keptClient?, clients]
  have kindOf : s'.kindOf = s.kindOf := by
    funext i
    rw [Scene.kindOf, Scene.kindOf, kinds]
  constructor
  case kept =>
    intro name
    rw [kept, events, Event.keptAfter_append calm]
    exact orderly.kept name
  case clients =>
    rw [clients, kinds]
    exact orderly.clients
  case called =>
    simp only [calledOld, calls]
    exact orderly.called
  case calledOnce =>
    simp only [calledOld]
    exact orderly.calledOnce
  case opened =>
    simp only [openedOld, calls, kinds]
    exact orderly.opened
  case openedOnce =>
    simp only [openedOld]
    exact orderly.openedOnce
  case openedBy =>
    simp only [openedOld]
    exact orderly.openedBy
  case opens =>
    simp only [openedOld, calledOld, kindOf]
    exact orderly.opens
  case keptOpened =>
    simp only [openedOld, calledOld, kept]
    exact orderly.keptOpened
  case streams =>
    simp only [openedOld, kinds]
    exact orderly.streams

theorem empty : (Scene.empty P).Orderly := by
  constructor <;>
    simp [Scene.empty, Exchange.empty, Exchange.scene, Scene.keptClient?, Event.keptAfter]

theorem calledOnce_cons (orderly : s.Orderly) {n : Nat} {c c' c'' : Call}
    (first : .called n c' ∈ Event.called s.calls c :: s.events)
    (second : .called n c'' ∈ Event.called s.calls c :: s.events) : c' = c'' := by
  rcases List.mem_cons.mp first with same | old <;> rcases List.mem_cons.mp second with same' | old'
  · cases same
    cases same'
    rfl
  · cases same
    exact absurd (orderly.called old') (Nat.lt_irrefl _)
  · cases same'
    exact absurd (orderly.called old) (Nat.lt_irrefl _)
  · exact orderly.calledOnce old old'

theorem called_cons (orderly : s.Orderly) {n : Nat} {c c' : Call}
    (called : .called n c' ∈ Event.called s.calls c :: s.events) : n < s.calls + 1 := by
  rcases List.mem_cons.mp called with same | old
  · cases same
    exact Nat.lt_succ_self _
  · exact Nat.lt_succ_of_lt (orderly.called old)

theorem call (orderly : s.Orderly) {c : PluginCall} (opens : opens? c = none) :
    (s.begin c).Orderly := by
  have clients : (s.begin c).clients = s.clients := by
    cases c with
    | openDownload | openUpload => exact nomatch opens
    | read | write | method | readKept | holds | keys => rfl
  have events : (s.begin c).events = .called s.calls (.plugin c) :: s.events := rfl
  have kept (name) : (s.begin c).keptClient? name = s.keptClient? name := by
    rw [keptClient?, keptClient?, clients]
  have openedOld {n i} : Event.opened n i ∈ (s.begin c).events ↔ .opened n i ∈ s.events := by
    simp [events]
  have calledOld {n c'} (called : .called n c' ∈ s.events) : .called n c' ∈ (s.begin c).events :=
    List.mem_cons_of_mem _ called
  constructor
  case kept =>
    intro name
    rw [kept, orderly.kept name, events, Event.keptAfter]
    nofun
  case clients =>
    rw [clients]
    exact orderly.clients
  case called => exact fun called => orderly.called_cons called
  case calledOnce => exact fun first second => orderly.calledOnce_cons first second
  case opened =>
    intro n i opened
    have old := orderly.opened (openedOld.mp opened)
    exact ⟨Nat.lt_succ_of_lt old.1, old.2⟩
  case openedOnce =>
    exact fun first second => orderly.openedOnce (openedOld.mp first) (openedOld.mp second)
  case openedBy =>
    exact fun first second => orderly.openedBy (openedOld.mp first) (openedOld.mp second)
  case opens =>
    intro n i opened
    obtain ⟨c', kind, invocation, called, rest⟩ := orderly.opens (openedOld.mp opened)
    exact ⟨c', kind, invocation, calledOld called, rest⟩
  case keptOpened =>
    intro name i is
    obtain ⟨n, c', opened, called, keeps⟩ := orderly.keptOpened (kept name ▸ is)
    exact ⟨n, c', openedOld.mpr opened, calledOld called, keeps⟩
  case streams =>
    intro i lt
    obtain ⟨n, opened⟩ := orderly.streams i lt
    exact ⟨n, openedOld.mpr opened⟩

theorem keptClient?_opened {c : PluginCall} {kind invocation}
    (opens : opens? c = some (kind, invocation)) (name : String) :
    (s.opened c kind invocation).keptClient? name =
      if c.keeps? = some name then some s.kinds.length else s.keptClient? name := by
  cases c with
  | read | write => rfl
  | openDownload name' | openUpload name' =>
      simp only [keptClient?, Scene.opened, openStream, begin, PluginCall.keeps?, List.find?_cons,
        Option.some.injEq]
      by_cases same : name' = name
      · simp [same]
      · have differs : (name' == name) = false := by simpa using same
        simp [same, differs]
  | method | readKept | holds | keys => cases opens

theorem clients_opened (orderly : s.Orderly) {c : PluginCall} {kind invocation}
    (opens : opens? c = some (kind, invocation)) {client : String × StreamId}
    (mem : client ∈ (s.opened c kind invocation).clients) :
    client.2 < (s.opened c kind invocation).kinds.length := by
  rw [length_opened]
  have old (mem : client ∈ s.clients) := Nat.lt_succ_of_lt (orderly.clients client mem)
  cases c with
  | read | write => exact old mem
  | openDownload | openUpload =>
      rcases List.mem_cons.mp mem with rfl | mem
      · exact Nat.lt_succ_self _
      · exact old mem
  | method | readKept | holds | keys => cases opens

theorem opening (orderly : s.Orderly) {c : PluginCall} {kind invocation}
    (opens : opens? c = some (kind, invocation)) : (s.opened c kind invocation).Orderly := by
  have events : (s.opened c kind invocation).events =
      .opened s.calls s.kinds.length :: .called s.calls (.plugin c) :: s.events := rfl
  have called {n c'} : Event.called n c' ∈ (s.opened c kind invocation).events ↔
      .called n c' ∈ Event.called s.calls (.plugin c) :: s.events := by
    simp [events]
  have opened {n i} : Event.opened n i ∈ (s.opened c kind invocation).events ↔
      (n = s.calls ∧ i = s.kinds.length) ∨ .opened n i ∈ s.events := by
    simp [events]
  have kept (name) : (s.opened c kind invocation).keptClient? name =
      Event.keptAfter name (s.opened c kind invocation).events := by
    rw [keptClient?_opened opens, events, Event.keptAfter, orderly.kept name]
    simp
  constructor
  case kept => exact kept
  case clients => exact fun client mem => orderly.clients_opened opens mem
  case called => exact fun mem => orderly.called_cons (called.mp mem)
  case calledOnce =>
    exact fun first second => orderly.calledOnce_cons (called.mp first) (called.mp second)
  case opened =>
    intro n i mem
    rw [length_opened]
    rcases opened.mp mem with ⟨rfl, rfl⟩ | old
    · exact ⟨Nat.lt_succ_self _, Nat.lt_succ_self _⟩
    · exact ⟨Nat.lt_succ_of_lt (orderly.opened old).1, Nat.lt_succ_of_lt (orderly.opened old).2⟩
  case openedOnce =>
    intro n i i' first second
    rcases opened.mp first with ⟨rfl, rfl⟩ | old <;>
      rcases opened.mp second with ⟨same, rfl⟩ | old'
    · rfl
    · exact absurd (orderly.opened old').1 (Nat.lt_irrefl _)
    · exact absurd (orderly.opened old).1 (same ▸ Nat.lt_irrefl _)
    · exact orderly.openedOnce old old'
  case openedBy =>
    intro n n' i first second
    rcases opened.mp first with ⟨rfl, rfl⟩ | old <;>
      rcases opened.mp second with ⟨rfl, same⟩ | old'
    · rfl
    · exact absurd (orderly.opened old').2 (Nat.lt_irrefl _)
    · exact absurd (orderly.opened old).2 (same ▸ Nat.lt_irrefl _)
    · exact orderly.openedBy old old'
  case opens =>
    intro n i mem
    rcases opened.mp mem with ⟨rfl, rfl⟩ | old
    · exact ⟨c, kind, invocation, called.mpr List.mem_cons_self, opens, kindOf_opened⟩
    · obtain ⟨c', kind', invocation', old', opens', same⟩ := orderly.opens old
      exact ⟨c', kind', invocation', called.mpr (List.mem_cons_of_mem _ old'), opens',
        (kindOf_opened_of_lt (orderly.opened old).2).trans same⟩
  case keptOpened => exact fun is => Event.opened_of_keptAfter ((kept _).symm.trans is)
  case streams =>
    intro i lt
    rcases lt_opened.mp lt with lt | rfl
    · obtain ⟨n, old⟩ := orderly.streams i lt
      exact ⟨n, opened.mpr (.inr old)⟩
    · exact ⟨s.calls, opened.mpr (.inl ⟨rfl, rfl⟩)⟩

theorem not_borrows (orderly : s.Orderly) {n n' i} (owns : Event.Owns s.events n i) :
    ¬ Event.Borrows s.events n' i := by
  rintro ⟨suffix, -, kept⟩
  obtain ⟨opened, called, keeps⟩ := owns
  obtain ⟨m, c, opened', called', keeps'⟩ := Event.opened_of_keptAfter kept
  have later := (List.suffix_cons _ _).trans suffix
  have same := orderly.openedBy opened (later.subset opened')
  subst same
  cases orderly.calledOnce called (later.subset called')
  exact nomatch keeps.symm.trans keeps'

theorem step (orderly : s.Orderly) (step : Step s s') : s'.Orderly := by
  rcases step.events_cases with
    ⟨es, events, calm, kinds, calls, clients⟩ | ⟨c, opens, rfl⟩ | ⟨c, kind, invocation, opens, rfl⟩
  · exact orderly.noted es calm events kinds calls clients
  · exact orderly.call opens
  · exact orderly.opening opens

end Orderly

theorem Enters.service {ths : List (Thread P)} (enters : Enters s s' ths)
    (lt : i < s'.kinds.length) :
    i < s.kinds.length ∨ i = s.kinds.length ∧ ∃ c kind invocation,
      opens? c = some (kind, invocation) ∧ s' = s.opened c kind invocation := by
  cases enters with
  | none kinds | notice kinds => exact .inl (kinds ▸ lt)
  | call _ same => exact .inl (by simpa [same, begin] using lt)
  | @opening c kind invocation opens same =>
      rcases lt_opened.mp (same ▸ lt) with lt | new
      · exact .inl lt
      · exact .inr ⟨new, c, kind, invocation, opens, same⟩

theorem Reachable.orderly {s : Scene P} (reachable : s.Reachable) : s.Orderly := by
  induction reachable with
  | refl => exact .empty
  | tail _ step ih => exact ih.step step

/-- A stream was opened before a step or is opened by it. -/
theorem Step.openedBefore {s s' : Scene P} (step : Step s s') (orderly : s.Orderly) {n : Nat}
    {i : StreamId} {c : PluginCall} (opened : .opened n i ∈ s'.events)
    (called : .called n (.plugin c) ∈ s'.events) :
    .opened n i ∈ s.events ∧ .called n (.plugin c) ∈ s.events ∨
      n = s.calls ∧ i = s.kinds.length ∧ ∃ kind invocation,
        opens? c = some (kind, invocation) ∧ s' = s.opened c kind invocation := by
  have orderly' := orderly.step step
  obtain ⟨parts⟩ := step.parts
  rcases parts.enters.service (orderly'.opened opened).2 with
    old | ⟨rfl, c', kind, invocation, opens, rfl⟩
  · obtain ⟨n', before⟩ := orderly.streams i old
    obtain rfl := orderly'.openedBy opened (step.later.events.subset before)
    obtain ⟨c', -, -, calledBefore, -⟩ := orderly.opens before
    cases orderly'.calledOnce called (step.later.events.subset calledBefore)
    exact .inl ⟨before, calledBefore⟩
  · obtain rfl := orderly'.openedBy opened List.mem_cons_self
    cases orderly'.calledOnce called (List.mem_cons_of_mem _ List.mem_cons_self)
    exact .inr ⟨rfl, rfl, kind, invocation, opens, rfl⟩

theorem opens?_of_uses? {c : PluginCall} {name : String} (uses : c.uses? = some name) :
    opens? c = none := by
  cases c with
  | method | readKept => rfl
  | read | write | openDownload | openUpload | holds | keys => exact nomatch uses

theorem Step.usedBefore {s s' : Scene P} (step : Step s s') (orderly : s.Orderly) {n : Nat}
    {i : StreamId} (uses : Event.Uses s'.events n i) :
    Event.Uses s.events n i ∨ n = s.calls ∧
        ((∃ c name, c.uses? = some name ∧ s.keptClient? name = some i ∧ s' = s.begin c) ∨
          i = s.kinds.length ∧ ∃ c kind invocation, opens? c = some (kind, invocation) ∧
            c.keeps? = none ∧ s' = s.opened c kind invocation) := by
  rcases uses with ⟨opened, called, keeps⟩ | ⟨suffix, uses, kept⟩
  · rcases step.openedBefore orderly opened called with
      ⟨opened, called⟩ | ⟨rfl, rfl, kind, invocation, opens, rfl⟩
    · exact .inl (.inl ⟨opened, called, keeps⟩)
    · exact .inr ⟨rfl, .inr ⟨rfl, _, kind, invocation, opens, keeps, rfl⟩⟩
  · rcases step.events_cases with
      ⟨es, events, calm, -⟩ | ⟨c, opens, rfl⟩ | ⟨c, kind, invocation, opens, rfl⟩
    · rw [events] at suffix
      exact .inl (.inr ⟨Event.suffix_of_not_mem (fun mem => calm _ mem trivial) suffix, uses, kept⟩)
    · rcases List.suffix_cons_iff.mp suffix with same | later
      · cases same
        exact .inr ⟨rfl, .inl ⟨_, _, uses, (orderly.kept _).trans kept, rfl⟩⟩
      · exact .inl (.inr ⟨later, uses, kept⟩)
    · rcases List.suffix_cons_iff.mp suffix with same | later
      · exact nomatch same
      rcases List.suffix_cons_iff.mp later with same | later
      · cases same
        exact nomatch (opens?_of_uses? uses).symm.trans opens
      · exact .inl (.inr ⟨later, uses, kept⟩)

theorem Orderly.uses_lt {s : Scene P} (orderly : s.Orderly) {n : Nat} {i : StreamId}
    (uses : Event.Uses s.events n i) : n < s.calls ∧ i < s.kinds.length := by
  rcases uses with ⟨opened, -⟩ | ⟨suffix, -, kept⟩
  · exact orderly.opened opened
  · obtain ⟨m, c, opened, -⟩ := Event.opened_of_keptAfter kept
    have earlier := (List.suffix_cons _ _).trans suffix
    exact ⟨orderly.called (suffix.subset List.mem_cons_self),
      (orderly.opened (earlier.subset opened)).2⟩

end Scene

end ObjectTransfer
