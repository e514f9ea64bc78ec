import ObjectTransfer.Proofs.Leaks
import ObjectTransfer.Proofs.Snapshots

/-! # The loopback storage comes to rest

Writers and handlers of the loopback storage never wait for each other in a circle: when nothing can
go on, nobody waits in a channel any more (`Exchange.comes_to_rest`). Each side waits for the other
only while the other still has the turn, so two sides that both wait would wait in the same channel,
one to send and one to receive, and that cannot be.
-/

namespace ObjectTransfer

variable {P : Plugin}

/-! ## Abandoned downloads -/

def Event.pluginCall? : Event → Option (Nat × PluginCall)
  | called n (.plugin p) => some (n, p)
  | _ => none

inductive Event.Abandoned (events : List Event) (i : StreamId) : Prop where
  | intro {n name} : .called n (.plugin (.method name .halfClose)) ∈ events → Uses events n i →
    Abandoned events i

namespace Scene

variable {s s' : Scene P} {i : StreamId}

/-- A call that abandons a download is under way until the download is closed. -/
theorem Reachable.abandons (reachable : s.Reachable) {n : Nat} {name : String}
    (called : .called n (.plugin (.method name .halfClose)) ∈ s.events)
    (uses : Event.Uses s.events n i) (kind : s.kindOf i = .download) :
    s.closed ⟨i, .responses⟩ = true ∨
      ∃ st w, ⟨st, [], w⟩ ∈ s.threads ∧ st.InCall s i .client .halfClose := by
  induction reachable with
  | refl => exact absurd called List.not_mem_nil
  | @tail s s' steps step ih =>
      have reachable : s.Reachable := steps
      have orderly' := reachable.orderly.step step
      have later := step.later
      rcases step.usedBefore reachable.orderly uses with
        before | ⟨rfl, ⟨c, name', uses', kept, rfl⟩ | ⟨rfl, c, kind', invocation, opens, -, rfl⟩⟩
      · obtain ⟨c, calledBefore⟩ := before.called
        cases orderly'.calledOnce called (later.mem calledBefore)
        have lt := (reachable.orderly.uses_lt before).2
        have kindBefore := (later.kindOf lt).symm.trans kind
        rcases ih calledBefore before kindBefore with closed | ⟨st, w, mem, inCall⟩
        · exact .inl (later.closed _ lt closed)
        · obtain ⟨parts⟩ := step.parts
          obtain ⟨ths, becomes, results⟩ := parts.fate mem
          rcases becomes.cases parts.events_eq with ⟨st', rfl, goes⟩ | turns
          · exact .inr ⟨st', w, results _ List.mem_cons_self, (later.inCall lt inCall).goes goes⟩
          · generalize parts.events = es at turns
            cases turns
            have came := inCall.came
            rw [kindBefore] at came
            cases came with
            | closedOpen closed | closedBefore closed => exact .inl (later.closed _ lt closed)
      · cases orderly'.calledOnce called List.mem_cons_self
        cases uses'
        obtain ⟨w, thread⟩ : ∃ w, s.firstThread (.method name .halfClose) =
            ⟨.entering i .client .halfClose, [], w⟩ := by
          simp only [firstThread, kept]
          exact ⟨_, rfl⟩
        exact .inr ⟨_, w, Multiset.mem_cons.mpr (.inl thread.symm), .inl rfl⟩
      · cases orderly'.calledOnce called (List.mem_cons_of_mem _ List.mem_cons_self)
        cases opens

theorem Quiet.abandoned (quiet : s.Quiet) (reachable : s.Reachable) (kind : s.kindOf i = .download)
    (abandoned : Event.Abandoned s.events i) : s.closed ⟨i, .responses⟩ = true := by
  obtain ⟨called, uses⟩ := abandoned
  rcases reachable.abandons called uses kind with closed | ⟨st, w, mem, inCall⟩
  · exact closed
  · have parked : st.IsParked := quiet.parked _ mem
    rcases inCall with rfl | hasStage
    · exact parked.elim
    · rw [kind] at hasStage
      cases hasStage <;> exact parked.elim

end Scene

theorem Stage.InCall.parked {s : Scene P} {i : StreamId} {st : Stage} {role m}
    (inCall : st.InCall s i role m) (parked : st.IsParked) :
    (∃ h, st = .wanting h) ∨ ∃ m' terminal, st = .offering ⟨i, role.speaks⟩ m' terminal := by
  cases st with
  | wanting => exact .inl ⟨_, rfl⟩
  | offering h m' terminal =>
      obtain ⟨rfl, -⟩ := inCall.offering
      exact .inr ⟨_, _, rfl⟩
  | waiting names =>
      have hasStage := inCall.resolve_left nofun
      generalize m.entry (s.kindOf i) role = e at hasStage
      cases hasStage with
      | receives receives | thenReceives _ receives => cases receives
      | sends sends => cases sends
  | _ => exact parked.elim

namespace Loopback

/-! ## Services that wait -/

variable {c : Config} {s : Scene (plugin c)} {i : StreamId} {th : Thread (plugin c)}

theorem Leaves.not_parked (leaves : Leaves i th) (proper : th.Proper s) : ¬ th.stage.IsParked := by
  intro parked
  cases leaves with
  | served => exact parked
  | finishing =>
      cases proper with
      | finishing _ finishes => cases finishes <;> exact parked
      | finished => exact parked
      | caller _ _ owner => rcases owner with owner | owner <;> exact nomatch owner

/-- The service of a download waits only to send. -/
theorem offers_download (reachable : s.Reachable) (lt : i < s.kinds.length)
    (kind : s.kindOf i = .download) (mem : th ∈ s.threads) (owner : th.owner = .service i)
    (parked : th.stage.IsParked) :
    ∃ m terminal, th.stage = .offering ⟨i, .responses⟩ m terminal := by
  have gone (leaves : ∀ th ∈ s.threads, th.owner = .service i → Leaves i th) : False :=
    (leaves th mem owner).not_parked (reachable.cast th mem) parked
  cases outflowing reachable lt kind with
  | starting mem' | invited mem' =>
      obtain rfl := reachable.owned.eq_service mem mem' owner rfl
      exact parked.elim
  | flowing flow =>
      cases flow with
      | streaming mem' inCall =>
          obtain rfl := reachable.owned.eq_service mem mem' owner rfl
          exact ⟨_, _, Upload.offering_of_parked inCall (by rw [kind]; rfl) parked⟩
      | @complaining f st mem' inCall =>
          obtain rfl := reachable.owned.eq_service mem mem' owner rfl
          obtain ⟨relayed, entry⟩ := Method.entry_fail (s.kindOf i) f
          exact ⟨_, _, Upload.offering_of_parked inCall entry parked⟩
      | stopped leaves => exact (gone leaves).elim
      | through through =>
          cases through with
          | ended leaves => exact (gone leaves).elim
          | @closing pieces st mem' inCall =>
              obtain rfl := reachable.owned.eq_service mem mem' owner rfl
              have parked : st.IsParked := parked
              rcases inCall with rfl | hasStage
              · exact parked.elim
              · rw [kind] at hasStage
                cases hasStage <;> exact parked.elim

/-- The service of an upload waits for requests, or it waits to send after it received the last of
them. -/
theorem offers_upload (reachable : s.Reachable) (lt : i < s.kinds.length)
    (kind : s.kindOf i = .upload) (mem : th ∈ s.threads) (owner : th.owner = .service i)
    (parked : th.stage.IsParked) :
    th.stage = .wanting ⟨i, .requests⟩ ∨
      ∃ m terminal, th.stage = .offering ⟨i, .responses⟩ m terminal ∧
        ∃ (requests : List Value) (v : Value),
        s.heard ⟨i, .requests⟩ = requests.map .ok ++ [.ok v] ∧
        (s.closed ⟨i, .requests⟩ = true ∨ .handed ⟨i, .requests⟩ (.payload .eof) ∈ s.events) := by
  cases intaking reachable lt kind with
  | starting mem' | invited mem' =>
      obtain rfl := reachable.owned.eq_service mem mem' owner rfl
      exact parked.elim
  | @receiving t requests st mem' inCall =>
      obtain rfl := reachable.owned.eq_service mem mem' owner rfl
      have parked : st.IsParked := parked
      rcases inCall with rfl | hasStage
      · exact parked.elim
      · rw [kind] at hasStage
        cases hasStage with
        | receives receives =>
            cases receives with
            | wanting => exact .inl rfl
            | _ => exact parked.elim
  | @past requests last past =>
      have answering := past.answering th mem owner
      have heard := past.heard
      have came := past.came
      cases answering with
      | aborted => exact parked.elim
      | leaves leaves => exact absurd parked (leaves.not_parked (reachable.cast th mem))
      | answers answers inCall =>
          rcases inCall.parked parked with ⟨h, stage⟩ | ⟨m, terminal, stage⟩
          · exact absurd (stage ▸ rfl) (answers.deaf inCall (h := h))
          · refine .inr ⟨m, terminal, stage, requests, _, heard, ?_⟩
            cases came with
            | eof closed => exact .inl closed
            | payload handed => exact .inr handed
      | @ended v _ still =>
          cases reachable.cast th mem with
          | starting => exact absurd (.inl ⟨_, rfl, nofun⟩) still
          | handler => exact absurd (.inr ⟨_, _, _, rfl⟩) still
          | finishing _ finishes => cases finishes <;> exact parked.elim
          | caller _ _ caller =>
              subst owner; rcases caller with caller | caller <;> exact nomatch caller
          | served | finished => exact parked.elim
          | beside | reader | writer => exact nomatch owner
          | delivering _ delivers =>
              cases delivers with
              | calling closed inCall =>
                  rcases inCall.fails with rfl | sends
                  · exact parked.elim
                  · cases owner
                    cases sends with
                    | offering => exact .inr ⟨_, _, rfl, requests, v, heard, .inl closed⟩
                    | closing | told => exact parked.elim
              | _ => exact parked.elim

theorem unmarked (reachable : s.Reachable) (lt : i < s.kinds.length)
    (kind : s.kindOf i = .download) : .handed ⟨i, .responses⟩ (.payload .eof) ∉ s.events := by
  intro handed
  have told := List.mem_map_of_mem (f := Message.outcome) (Scene.mem_passed.mpr handed)
  cases outflowing reachable lt kind with
  | starting _ passed | invited _ passed =>
      rw [passed] at told
      exact absurd told List.not_mem_nil
  | flowing flow => exact flow.pieces.unmarked told

end Loopback

/-- Once nothing can go on, a call that is over settled. -/
theorem Scene.Quiet.settled {s : Scene P} (quiet : s.Quiet) (reachable : s.Reachable) {n : Nat}
    {o : Outcome} (below : n < s.calls) (finished : s.Over n o) :
    ∃ so, .settled n so ∈ s.events := by
  refine (reachable.owned.kept below).resolve_left fun named => ?_
  obtain ⟨th, mem, named⟩ := Scene.mem_names.mp named
  have parked := quiet.parked th mem
  rw [finished.threads th mem named] at parked
  exact parked

theorem Scene.Quiet.given {s : Scene P} (quiet : s.Quiet) (h : HalfId) :
    Scene.given h s.threads = 0 := by
  refine Scene.given_eq_zero fun th mem => ?_
  have parked := quiet.parked th mem
  cases stage : th.stage <;> rw [stage] at parked <;> first | rfl | exact parked.elim

namespace Exchange

theorem not_met {x : Exchange P} {h : HalfId} {fs fs' : List (Frame P)} {w w' m terminal}
    (wants : ⟨.wanting h, fs, w⟩ ∈ x.threads)
    (offers : ⟨.offering h m terminal, fs', w'⟩ ∈ x.threads) : False :=
  Half.not_both (mem_half_threads wants rfl) (mem_half_threads offers rfl)

theorem open_of_parked {x : Exchange P} (run : Run Command.Hosted (.empty P) x) {th : Thread P}
    {h : HalfId} (mem : th ∈ x.threads) (parked : th.stage.ParkedAt h) :
    (x.half h).closed = false :=
  Half.channel_open (run.calm calm_empty |>.halves _).toGuarded (mem_half_threads mem parked)

variable {c : Config} {x : Exchange (Loopback.plugin c)}
  {turns : List (HandlerTurn (Loopback.plugin c))}
  {i : StreamId}

/-- Once nothing can go on, a download that is read at once or abandoned is closed. -/
theorem download_closed (history : History Command.Hosted (.empty (Loopback.plugin c)) x turns)
    (quiet : x.isQuiet = true) (kind : (x.scene turns).kindOf i = .download) {n : Nat}
    (opened : .opened n i ∈ (x.scene turns).events)
    (used : (∃ bucket key, .called n (.plugin (.read bucket key)) ∈ (x.scene turns).events) ∨
      Event.Abandoned (x.scene turns).events i) : (x.half ⟨i, .responses⟩).closed = true := by
  have reachable := history.reachable
  have calm := quiet_scene quiet turns
  obtain ⟨below, lt⟩ := reachable.orderly.opened opened
  rw [← Bool.not_eq_false]
  intro isOpen
  obtain ⟨th, mem, owner, -⟩ := calm.service reachable lt (.inr isOpen)
  obtain ⟨m, terminal, stage⟩ :=
    Loopback.offers_download reachable lt kind mem owner (calm.parked th mem)
  obtain ⟨stage', fs, w⟩ := th
  obtain rfl : stage' = _ := stage
  rcases used with ⟨bucket, key, called⟩ | abandoned
  · let d : Fetch := ⟨n, i⟩
    have owns : Event.Owns (x.scene turns).events n i := ⟨opened, called, rfl⟩
    have known : d.Known (x.scene turns) := ⟨⟨_, called, trivial⟩, .inl owns, kind⟩
    have sole : d.Sole (x.scene turns) := .of_owns reachable.orderly owns
    cases d.account reachable known sole with
    | @reading r st mem' =>
        obtain rfl := Fetch.reader_wants reachable.cast kind mem' (calm.parked _ mem')
        exact not_met mem' mem
    | finished finished =>
        obtain ⟨so, settled⟩ := calm.settled reachable below finished
        rcases reachable.read_ended called opened settled with closed | handed
        · exact nomatch isOpen.symm.trans closed
        · exact Loopback.unmarked reachable lt kind handed
  · exact nomatch isOpen.symm.trans (calm.abandoned reachable kind abandoned)

/-- Once nothing can go on, an upload whose source ended is closed. -/
theorem upload_closed (history : History Command.Hosted (.empty (Loopback.plugin c)) x turns)
    (quiet : x.isQuiet = true) {u : Upload} (known : u.Known (x.scene turns).events)
    (told : (u.source.ending x.gates.outcome?).IsTold) :
    (x.half u.half).closed = true ∧ (x.half u.back).closed = true := by
  have reachable := history.reachable
  have calm := quiet_scene quiet turns
  have run := history.run
  obtain ⟨below, lt⟩ := reachable.orderly.opened known.opened
  have kind : (x.scene turns).kindOf u.stream = .upload := by
    obtain ⟨c, kind, invocation, called, opens, kindOf⟩ := reachable.orderly.opens known.opened
    cases reachable.orderly.calledOnce known.called called
    cases opens
    exact kindOf
  have shut {th : Thread (Loopback.plugin c)} (mem : th ∈ x.threads) {h : HalfId}
      (parked : th.stage.ParkedAt h) (closed : (x.half h).closed = true) : False := by
    cases (open_of_parked run mem parked).symm.trans closed
  by_contra isOpen
  have isOpen : (x.half u.half).closed = false ∨ (x.half u.back).closed = false := by
    simpa [imp_iff_not_or] using isOpen
  obtain ⟨⟨stage, fs, w⟩, mem, owner, -⟩ := calm.service reachable lt isOpen
  rcases Loopback.offers_upload reachable lt kind mem owner (calm.parked _ mem) with
    wants | ⟨m, terminal, offers, requests, v, heard, ended⟩
  · obtain rfl : stage = _ := wants
    rcases u.offers_or_closed reachable known calm told with closed | ⟨k, w', m, terminal, mem'⟩
    · exact shut mem rfl closed
    · exact not_met mem mem'
  · obtain rfl : stage = _ := offers
    have closed : (x.half u.half).closed = true := by
      refine ended.resolve_right fun handed => ?_
      have inside : _ ∈ (x.scene turns).passed u.half := Scene.mem_passed.mpr handed
      obtain ⟨chunks, inside⟩ : ∃ chunks, .payload .eof ∈ u.requests chunks := by
        cases (u.account reachable known).shape with
        | sent sent => exact ⟨_, sent.passed ▸ inside⟩
        | aborted _ _ _ passed =>
            rw [passed] at inside
            exact ⟨_, (List.mem_append.mp inside).resolve_right (by simp)⟩
      obtain ⟨chunk, -, same⟩ := List.mem_map.mp inside
      cases same
    rcases u.rests reachable known calm told with
      ⟨k, w', m, terminal, mem'⟩ | ⟨-, k, w', mem'⟩ | ⟨⟨o, finished⟩, -⟩
    · exact shut mem' rfl closed
    · exact not_met mem' mem
    · obtain ⟨so, settled⟩ := calm.settled reachable below finished
      rcases reachable.write_ended known.called known.opened settled with
        ⟨-, doomed⟩ | ⟨f, handed⟩ | ⟨v, f, ending, fault⟩
      · exact shut mem rfl (calm.closed doomed)
      · obtain ⟨ends, -, tally⟩ :=
          (u.ledger reachable known (Loopback.unforked _ _)).of_none (calm.given _)
        have mem : .error (.fault f) ∈ (x.scene turns).heard u.half := by
          rw [tally]
          exact List.mem_append_left _ (List.mem_map_of_mem (Scene.mem_passed.mpr handed))
        rw [Upload.half, heard] at mem
        simp at mem
      · change (u.source.ending (x.scene turns).gates).IsTold at told
        rw [ending] at told
        obtain ⟨f', fault'⟩ := told
        cases fault.symm.trans fault'

theorem not_at_gate (history : History Command.Hosted (.empty (Loopback.plugin c)) x turns)
    (quiet : x.isQuiet = true)
    (sources : ∀ n bucket key source, .called n (.plugin (.write bucket key source)) ∈ x.journal →
      (source.ending x.gates.outcome?).IsTold) {names fs w} :
    ⟨.waiting names, fs, w⟩ ∉ x.threads := by
  intro mem
  have reachable := history.reachable
  have calm := quiet_scene quiet turns
  have calling {s : Scene (Loopback.plugin c)} {i role m}
      (inCall : (Stage.waiting names).InCall s i role m) : False := by
    rcases inCall.parked trivial with ⟨h, stage⟩ | ⟨m', terminal, stage⟩ <;> exact nomatch stage
  cases reachable.cast _ mem with
  | @handler i st state lt =>
      cases kind : (x.scene turns).kindOf i with
      | download =>
          obtain ⟨m, terminal, stage⟩ :=
            Loopback.offers_download reachable lt kind mem rfl (calm.parked _ mem)
          exact nomatch stage
      | upload =>
          rcases Loopback.offers_upload reachable lt kind mem rfl (calm.parked _ mem) with
            stage | ⟨m, terminal, stage, -⟩ <;> exact nomatch stage
  | beside =>
      exact reachable.not_beside (Loopback.unforked _ _) _ mem ⟨rfl, _, rfl⟩
  | delivering _ delivers =>
      cases delivers with
      | calling _ inCall => exact calling inCall
  | finishing _ finishes => cases finishes
  | reader _ _ inCall | caller _ _ _ inCall => exact calling inCall
  | @writer i k v n st source lt _ opened called waits =>
      let u : Upload := ⟨n, i, v.bucket, v.key, source⟩
      have told : (u.source.ending x.gates.outcome?).IsTold :=
        sources n v.bucket v.key source ((mem_events rfl turns).mp called)
      rcases u.rests reachable ⟨called, opened⟩ calm told with
        ⟨k, w', m, terminal, mem'⟩ | ⟨-, k, w', mem'⟩ | ⟨⟨o, finished⟩, -⟩
      · exact nomatch reachable.owned.eq mem mem' rfl rfl
      · exact nomatch reachable.owned.eq mem mem' rfl rfl
      · exact nomatch finished.threads _ mem rfl

/-- Objects are read and written at once, and downloads that are asked for otherwise are abandoned
at some time. If the sources end, then all calls settle, all handlers return and no stream stays
active. -/
theorem comes_to_rest (history : History Command.Hosted (.empty (Loopback.plugin c)) x turns)
    (quiet : x.isQuiet = true)
    (library : ∀ n name, .called n (.plugin (.openUpload name)) ∉ x.journal)
    (sources : ∀ n bucket key source, .called n (.plugin (.write bucket key source)) ∈ x.journal →
      (source.ending x.gates.outcome?).IsTold)
    (abandoned : ∀ n name bucket key i,
      .called n (.plugin (.openDownload name bucket key)) ∈ x.journal →
      .opened n i ∈ x.journal → Event.Abandoned (x.scene turns).events i) :
    (∀ n < x.calls, ∃ so, .settled n so ∈ x.journal) ∧ x.threads = 0 ∧ x.active = [] := by
  have reachable := history.reachable
  have calm := quiet_scene quiet turns
  have closed : ∀ i < (x.scene turns).kinds.length, ∀ side, (x.half ⟨i, side⟩).closed = true := by
    intro i lt side
    obtain ⟨n, opened⟩ := reachable.orderly.streams i lt
    obtain ⟨c', kind, invocation, called, opens, kindOf⟩ := reachable.orderly.opens opened
    have download
        (used : (∃ bucket key, .called n (.plugin (.read bucket key)) ∈ (x.scene turns).events) ∨
        Event.Abandoned (x.scene turns).events i) (kind : (x.scene turns).kindOf i = .download) :
        (x.half ⟨i, side⟩).closed = true := by
      cases side with
      | requests => exact reachable.requests_closed lt kind
      | responses => exact download_closed history quiet kind opened used
    cases c' with
    | read bucket key =>
        cases opens
        exact download (.inl ⟨bucket, key, called⟩) kindOf
    | openDownload name bucket key =>
        cases opens
        have abandoned := abandoned n name bucket key i ((mem_events rfl turns).mp called)
          ((mem_events rfl turns).mp opened)
        exact download (.inr abandoned) kindOf
    | write bucket key source =>
        have told := sources n bucket key source ((mem_events rfl turns).mp called)
        have both :=
          upload_closed (u := ⟨n, i, bucket, key, source⟩) history quiet ⟨called, opened⟩ told
        cases side with
        | requests => exact both.1
        | responses => exact both.2
    | openUpload name => exact absurd ((mem_events rfl turns).mp called) (library n name)
    | method | readKept | holds | keys => exact nomatch opens
  have everyHalf (h : HalfId) : (x.half h).closed = true := by
    by_cases lt : h.stream < (x.scene turns).kinds.length
    · exact closed h.stream lt h.side
    · exact reachable.listed.shut h (Nat.le_of_not_lt lt)
  have nobody : x.threads = 0 := by
    refine Multiset.eq_zero_of_forall_notMem fun th mem => ?_
    have parked := calm.parked th mem
    have shut {h : HalfId} (waits : th.stage.ParkedAt h) : False :=
      nomatch (open_of_parked history.run mem waits).symm.trans (everyHalf h)
    obtain ⟨stage, fs, w⟩ := th
    cases stage with
    | wanting h => exact shut (h := h) rfl
    | offering h => exact shut (h := h) rfl
    | waiting => exact not_at_gate history quiet sources mem
    | _ => exact parked.elim
  refine ⟨fun n below => ?_, nobody, ?_⟩
  · rcases reachable.owned.kept below with named | ⟨so, settled⟩
    · obtain ⟨th, mem, -⟩ := Scene.mem_names.mp named
      rw [show (x.scene turns).threads = 0 from nobody] at mem
      exact absurd mem (Multiset.notMem_zero th)
    · exact ⟨so, (mem_events rfl turns).mp settled⟩
  · refine List.eq_nil_iff_forall_not_mem.mpr fun i mem => ?_
    have lt := reachable.listed.known i mem
    rcases (reachable.listed.mem_active calm.pending lt).mp mem with isOpen | isOpen <;>
      exact nomatch isOpen.symm.trans (closed i lt _)

/-- A download is abandoned while an upload fails. -/
def mingled : Exchange (Loopback.plugin .default) :=
  ((((((empty _).command (.call (.plugin
    (.write "b" "k" ⟨false, [.chunk (.bytes [2]), .fails (.text "boom")]⟩)))).advance 12).command
    (.call (.plugin (.openDownload "d" "b" "k")))).advance 10).command
    (.call (.plugin (.method "d" .halfClose)))).advance 78

theorem mingled_rests : (∀ n < 3, ∃ so, .settled n so ∈ mingled.journal) ∧ mingled.threads = 0 ∧
    mingled.active = [] := by
  have run : Run Command.Hosted (.empty (Loopback.plugin .default)) mingled := by
    refine Run.trans ?_ (run_advance 78 _)
    refine Run.step (Run.trans ?_ (run_advance 10 _)) (.command rfl trivial)
    refine Run.step (Run.trans ?_ (run_advance 12 _)) (.command rfl trivial)
    exact (Move.command rfl trivial).run
  obtain ⟨turns, history⟩ := run.history
  have calls : mingled.journal.filterMap Event.pluginCall? =
      [(2, .method "d" .halfClose), (1, .openDownload "d" "b" "k"),
        (0, .write "b" "k" ⟨false, [.chunk (.bytes [2]), .fails (.text "boom")]⟩)] := rfl
  have asked {n p} (called : .called n (.plugin p) ∈ mingled.journal) :
      (n, p) ∈ mingled.journal.filterMap Event.pluginCall? :=
        List.mem_filterMap.mpr ⟨_, called, rfl⟩
  refine comes_to_rest history rfl (fun n name called => ?_) (fun n bucket key source called => ?_)
    (fun n name bucket key i called opened => ?_)
  · have mem := asked called
    rw [calls] at mem
    simp at mem
  · have mem := asked called
    rw [calls] at mem
    have same : source = ⟨false, [.chunk (.bytes [2]), .fails (.text "boom")]⟩ := by
      simp only [List.mem_cons, Prod.mk.injEq, PluginCall.write.injEq, reduceCtorEq,
        and_false, false_or, List.not_mem_nil, or_false] at mem
      exact mem.2.2.2
    exact same ▸ ⟨_, rfl⟩
  · have mem := asked called
    rw [calls] at mem
    obtain rfl : n = 1 := by
      simp only [List.mem_cons, Prod.mk.injEq, PluginCall.openDownload.injEq,
        reduceCtorEq, and_false, false_or, List.not_mem_nil, or_false] at mem
      exact mem.1
    have kept : (mingled.scene turns).events.drop 8 =
      .called 2 (.plugin (.method "d" .halfClose)) :: (mingled.scene turns).events.drop 9 := rfl
    have borrows : Event.Borrows (mingled.scene turns).events 2 1 :=
      ⟨kept ▸ List.drop_suffix 8 _, rfl, rfl⟩
    have first : .opened 1 1 ∈ (mingled.scene turns).events := List.mem_of_getElem? (i := 10) rfl
    obtain rfl := history.reachable.orderly.openedOnce first ((mem_events rfl turns).mpr opened)
    exact .intro (List.mem_of_getElem? (i := 8) rfl) (.inr borrows)

end Exchange

end ObjectTransfer
