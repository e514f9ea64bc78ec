import ObjectTransfer.Proofs.Drained
import ObjectTransfer.Proofs.Progress
import ObjectTransfer.Proofs.ProgramDownloads
import ObjectTransfer.Proofs.Scripts

/-! # What a read comes to

A call that alone reads from a download comes to what the program of its handler, played by itself,
says, whatever the order in which the tasks of both go on (`Exchange.read_exact`).
-/

namespace ObjectTransfer

variable {P : Plugin} {s s' : Scene P} {d : Fetch} {program : Program}
  {gates : String → Option Outcome}
  {final : Playback} {th : Thread P}

/-! ## What passed -/

/-- Whether what passed on a download is on the way to a playback, and all of it once the stream is
closed. -/
structure Scene.Within (s : Scene P) (i : StreamId) (final : Playback) : Prop where
  passed : s.passed ⟨i, .responses⟩ <+: final.messages
  whole : s.closed ⟨i, .responses⟩ = true →
    s.passed ⟨i, .responses⟩ = final.messages ∧ final.ended = true

theorem Scene.At.within {i : StreamId} {p : Playback} (stands : s.At i p)
    (before : p.Before final) : s.Within i final where
  passed := stands.passed ▸ before.messages
  whole closed := by
    have ended : p.ended = true := stands.closed.symm.trans closed
    rw [before.ended ended]
    exact ⟨stands.passed, ended⟩

theorem Scene.Within.of_ended {i : StreamId} (passed : s.passed ⟨i, .responses⟩ = final.messages)
    (ended : final.ended = true) : s.Within i final :=
  ⟨passed ▸ List.prefix_rfl, fun _ => ⟨passed, ended⟩⟩

theorem Stage.Performs.within {i : StreamId} {p : Playback} {m : Method} {st : Stage}
    (performs : st.Performs s i p m) (before : (p.after (m.entry .download .server)).Before final) :
    s.Within i final := by
  have whole := (Playback.before_after _).trans before
  cases performs with
  | entering stands | offering _ _ stands => exact stands.within whole
  | closing ended passed =>
      have same := before.ended ended
      subst same
      exact .of_ended passed ended

theorem Fetch.WoundUp.within (wound : d.WoundUp s final) : s.Within d.stream final := by
  cases wound with
  | done _ stands => exact stands.within (.refl _)
  | serving _ winds =>
      cases winds with
      | told stands ends | reporting stands ends | delivering stands ends =>
          exact stands.within (ends ▸ Playback.before_stop _)
      | failing performs ends =>
          refine performs.within ?_
          rw [← ends]
          exact .refl _
      | reported stands => exact stands.within (.refl _)
      | finishing passed ended => exact .of_ended passed ended

theorem Fetch.OnProgram.within (onProgram : d.OnProgram s program gates final) :
    s.Within d.stream final := by
  cases onProgram with
  | ended wound => exact wound.within
  | serving _ runs =>
      cases runs with
      | starting _ stands play | resting _ stands play | waiting _ stands play =>
          exact stands.within (play ▸ Program.before_play _ _)
      | calling _ performs play => exact performs.within (play ▸ Program.before_play _ _)

/-! ## What a reader makes of it -/

namespace Playback

variable {p : Playback}

def Carries (p : Playback) : Prop :=
  ∀ v ∈ p.chunks, ∃ data, v.member? "fileChunk" = .ok (.bytes data)

theorem mem_chunks {v : Value} (mem : .payload v ∈ p.messages) : v ∈ p.chunks := by
  simp only [messages, List.mem_append, List.mem_map, Message.payload.injEq, exists_eq_right,
    Option.mem_toList] at mem
  refine mem.resolve_right fun ending => ?_
  cases known : p.ending with
  | none => simp [known] at ending
  | some e => cases e <;> simp [known, Ending.message?] at ending

theorem ending_of_mem {f : Fault} (mem : .failure f ∈ p.messages) :
    p.ending = some (.failed f) := by
  simp only [messages, List.mem_append, List.mem_map, reduceCtorEq, and_false,
    exists_false, false_or, Option.mem_toList] at mem
  cases known : p.ending with
  | none => simp [known] at mem
  | some e => cases e <;> simp_all [Ending.message?]

theorem Carries.unmarked (carries : p.Carries) : .payload .eof ∉ p.messages := by
  intro mem
  obtain ⟨data, member⟩ := carries _ (mem_chunks mem)
  cases member

theorem Carries.member? (carries : p.Carries) {v : Value} (mem : v ∈ p.chunks) :
    v.member? "fileChunk" = .ok (.bytes v.carried) := by
  obtain ⟨data, member⟩ := carries v mem
  simp [Value.carried, member]

theorem Carries.again (carries : p.Carries) {v : Value} (mem : v ∈ p.chunks) (r : Reading) :
    ∃ r', r.resume (.ok v) = .again r' := by
  have member := carries.member? mem
  have more : v ≠ .eof := by
    rintro rfl
    cases member
  refine ⟨_, r.resume_of_something more ?_⟩
  cases v with
  | undefined | null => cases member
  | _ => rfl

/-- A reader that received all chunks joins what they carry. -/
theorem Carries.resume (carries : p.Carries) {r : Reading} (gathered : r.Gathered p.chunks) :
    r.resume (.ok .eof) = .done (.ok (.bytes (p.chunks.flatMap Value.carried))) := by
  have chunks : r.chunks.reverse = (p.chunks.map Value.carried).map .bytes := by
    refine eq_of_map_ok (gathered.chunks.symm.trans ?_)
    rw [List.map_map, List.map_map]
    exact List.map_congr_left fun v mem => carries.member? mem
  rw [Reading.resume, chunks, joinChunks?_bytes, List.flatMap]

/-- Where all that passes are payloads, no failure ends the stream, and they are its chunks. -/
theorem closed_of_payloads {payloads : List Value} (ended : p.ended = true)
    (same : payloads.map .ok = p.messages.map Message.outcome) :
    p.ending = some .closed ∧ payloads = p.chunks := by
  have closed : p.ending = some .closed := by
    cases ending : p.ending with
    | none => simp [Playback.ended, ending] at ended
    | some e =>
        cases e with
        | closed => rfl
        | failed f =>
            have mem : .failure f ∈ p.messages := by simp [messages, ending, Ending.message?]
            have told : (.error (.fault f) : Outcome) ∈ payloads.map .ok :=
              same ▸ List.mem_map_of_mem (f := Message.outcome) mem
            simp at told
  refine ⟨closed, eq_of_map_ok (same.trans ?_)⟩
  simp [messages, closed, Ending.message?, Message.outcome, Function.comp_def]

end Playback

/-- A call that read alone came to what the playback says, and the stream is closed. -/
theorem Fetch.Ended.result {o : Outcome} (ended : d.Ended s o) (within : s.Within d.stream final)
    (carries : final.Carries) (reachable : s.Reachable) (lt : d.stream < s.kinds.length)
    (sole : d.Sole s)
    (finished : s.Over d.call o) : final.result? = some o ∧ s.closed d.half = true := by
  obtain ⟨ends, -, tally⟩ := heard_of_over reachable lt sole finished
  cases ended with
  | @intro r payloads last gathered heard receives result =>
  have passed {m} (mem : m ∈ s.passed d.half) : m ∈ final.messages := within.passed.subset mem
  have told : last ≠ .ok .eof → ∃ m ∈ s.passed d.half, m.outcome = last := by
    intro more
    have mem : last ∈ s.heard d.half := by simp [heard]
    rw [tally, List.mem_append] at mem
    exact List.mem_map.mp (mem.resolve_right fun mem => more (List.eq_of_mem_replicate mem))
  cases last with
  | error v =>
      cases result
      obtain ⟨m, inside, same⟩ := told nofun
      cases m with
      | payload => cases same
      | failure f =>
          cases same
          cases receives with
          | failure _ closed =>
              refine ⟨?_, closed⟩
              rw [Playback.result?, Playback.ending_of_mem (passed inside)]
              rfl
  | ok v =>
      by_cases marker : v = .eof
      · subst marker
        have unmarked : (.ok .eof : Outcome) ∉ (s.passed d.half).map Message.outcome := by
          intro mem
          obtain ⟨m, inside, same⟩ := List.mem_map.mp mem
          cases m with
          | failure => cases same
          | payload v =>
              cases same
              exact carries.unmarked (passed inside)
        obtain ⟨same, closed⟩ := heard_all gathered heard unmarked reachable lt sole finished
        obtain ⟨all, ended⟩ := within.whole closed
        obtain ⟨ending, rfl⟩ := Playback.closed_of_payloads ended (all ▸ same)
        rw [carries.resume gathered] at result
        cases result
        refine ⟨?_, closed⟩
        rw [Playback.result?, ending]
        rfl
      · obtain ⟨m, inside, same⟩ := told fun same => marker (Except.ok.inj same)
        cases m with
        | failure => cases same
        | payload v' =>
            cases same
            obtain ⟨r', again⟩ := carries.again (Playback.mem_chunks (passed inside)) r
            exact nomatch again.symm.trans result

/-! ## When nothing can go on -/

theorem Stage.Performs.offers {i : StreamId} {p : Playback} {m : Method} {st : Stage}
    (performs : st.Performs s i p m) (parked : st.IsParked) :
    ∃ m terminal, st = .offering ⟨i, .responses⟩ m terminal := by
  cases performs with
  | offering => exact ⟨_, _, rfl⟩
  | entering | closing => exact parked.elim

/-- When nothing can go on, a download stands where its program takes it, or a message is offered.
-/
theorem Fetch.OnProgram.rests (onProgram : d.OnProgram s program s.gates final)
    (directed : d.Directed s program) (quiet : s.Quiet) :
    s.At d.stream final ∨ ∃ m terminal fs w, ⟨.offering d.half m terminal, fs, w⟩ ∈ s.threads := by
  cases onProgram with
  | @serving th mem runs =>
      have parked := quiet.parked th mem
      cases runs with
      | @waiting gate state k p leaves stands play =>
          have unsettled : s.gates gate = none :=
            directed.reachable.awaits _ mem gate List.mem_cons_self
          rw [Program.play_unsettled unsettled] at play
          exact .inl (play ▸ stands)
      | calling _ performs =>
          obtain ⟨m, terminal, rfl⟩ := performs.offers parked
          exact .inr ⟨m, terminal, _, _, mem⟩
      | starting | resting => exact parked.elim
  | ended wound =>
      cases wound with
      | done _ stands => exact .inl stands
      | @serving th mem winds =>
          have parked := quiet.parked th mem
          cases winds with
          | failing performs =>
              obtain ⟨m, terminal, rfl⟩ := performs.offers parked
              exact .inr ⟨m, terminal, _, _, mem⟩
          | finishing =>
              cases directed.reachable.cast _ mem with
              | finishing _ finishes => cases finishes <;> exact parked.elim
              | caller _ _ owner => exact owner.elim nofun nofun
              | finished free => exact absurd rfl (free _)
          | told | reporting | delivering | reported => exact parked.elim

namespace Exchange

variable {x : Exchange P} {turns : List (HandlerTurn P)}

/-- A handler that waits for each of its calls follows a program on a download, and one call alone
reads from its client. The call comes to what the program, played by itself, says: the bytes of the
chunks that were sent before the stream ended, or the failure with which it ended. It does so
whatever else happens, as soon as the program ends the stream. Then the stream is closed, and
whatever is received there later is the end marker. -/
theorem read_exact (history : History Command.Hosted (.empty P) x turns)
    (known : d.Known (x.scene turns)) (sole : d.Sole (x.scene turns))
    (directs : program.Directs (turns.filter (·.stream = d.stream)))
    (carries : (program.play x.gates.outcome? .empty).Carries) :
    (∀ so, .settled d.call so ∈ x.journal →
      (∃ o, (program.play x.gates.outcome? .empty).result? = some o ∧ so = .ofPromise o) ∧
      (x.half d.half).closed = true ∧
      ∀ y after n name m, History Command.Hosted x y after → x.calls ≤ n →
        m.entry .download .client = .receives .responses →
        .called n (.plugin (.method name m)) ∈ y.journal →
        Event.Uses (y.scene (after ++ turns)).events n d.stream →
        (∀ so, .settled n so ∈ y.journal → so = .fulfilled .eof) ∧
          (y.isQuiet = true → .settled n (.fulfilled .eof) ∈ y.journal)) ∧
    (x.isQuiet = true → ∀ o, (program.play x.gates.outcome? .empty).result? = some o →
      .settled d.call (.ofPromise o) ∈ x.journal) := by
  have reachable := history.reachable
  obtain ⟨below, lt⟩ := reachable.orderly.uses_lt known.uses
  have directed : d.Directed (x.scene turns) program :=
    ⟨reachable, lt, known.kind, sole, fun _ => known, directs⟩
  have onProgram : d.OnProgram (x.scene turns) program x.gates.outcome?
    (program.play x.gates.outcome? .empty) := directed.onProgram fun _ _ => id
  constructor
  · intro so settled
    have settled := (mem_events rfl turns).mpr settled
    cases d.account reachable known sole with
    | reading mem =>
        exact absurd (Scene.mem_names.mpr ⟨_, mem, rfl⟩) (reachable.owned.settled settled).1
    | @finished o finished ended =>
        obtain ⟨result, closed⟩ := ended.result onProgram.within carries reachable lt sole finished
        refine ⟨⟨o, result, finished.settled so settled⟩, closed, ?_⟩
        intro y after n name m second new receives called uses
        exact drained history second lt known.kind closed new receives called uses
  · intro quiet o result
    have calm := quiet_scene quiet turns
    cases d.account reachable known sole with
    | @reading r st mem =>
        obtain rfl := Fetch.reader_wants reachable.cast known.kind mem (calm.parked _ mem)
        rcases onProgram.rests directed calm with stands | ⟨m, terminal, fs, w, offers⟩
        · have isOpen : (x.half d.half).closed = false := open_of_parked history.run mem rfl
          have ended : (program.play x.gates.outcome? .empty).ended = false :=
            stands.closed.symm.trans isOpen
          rw [Playback.result?, Playback.ending_eq_none ended] at result
          cases result
        · exact absurd offers fun offers => not_met mem offers
    | @finished o' finished ended =>
        obtain ⟨result', -⟩ := ended.result onProgram.within carries reachable lt sole finished
        obtain ⟨so, settled⟩ := calm.settled reachable below finished
        obtain rfl : o = o' := Option.some.inj (result.symm.trans result')
        rw [finished.settled so settled] at settled
        exact (mem_events rfl _).mp settled

/-- Sends a chunk, fails to send what is none, sends another chunk and ends the stream with a
failure. Then it fails to send a third chunk, and fails. -/
def falteringDeeds : List Scripted.Deed :=
  [.calls (.send (.object [("fileChunk", .bytes [1])])), .attempts (.calls (.send .null)),
    .calls (.send (.object [("fileChunk", .bytes [2])])),
    .calls (.fail (.fault (.mk .error none "torn" .undefined))),
    .attempts (.calls (.send (.object [("fileChunk", .bytes [3])]))), .throws (.text "late")]

/-- An object is read from such a handler, by a client that was opened before. -/
def faltering : Exchange (Scripted.plugin ⟨[falteringDeeds], []⟩) :=
  ((((empty _).command (.call (.plugin (.openDownload "d" "b" "k")))).advance 5).command
    (.call (.plugin (.readKept "d")))).advance 87

def falteringLater : Exchange (Scripted.plugin ⟨[falteringDeeds], []⟩) :=
  (faltering.command (.call (.plugin (.method "d" .receive)))).advance 3

theorem faltering_rejects :
    .settled 1 (.rejected (.fault (.mk .error none "torn" .undefined))) ∈ faltering.journal ∧
      .settled 2 (.fulfilled .eof) ∈ falteringLater.journal := by
  have run : Run Command.Hosted (.empty _) faltering := by
    refine Run.trans ?_ (run_advance 87 _)
    refine Run.step (Run.trans ?_ (run_advance 5 _)) (.command rfl trivial)
    exact (Move.command rfl trivial).run
  obtain ⟨turns, history⟩ := run.history
  have reachable := history.reachable
  have calls : faltering.journal.filterMap Event.pluginCall? =
      [(1, .readKept "d"), (0, .openDownload "d" "b" "k")] := rfl
  have asked {n c} (called : .called n (.plugin c) ∈ (faltering.scene turns).events) :
      (n, c) ∈ [(1, PluginCall.readKept "d"), (0, .openDownload "d" "b" "k")] :=
    calls ▸ List.mem_filterMap.mpr ⟨_, (mem_events rfl turns).mp called, rfl⟩
  have known : Fetch.Known ⟨1, 0⟩ (faltering.scene turns) := by
    have kept : (faltering.scene turns).events.drop 13 =
      .called 1 (.plugin (.readKept "d")) :: (faltering.scene turns).events.drop 14 := rfl
    have uses : Event.Uses (faltering.scene turns).events 1 0 :=
      .inr ⟨kept ▸ List.drop_suffix 13 _, rfl, rfl⟩
    have called : .called 1 (.plugin (.readKept "d")) ∈ faltering.journal :=
      List.mem_of_getElem? (i := 14) rfl
    have kind : faltering.kindOf 0 = .download := rfl
    exact ⟨⟨_, (mem_events rfl _).mpr called, trivial⟩, uses, (kindOf_scene _ _ _).trans kind⟩
  have sole : Fetch.Sole ⟨1, 0⟩ (faltering.scene turns) := by
    rintro n (⟨-, called, keeps⟩ | ⟨suffix, uses, -⟩)
    · rcases List.mem_cons.mp (asked called) with same | first
      · exact congrArg Prod.fst same
      · cases List.mem_singleton.mp first
        cases keeps
    · rcases List.mem_cons.mp (asked (suffix.subset List.mem_cons_self)) with same | first
      · exact congrArg Prod.fst same
      · cases List.mem_singleton.mp first
        cases uses
  obtain ⟨-, lt⟩ := reachable.orderly.uses_lt known.uses
  have directs : (Scripted.programOf falteringDeeds).Directs (turns.filter (·.stream = 0)) := by
    have plain : ∀ deeds ∈ [falteringDeeds], ∀ d ∈ deeds, d.IsPlain := by
      simp [falteringDeeds, Scripted.Deed.IsPlain]
    obtain ⟨n, directs⟩ := Scripted.directs plain reachable lt known.kind
    have same : Scripted.deedsOf [falteringDeeds] n = falteringDeeds := by cases n <;> rfl
    rw [same] at directs
    exact directs
  have played : (Scripted.programOf falteringDeeds).play faltering.gates.outcome? .empty =
      ⟨[.object [("fileChunk", .bytes [1])], .object [("fileChunk", .bytes [2])]],
        some (.failed (.mk .error none "torn" .undefined))⟩ := rfl
  have carries :
      ((Scripted.programOf falteringDeeds).play faltering.gates.outcome? .empty).Carries := by
    rw [played]
    intro v mem
    simp only [List.mem_cons, List.not_mem_nil, or_false] at mem
    rcases mem with rfl | rfl <;> exact ⟨_, rfl⟩
  obtain ⟨settles, rejects⟩ := read_exact (d := ⟨1, 0⟩) history known sole directs carries
  have settled := rejects rfl _ (congrArg Playback.result? played)
  refine ⟨settled, ?_⟩
  obtain ⟨-, -, later⟩ := settles _ settled
  have after : History Command.Hosted faltering falteringLater _ :=
    (History.refl.step (.command rfl trivial)).trans (history_advance 3 _)
  refine (later falteringLater _ 2 "d" .receive after (le_refl 2) rfl ?_ ?_).2 rfl
  · exact List.mem_of_getElem? (i := 2) rfl
  · have kept : (falteringLater.scene turns).events.drop 2 =
      .called 2 (.plugin (.method "d" .receive)) :: (falteringLater.scene turns).events.drop 3 :=
        rfl
    exact .inr ⟨kept ▸ List.drop_suffix 2 _, rfl, rfl⟩

end Exchange

end ObjectTransfer
