import ObjectTransfer.Proofs.Deliveries

/-! # What a reader gathered

While a call reads what a stream brings and nobody else uses its client, the receives on the stream
are those of its reader, and the reader holds the chunks of all that they came to (`Fetch.Tale`).
-/

namespace ObjectTransfer

variable {P : Plugin}

def PluginCall.Reads : PluginCall → Prop
  | read _ _ => True
  | readKept _ => True
  | _ => False

/-- Whether these are the payloads whose chunks a reader holds. -/
structure Reading.Gathered (r : Reading) (payloads : List Value) : Prop where
  chunks : payloads.map (·.member? "fileChunk") = r.chunks.reverse.map .ok
  more : ∀ v ∈ payloads, v ≠ .eof

theorem Reading.Gathered.resume {r r' : Reading} {payloads : List Value} {o : Outcome}
    (gathered : r.Gathered payloads) (again : r.resume o = .again r') :
    ∃ v, o = .ok v ∧ r'.Gathered (payloads ++ [v]) := by
  rw [Reading.resume.eq_def] at again
  split at again
  next => exact nomatch again
  next => split at again <;> exact nomatch again
  next v more =>
    split at again
    next chunk member =>
      cases again
      refine ⟨v, rfl, by simp [gathered.chunks, member], fun v' mem => ?_⟩
      rcases List.mem_append.mp mem with old | new
      · exact gathered.more v' old
      · exact List.mem_singleton.mp new ▸ more
    next => exact nomatch again

theorem Reading.resume_of_something (r : Reading) {v : Value} (more : v ≠ .eof)
    (something : v.isNothing = false) :
    r.resume (.ok v) = .again ⟨v.member "fileChunk" :: r.chunks⟩ := by
  cases v with
  | eof => exact absurd rfl more
  | undefined | null => exact nomatch something
  | _ => rfl

/-- A call that reads what a stream brings. -/
structure Fetch where
  call : Nat
  stream : StreamId

namespace Fetch

def half (d : Fetch) : HalfId := ⟨d.stream, .responses⟩

structure Known (d : Fetch) (s : Scene P) : Prop where
  reads : ∃ c : PluginCall, .called d.call (.plugin c) ∈ s.events ∧ c.Reads
  uses : Event.Uses s.events d.call d.stream
  kind : s.kindOf d.stream = .download

/-- Whether no other call uses the client of the stream. -/
def Sole (d : Fetch) (s : Scene P) : Prop := ∀ n, Event.Uses s.events n d.stream → n = d.call

theorem Sole.of_owns {s : Scene P} {d : Fetch} (orderly : s.Orderly)
    (owns : Event.Owns s.events d.call d.stream) : d.Sole s := by
  rintro n (⟨opened, -⟩ | borrows)
  · exact orderly.openedBy opened owns.opened
  · exact absurd borrows (orderly.not_borrows owns)

def thread (d : Fetch) (r : Reading) (st : Stage) : Thread P :=
  ⟨st, [.reading d.stream r], .call d.call⟩

/-- What a reader gathered at a stage. -/
def Tale (s : Scene P) (d : Fetch) (r : Reading) (st : Stage) : Prop :=
  ∃ payloads, r.Gathered payloads ∧ s.heard d.half = payloads.map .ok ++ st.noted?.toList

/-- Whether a reader took note of what was received as its stage went on. -/
def Goes (s s' : Scene P) (d : Fetch) (r : Reading) (st : Stage) (ths : List (Thread P)) : Prop :=
  ∃ st' news, ths = [d.thread r st'] ∧ s'.heard d.half = s.heard d.half ++ news ∧
    st'.noted?.toList = st.noted?.toList ++ news

inductive Ended (s : Scene P) (d : Fetch) (o : Outcome) : Prop where
  | intro {r : Reading} {payloads last} : r.Gathered payloads →
    s.heard d.half = payloads.map .ok ++ [last] → (Stage.bound last).Receives s d.half →
    r.resume last = .done o → Ended s d o

variable {s s' : Scene P} {d : Fetch} {r : Reading} {st st' : Stage}

theorem reader_receives (cast : s.Cast) (kind : s.kindOf d.stream = .download)
    (mem : d.thread r st ∈ s.threads) :
    st = .entering d.stream .client .receive ∨ st.Receives s d.half := by
  have proper := cast _ mem
  rw [thread] at proper
  cases proper with
  | reader _ _ inCall =>
      refine inCall.imp_right fun hasStage => ?_
      rw [kind] at hasStage
      cases hasStage with
      | receives receives => exact receives

theorem reader_wants (cast : s.Cast) (kind : s.kindOf d.stream = .download)
    (mem : d.thread r st ∈ s.threads) (parked : st.IsParked) : st = .wanting d.half := by
  rcases reader_receives cast kind mem with rfl | receives
  · exact parked.elim
  · cases receives with
    | wanting => rfl
    | _ => exact parked.elim

/-- Nobody but the call that reads receives what the stream brings. -/
theorem Sole.hears (sole : d.Sole s) (cast : s.Cast) {th : Thread P} (mem : th ∈ s.threads)
    (hears : th.stage.Hears d.half) : th.owner.name? = some (.inl d.call) := by
  obtain ⟨-, role, m, side, calls⟩ := cast.hears mem hears
  cases role with
  | server => exact nomatch (show Side.responses = .requests from side)
  | client =>
      obtain ⟨n, named, uses⟩ := calls.uses
      exact sole n uses ▸ named

/-- What becomes of the thread of a reader. -/
theorem becomes {es ts ths} (sole : d.Sole s) (cast : s.Cast) (owned : s.Owned)
    (kind : s.kindOf d.stream = .download) (mem : d.thread r st ∈ s.threads)
    (events : s'.events = es ++ s.events)
    (becomes : Scene.Becomes s s' es ts (d.thread r st) ths) :
    d.Goes s s' r st ths ∨
      ∃ o, st = .bound o ∧ ths = [(r.resume o).thread d.stream [] (.call d.call)] ∧
        s'.heard d.half = s.heard d.half := by
  have inCall : st.InCall s d.stream .client .receive := by
    have proper := cast _ mem
    cases proper with
    | reader _ _ inCall => exact inCall
  have entry : Method.receive.entry (s.kindOf d.stream) .client = .receives .responses := by
    rw [kind]
    rfl
  rcases becomes.receiver events owned rfl (fun _ inside => sole.hears cast inside)
    inCall entry with
    ⟨st', news, rfl, -, heard, noted⟩ | ⟨o, bound, turns, heard⟩
  · exact .inl ⟨st', news, rfl, heard, noted⟩
  · cases turns
    exact .inr ⟨_, rfl, rfl, heard⟩

/-! ## Accounts -/

/-- What became of a call that reads: its reader holds what it received, or it ended. -/
inductive Account (s : Scene P) (d : Fetch) : Prop where
  | reading {r : Reading} {st : Stage} : d.thread r st ∈ s.threads → d.Tale s r st → Account s d
  | finished {o} : s.Over d.call o → d.Ended s o → Account s d

theorem Sole.before {t : Scene P} (sole : d.Sole s) (later : Scene.Later t s) : d.Sole t :=
  fun n uses => sole n (uses.later later.events)

theorem Ended.later {o} (ended : d.Ended s o) (lt : d.stream < s.kinds.length)
    (later : Scene.Later s s') (same : s'.heard d.half = s.heard d.half) : d.Ended s' o := by
  obtain ⟨gathered, heard, receives, result⟩ := ended
  exact ⟨gathered, same.trans heard, later.receives lt receives, result⟩

theorem Account.step (account : d.Account s) (sole : d.Sole s) (orderly : s.Orderly)
    (cast : s.Cast) (owned : s.Owned) (kind : s.kindOf d.stream = .download)
    (uses : Event.Uses s.events d.call d.stream) (step : Scene.Step s s') : d.Account s' := by
  have later := step.later
  obtain ⟨below, lt⟩ := orderly.uses_lt uses
  cases account with
  | @reading r st mem tale =>
      obtain ⟨payloads, gathered, heard⟩ := tale
      obtain ⟨parts⟩ := step.parts
      obtain ⟨ths, becomes, results⟩ := parts.fate mem
      rcases d.becomes sole cast owned kind mem parts.events_eq becomes with
        ⟨st', news, rfl, heard', noted⟩ | ⟨o, rfl, rfl, heard'⟩
      · refine .reading (results _ List.mem_cons_self) ⟨payloads, gathered, ?_⟩
        rw [heard', heard, noted, List.append_assoc]
      · have mem' := results _ List.mem_cons_self
        have receives : (Stage.bound o).Receives s d.half :=
          (reader_receives cast kind mem).resolve_left nofun
        cases result : r.resume o with
        | again r' =>
            rw [result] at mem'
            obtain ⟨v, rfl, gathered'⟩ := gathered.resume result
            refine .reading mem' ⟨_, gathered', ?_⟩
            rw [heard', heard, List.map_append]
            exact (List.append_nil _).symm
        | done o' =>
            rw [result] at mem'
            exact .finished (.of_thread (owned.step step) mem')
              (Ended.later ⟨gathered, heard, receives, result⟩ lt later heard')
  | finished finished ended =>
      refine .finished (finished.step below step) (ended.later lt later ?_)
      obtain ⟨es, events, hears⟩ := step.receives
      refine Scene.heard_eq es events fun o mem => ?_
      obtain ⟨th, mem, hears⟩ := hears _ _ mem
      have named := sole.hears cast mem hears
      rw [finished.threads th mem named] at hears
      exact hears

theorem account (reachable : s.Reachable) (known : d.Known s) (sole : d.Sole s) : d.Account s := by
  obtain ⟨reads, uses, kind⟩ := known
  induction reachable with
  | refl =>
      obtain ⟨c, called, -⟩ := reads
      exact absurd called List.not_mem_nil
  | @tail s s' steps step ih =>
      have reached : s.Reachable := steps
      have before := sole.before step.later
      have nothing (new : d.call = s.calls) : s.heard d.half = [] := by
        refine List.eq_nil_iff_forall_not_mem.mpr fun o mem => ?_
        obtain ⟨n, used⟩ := (reached.received (Scene.mem_heard.mp mem)).2 rfl
        obtain rfl := before n used
        exact absurd (reached.orderly.uses_lt used).1 (new ▸ Nat.lt_irrefl _)
      have orderly := reached.orderly.step step
      obtain ⟨c, called, isRead⟩ := reads
      rcases step.usedBefore reached.orderly uses with
        old |
        ⟨new, ⟨c', name, names, kept, rfl⟩ | ⟨stream, c', kind', invocation, opens, keeps, rfl⟩⟩
      · have kindBefore := (step.later.kindOf (reached.orderly.uses_lt old).2).symm.trans kind
        obtain ⟨c', called'⟩ := old.called
        cases orderly.calledOnce called (step.later.mem called')
        exact (ih before ⟨c, called', isRead⟩ old kindBefore).step before reached.orderly
          reached.cast reached.owned kindBefore old step
      · have began : .called d.call (.plugin c') ∈ (s.begin c').events := by
          rw [new]
          exact List.mem_cons_self
        obtain rfl : c = c' := Call.plugin.inj (orderly.calledOnce called began)
        cases c with
        | readKept =>
            cases names
            have first : d.thread .start (.entering d.stream .client .receive) ∈
                (s.begin (.readKept name)).threads := by
              refine Multiset.mem_cons.mpr (.inl ?_)
              simp only [Scene.firstThread, kept, thread, new]
            refine .reading first ⟨[], ⟨rfl, (by rintro _ ⟨⟩)⟩, ?_⟩
            exact (Scene.heard_eq [_] rfl (by simp)).trans (nothing new)
        | read => cases names
        | write | openDownload | openUpload | method | holds | keys => exact isRead.elim
      · have began : .called d.call (.plugin c') ∈ (s.opened c' kind' invocation).events := by
          rw [new]
          exact List.mem_cons_of_mem _ List.mem_cons_self
        obtain rfl : c = c' := Call.plugin.inj (orderly.calledOnce called began)
        cases c with
        | read bucket key =>
            have first : d.thread .start (.entering d.stream .client .receive) ∈
                (s.opened (.read bucket key) kind' invocation).threads := by
              refine Multiset.mem_cons_of_mem (Multiset.mem_cons.mpr (.inl ?_))
              simp only [Scene.firstThread, thread, new, stream]
            refine .reading first ⟨[], ⟨rfl, (by rintro _ ⟨⟩)⟩, ?_⟩
            exact (Scene.heard_eq [_, _] rfl (by simp)).trans (nothing new)
        | readKept => cases opens
        | write | openDownload | openUpload | method | holds | keys => exact isRead.elim

end Fetch

end ObjectTransfer
