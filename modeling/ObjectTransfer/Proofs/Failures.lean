import ObjectTransfer.Proofs.Closings
import ObjectTransfer.Proofs.Quiet
import ObjectTransfer.Proofs.Readers
import ObjectTransfer.Scripted.Plugin

/-! # How failures of handlers are reported

A handler that fails has its failure delivered over the response half of its stream. As long as
nobody closes that half before, the failure passes there or keeps waiting to pass, so a reader does
not take the chunks that came before for all of the object (`Exchange.failure_reported`).
-/

namespace ObjectTransfer

variable {P : Plugin}

def HandlerTurn.Calls (turn : HandlerTurn P) (m : Method) : Prop :=
  ∃ next, (P.step turn.shared turn.state turn.outcome).2 = .call m next

def HandlerTurn.method? (turn : HandlerTurn P) : Option String :=
  match (P.step turn.shared turn.state turn.outcome).2 with
  | .call m _ => some m.name
  | _ => none

/-- Whether a thread serves a stream and does not know yet how the handler ended. -/
def Thread.Attends (th : Thread P) (i : StreamId) : Prop :=
  th.owner = .service i ∧ .serving i ∈ th.frames

variable {s s' : Scene P} {i : StreamId} {h : HalfId} {th th' : Thread P}

theorem Method.closes_download {m : Method} {side : Side}
    (entry : m.entry .download .server = .closes side) : m = .close := by
  have payload {parameter terminal relayed v} :
      Entry.ofPayload .responses parameter terminal relayed v ≠ .closes side := by
    unfold Entry.ofPayload
    split <;> rintro ⟨⟩
  have error {complaint relayed v} :
      Entry.ofError .responses complaint relayed v ≠ .closes side := by
    cases v <;> rintro ⟨⟩
  cases m with
  | close => rfl
  | send => exact absurd entry payload
  | fail => exact absurd entry error
  | sendRaw v =>
      simp only [Method.entry, Entry.ofRaw] at entry
      split at entry
      · cases entry
      · split at entry
        · exact absurd entry payload
        · exact absurd entry error
        · split at entry <;> cases entry
  | _ => cases entry

/-- Whether a stage leads to the entry of a method of a server. -/
def Stage.Enters (i : StreamId) (m : Method) : Stage → Prop
  | entering j role m' => j = i ∧ role = .server ∧ m' = m
  | closing _ next => next.Enters i m
  | _ => False

theorem Stage.Rests.not_enters {st : Stage} (rests : st.Rests) {m : Method} : ¬ st.Enters i m := by
  cases rests <;> exact id

theorem Stage.Goes.enters {st st' : Stage} (goes : st.Goes s' st') {m : Method}
    (enters : st'.Enters i m) : st.Enters i m ∨ ∃ f, m = .fail (.fault f) := by
  cases goes with
  | stay | shut => exact .inl enters
  | @note h m => rcases m with _ | v | f <;> exact enters.elim
  | want | ended | undelivered | take => exact enters.elim
  | deliver =>
      obtain ⟨-, -, rfl⟩ := enters
      exact .inr ⟨_, rfl⟩
  | @enter j role m' =>
      generalize m'.entry _ role = e at enters
      cases e with
      | sends | closesOpen =>
          simp only [Entry.stage] at enters
          split at enters <;> exact enters.elim
      | _ => exact enters.elim
  | @taken h m' terminal => cases terminal <;> exact enters.elim
  | release =>
      cases st with
      | wanting =>
          simp only [Stage.release] at enters
          split at enters <;> exact enters.elim
      | offering h' m' terminal =>
          simp only [Stage.release] at enters
          split at enters
          · cases terminal <;> exact enters.elim
          · exact enters.elim
      | _ => exact .inl enters
  | gate settled =>
      cases st with
      | waiting => exact absurd enters (Stage.Rests.waiting.goes (.gate settled)).not_enters
      | _ => exact .inl enters

theorem Thread.Turns.enters {ths es} (turns : th.Turns s ths es) (mem : th' ∈ ths) {m : Method}
    (enters : th'.stage.Enters i m) : ∃ o state fs w next,
      th = ⟨.bound o, .handling i state :: fs, w⟩ ∧ (P.step s.shared state o).2 = .call m next := by
  cases turns with
  | @handle o j state fs w =>
      generalize acts : (P.step s.shared state o).2 = act at mem
      cases act with
      | call m' next =>
          obtain rfl := List.mem_singleton.mp mem
          obtain ⟨rfl, -, rfl⟩ := enters
          exact ⟨o, state, fs, w, next, rfl, acts⟩
      | wait =>
          obtain rfl := List.mem_singleton.mp mem
          exact absurd enters (Stage.rests_ofGates _ _).not_enters
      | fork =>
          simp only [Act.threads, List.mem_cons, List.not_mem_nil, or_false] at mem
          rcases mem with rfl | rfl <;> exact enters.elim
      | _ =>
          obtain rfl := List.mem_singleton.mp mem
          exact enters.elim
  | @read o j r =>
      obtain rfl := List.mem_singleton.mp mem
      generalize r.resume o = next at enters
      cases next with
      | again => cases enters.2.1
      | done => exact enters.elim
  | @write o j k v =>
      obtain rfl := List.mem_singleton.mp mem
      generalize v.resume o = turn at enters
      obtain ⟨remarks, state, next⟩ := turn
      cases next with
      | waits => exact absurd enters (Stage.rests_ofGates _ _).not_enters
      | calls => cases enters.2.1
      | rests | done => exact enters.elim
  | @serve o =>
      obtain rfl := List.mem_singleton.mp mem
      cases o with
      | ok => exact enters.elim
      | error v =>
          simp only [served] at enters
          split at enters
          · exact enters.elim
          · split at enters <;> exact enters.elim
  | start | delivered =>
      obtain rfl := List.mem_singleton.mp mem
      exact enters.elim
  | follow =>
      obtain rfl := List.mem_singleton.mp mem
      exact absurd enters (Stage.rests_ofGates _ _).not_enters
  | settle => exact absurd mem List.not_mem_nil

namespace Thread.Proper

theorem runs_of_attends (proper : th.Proper s) (attends : th.Attends i)
    (closes : th.stage.Closes h) : th.Runs := by
  obtain ⟨owner, serving⟩ := attends
  cases proper with
  | starting | served => exact closes.elim
  | handler => exact .inr ⟨_, _, _, rfl⟩
  | beside | delivering | finishing | reader | writer | caller | finished => simp at serving

theorem attends_before (proper : th.Proper s) {ths es} (turns : th.Turns s ths es) (mem : th' ∈ ths)
    (owner : th.owner = .service i) (attends : th'.Attends i) : th.Attends i := by
  obtain ⟨-, serving⟩ := attends
  refine ⟨owner, ?_⟩
  cases turns with
  | start =>
      cases owner
      exact List.mem_cons_self
  | handle =>
      cases proper with
      | handler =>
          cases owner
          exact List.mem_cons_of_mem _ List.mem_cons_self
      | beside => exact nomatch owner
  | serve =>
      cases owner
      cases proper
      exact List.mem_cons_self
  | delivered =>
      obtain rfl := List.mem_singleton.mp mem
      cases proper
      exact absurd serving List.not_mem_nil
  | read | write =>
      cases proper
      exact nomatch owner
  | follow => cases proper
  | settle => exact absurd mem List.not_mem_nil

end Thread.Proper

namespace Scene

/-- Whether the handler of a stream has not come to an end, or its service is still to learn of it.
-/
def Attending (s : Scene P) (i : StreamId) : Prop := ∃ th ∈ s.threads, th.Attends i

theorem Attending.before (attending : s'.Attending i) (lt : i < s.kinds.length) (cast : s.Cast)
    (step : Step s s') : s.Attending i := by
  obtain ⟨th', mem, attends⟩ := attending
  obtain ⟨th, old, owner, ⟨stage, rfl, goes⟩ | ⟨ths, es, turns, mem⟩⟩ :=
    step.served lt mem attends.1
  · exact ⟨th, old, attends⟩
  · exact ⟨th, old, (cast th old).attends_before turns mem owner attends⟩

theorem Becomes.turned {es ts ths o state fs w}
    (becomes : Becomes s s' es ts ⟨.bound o, .handling i state :: fs, w⟩ ths)
    (differs : ∀ st, ths ≠ [⟨.bound st, .handling i state :: fs, w⟩]) :
    ts = [⟨i, state, o, s.shared⟩] := by
  cases becomes with
  | aside | released | gate => exact absurd rfl (differs o)
  | handle _ turns => exact turns
  | solo solo => cases solo

/-- A method of a server is entered because a handler called it, or to deliver a failure. -/
theorem Reachable.enters (reachable : s.Reachable) (mem : th ∈ s.threads) {m : Method}
    (enters : th.stage.Enters i m) :
    (∃ turn ∈ s.turns, turn.stream = i ∧ turn.Calls m) ∨ ∃ f, m = .fail (.fault f) := by
  induction reachable generalizing th with
  | refl => exact absurd mem (Multiset.notMem_zero th)
  | @tail s s' steps step ih =>
      obtain ⟨parts⟩ := step.parts
      rcases parts.origin mem with fresh | ⟨th, old, ths, becomes, mem⟩
      · rcases parts.enters.cases fresh with ⟨label, rfl⟩ | ⟨c, rfl⟩ | ⟨invocation, rfl⟩
        · exact enters.elim
        · rcases s.firstThread_stage c with ⟨o, stage⟩ | ⟨j, m', stage⟩ <;> rw [stage] at enters
          · exact enters.elim
          · exact nomatch enters.2.1
        · exact enters.elim
      · rcases becomes.cases parts.events_eq with ⟨st, rfl, goes⟩ | turns
        · obtain rfl := List.mem_singleton.mp mem
          rcases goes.enters enters with before | fails
          · refine (ih old before).imp_left ?_
            rintro ⟨turn, inside, known⟩
            exact ⟨turn, step.later.turns.subset inside, known⟩
          · exact .inr fails
        · obtain ⟨o, state, fs, w, next, rfl, acts⟩ := turns.enters mem enters
          have took := becomes.turned fun st same => by
            rw [same, List.mem_singleton] at mem
            rw [mem] at enters
            exact enters
          refine .inl ⟨⟨i, state, o, s.shared⟩, ?_, rfl, next, acts⟩
          rw [parts.turns_eq, took]
          exact List.mem_cons_self

/-- Whether no handler closed a stream by a call of its own. -/
def Unclosed (s : Scene P) (i : StreamId) : Prop :=
  ∀ turn ∈ s.turns, turn.stream = i → ¬ turn.Calls .close

theorem Unclosed.before (unclosed : s'.Unclosed i) (later : Later s s') : s.Unclosed i :=
  fun turn mem => unclosed turn (later.turns.subset mem)

theorem Reachable.not_closing (reachable : s.Reachable) (unclosed : s.Unclosed i) {fs w} :
    ⟨.entering i .server .close, fs, w⟩ ∉ s.threads := by
  intro mem
  rcases reachable.enters mem ⟨rfl, rfl, rfl⟩ with ⟨turn, inside, stream, calls⟩ | ⟨f, fails⟩
  · exact unclosed turn inside stream calls
  · exact nomatch fails

end Scene

/-! ## Services that deliver a failure -/

/-- The service of a stream until the failure of its handler passes. -/
inductive Thread.Pledges (i : StreamId) (f : Fault) : Thread P → Prop where
  | told {v : Value} : v.isStreamClosed = false → v.toFault? = .ok f →
    Pledges i f ⟨.bound (.error v), [.serving i], .service i⟩
  | closing : Pledges i f ⟨.closing ⟨i, .requests⟩ (.delivering i f), [.delivering i], .service i⟩
  | delivering : Pledges i f ⟨.delivering i f, [.delivering i], .service i⟩
  | entering : Pledges i f ⟨.entering i .server (.fail (.fault f)), [.delivering i], .service i⟩
  | offering :
      Pledges i f ⟨.offering ⟨i, .responses⟩ (.failure f) true, [.delivering i], .service i⟩

variable {f : Fault}

namespace Thread.Pledges

theorem owner (pledges : th.Pledges i f) : th.owner = .service i := by
  cases pledges <;> rfl

theorem not_closes (pledges : th.Pledges i f) : ¬ th.stage.Closes ⟨i, .responses⟩ := by
  cases pledges with
  | closing =>
      rintro (same | closes)
      · exact nomatch congrArg HalfId.side same
      · exact closes
  | _ => exact id

theorem goes (pledges : th.Pledges i f) {st : Stage} (goes : th.stage.Goes s' st)
    (isOpen : s'.closed ⟨i, .responses⟩ = false) :
    Pledges i f { th with stage := st } ∨ .handed ⟨i, .responses⟩ (.failure f) ∈ s'.events := by
  cases pledges with
  | told known fault =>
      rw [Stage.bound_goes goes]
      exact .inl (.told known fault)
  | closing =>
      cases goes with
      | shut => exact .inl .delivering
      | _ => exact .inl .closing
  | delivering =>
      cases goes with
      | undelivered closed => exact nomatch isOpen.symm.trans closed
      | deliver => exact .inl .entering
      | _ => exact .inl .delivering
  | entering =>
      cases goes with
      | enter =>
          obtain ⟨relayed, entry⟩ := Method.entry_fail (s'.kindOf i) f
          rw [entry, Entry.stage, isOpen]
          exact .inl .offering
      | _ => exact .inl .entering
  | offering =>
      cases goes with
      | @release h _ closed =>
          have other : (⟨i, .responses⟩ : HalfId) ≠ h := fun same => by
            simp [same, closed] at isOpen
          have stays : (Stage.offering ⟨i, .responses⟩ (.failure f) true).release h =
            .offering ⟨i, .responses⟩ (.failure f) true := if_neg other
          rw [stays]
          exact .inl .offering
      | taken handed => exact .inr handed
      | _ => exact .inl .offering

theorem step (pledges : th.Pledges i f) (mem : th ∈ s.threads) (step : Scene.Step s s')
    (isOpen : s'.closed ⟨i, .responses⟩ = false) :
    (∃ th' ∈ s'.threads, th'.Pledges i f) ∨ .handed ⟨i, .responses⟩ (.failure f) ∈ s'.events := by
  obtain ⟨parts⟩ := step.parts
  obtain ⟨ths, becomes, results⟩ := parts.fate mem
  rcases becomes.cases parts.events_eq with ⟨st, rfl, goes⟩ | turns
  · exact (pledges.goes goes isOpen).imp_left fun pledges =>
      ⟨_, results _ List.mem_cons_self, pledges⟩
  · generalize parts.events = es at turns
    cases pledges with
    | told known fault =>
        cases turns with
        | @serve o =>
            refine .inl ⟨_, results _ List.mem_cons_self, ?_⟩
            simp only [served, known, fault]
            exact .closing
    | closing | delivering | entering | offering => cases turns

end Thread.Pledges

/-! ## Downloads with one reader -/

theorem Reading.resume_ok {r : Reading} {o : Outcome} {v : Value}
    (done : r.resume o = .done (.ok v)) : o = .ok .eof := by
  rw [Reading.resume.eq_def] at done
  split at done
  next => cases done
  next => rfl
  next => split at done <;> cases done

namespace Fetch

variable {d : Fetch}

theorem Known.before (known : d.Known s') (orderly : s'.Orderly) (later : Scene.Later s s')
    (reached : s.Orderly) (uses : Event.Uses s.events d.call d.stream) : d.Known s := by
  obtain ⟨c, called, reads⟩ := known.reads
  obtain ⟨c', called'⟩ := uses.called
  cases orderly.calledOnce called (later.mem called')
  exact ⟨⟨c, called', reads⟩, uses, (later.kindOf (reached.uses_lt uses).2).symm.trans known.kind⟩

/-- Where one call reads, only a handler enters a method that closes the stream. -/
theorem closing (reachable : s.Reachable) (sole : d.Sole s)
    (known : Event.Uses s.events d.call d.stream → d.Known s)
    (kind : s.kindOf d.stream = .download) {j role m fs w}
    (mem : ⟨.entering j role m, fs, w⟩ ∈ s.threads) {closed}
    (closes : ((m.entry (s.kindOf j) role).stage closed j).Closes d.half) :
    j = d.stream ∧ role = .server ∧ m = .close := by
  have fits := m.entry_fits (s.kindOf j) role
  rcases Entry.closes_stage closes with ⟨side, same, entry | entry⟩ | ⟨same, -⟩
  · obtain ⟨rfl, rfl⟩ := HalfId.mk.inj same
    rw [entry] at fits
    obtain ⟨-, rfl⟩ := fits
    rw [kind] at entry
    exact ⟨rfl, rfl, Method.closes_download entry⟩
  · obtain ⟨rfl, rfl⟩ := HalfId.mk.inj same
    rw [entry] at fits
    obtain rfl : role = .client := fits
    obtain ⟨i, role', m', -, calls, inCall⟩ := (reachable.cast _ mem).calls trivial
    obtain ⟨rfl, rfl, rfl⟩ := inCall.entered
    obtain ⟨n, named, uses⟩ := calls.uses
    obtain rfl := sole n uses
    cases account reachable (known uses) sole with
    | reading mem' =>
        cases reachable.owned.eq mem mem' named rfl
        rcases reader_receives reachable.cast kind mem with stage | receives
        · cases stage
          rw [kind] at entry
          exact nomatch entry
        · cases receives
    | finished finished => exact nomatch congrArg Thread.stage (finished.threads _ mem named)
  · exact nomatch congrArg HalfId.side same

/-- Where one call reads, whoever comes to close the stream was about to before, or a failure
passed, or it is the service after its handler, or a handler closed it. -/
theorem closes (reachable : s.Reachable) (sole : d.Sole s)
    (known : Event.Uses s.events d.call d.stream → d.Known s)
    (kind : s.kindOf d.stream = .download) (lt : d.stream < s.kinds.length)
    (step : Scene.Step s s') (mem : th ∈ s'.threads) (closes : th.stage.Closes d.half) :
    s.Doomed d.half ∨ (∃ f, .handed d.half (.failure f) ∈ s'.events) ∨
      (th.owner = .service d.stream ∧ ¬ th.Runs) ∨
      ∃ fs w, ⟨.entering d.stream .server .close, fs, w⟩ ∈ s.threads := by
  obtain ⟨parts⟩ := step.parts
  rcases parts.origin mem with fresh | ⟨th, old, ths, becomes, mem⟩
  · exact absurd closes (parts.enters.not_closes fresh)
  have proper := reachable.cast th old
  rcases becomes.cases parts.events_eq with ⟨stage, rfl, goes⟩ | turns
  · obtain rfl := List.mem_singleton.mp mem
    obtain ⟨st, fs, w⟩ := th
    rcases goes.dooms closes with before | closed | dooms
    · exact .inl (.of_thread lt old before)
    · exact .inl (step.doomed lt closed)
    · cases dooms with
      | taken handed => exact .inr (.inl ⟨_, handed⟩)
      | @sent m handed =>
          obtain ⟨i, role, m', -, -, inCall⟩ := proper.calls trivial
          obtain ⟨same, final, -⟩ := inCall.offering
          obtain ⟨rfl, -⟩ := HalfId.mk.inj same
          cases m with
          | failure f => exact .inr (.inl ⟨f, handed⟩)
          | payload =>
              obtain ⟨upload, -⟩ := final.mp rfl
              exact nomatch kind.symm.trans upload
      | @entered j role m entry =>
          obtain ⟨i, role', m', lt', -, inCall⟩ := proper.calls trivial
          obtain ⟨rfl, -, -⟩ := inCall.entered
          rw [step.later.kindOf lt'] at entry
          obtain ⟨rfl, rfl, rfl⟩ := closing reachable sole known kind old entry
          exact .inr (.inr (.inr ⟨fs, w, old⟩))
  · exact .inr (.inr (.inl (proper.closes_after turns mem closes)))

/-- While the handler runs, and until its service learns how it ended, the stream is closed only
after a failure passed. -/
theorem failed_of_doomed (reachable : s.Reachable) (lt : d.stream < s.kinds.length)
    (sole : d.Sole s) (known : Event.Uses s.events d.call d.stream → d.Known s)
    (kind : s.kindOf d.stream = .download) (unclosed : s.Unclosed d.stream)
    (attending : s.Attending d.stream) (doomed : s.Doomed d.half) :
    ∃ f, .handed d.half (.failure f) ∈ s.events := by
  induction reachable with
  | refl => exact absurd lt (Nat.not_lt_zero _)
  | @tail s s' steps step ih =>
      have reached : s.Reachable := steps
      have reached' : s'.Reachable := steps.tail step
      have later := step.later
      obtain ⟨parts⟩ := step.parts
      rcases parts.enters.service lt with old | ⟨stream, c, kind', invocation, -, rfl⟩
      · have kindBefore := (later.kindOf old).symm.trans kind
        have soleBefore := sole.before later
        have unclosedBefore := unclosed.before later
        have knownBefore (uses : Event.Uses s.events d.call d.stream) : d.Known s :=
          (known (uses.later later.events)).before reached'.orderly later reached.orderly uses
        have before (doomed : s.Doomed d.half) : ∃ f, .handed d.half (.failure f) ∈ s'.events := by
          obtain ⟨f, handed⟩ := ih old soleBefore knownBefore kindBefore unclosedBefore
            (attending.before old reached.cast step) doomed
          exact ⟨f, later.mem handed⟩
        -- A half that is closed now was doomed before; a thread may lead there only since this
        -- step.
        rcases doomed.2 with closed | ⟨th, mem, closing⟩
        · exact before (step.doomed old closed)
        · rcases d.closes reached soleBefore knownBefore kindBefore old step mem closing with
            doomed | failed | ⟨owner, still⟩ | ⟨fs, w, closes⟩
          · exact before doomed
          · exact failed
          · obtain ⟨th', mem', attends⟩ := attending
            obtain rfl := reached'.owned.eq_service mem mem' owner attends.1
            exact absurd ((reached'.cast th mem).runs_of_attends attends closing) still
          · exact absurd closes (reached.not_closing unclosedBefore)
      · rcases doomed.2 with closed | ⟨th, mem, closing⟩
        · have isOpen : (s.opened c kind' invocation).closed d.half = false :=
            (if_pos stream).trans (by cases kind' <;> rfl)
          exact nomatch isOpen.symm.trans closed
        · rcases Multiset.mem_cons.mp mem with rfl | mem
          · exact closing.elim
          rcases Multiset.mem_cons.mp mem with rfl | mem
          · rcases s.firstThread_stage c with ⟨o, stage⟩ | ⟨j, m', stage⟩ <;>
              rw [stage] at closing <;>
              exact closing.elim
          · have below := (reached.cast th mem).closes_lt closing
            exact absurd below (stream ▸ Nat.lt_irrefl _)

/-- What is left to happen after a handler failed: its failure passed, or its service is to deliver
it and nobody is about to close the stream. -/
def Failing (s : Scene P) (d : Fetch) : Prop :=
  (∃ f, .handed d.half (.failure f) ∈ s.events) ∨
    ¬ s.Doomed d.half ∧ ∃ f, ∃ th ∈ s.threads, th.Pledges d.stream f

theorem Failing.step (failing : d.Failing s) (reachable : s.Reachable)
    (lt : d.stream < s.kinds.length) (sole : d.Sole s)
    (known : Event.Uses s.events d.call d.stream → d.Known s) (kind : s.kindOf d.stream = .download)
    (unclosed : s.Unclosed d.stream)
    (step : Scene.Step s s') : d.Failing s' := by
  rcases failing with ⟨f, handed⟩ | ⟨undoomed, f, th, mem, pledges⟩
  · exact .inl ⟨f, step.later.mem handed⟩
  have isOpen : s'.closed d.half = false := by
    rw [← Bool.not_eq_true]
    exact fun closed => undoomed (step.doomed lt closed)
  rcases pledges.step mem step isOpen with ⟨th', mem', pledges'⟩ | handed
  · by_cases failed : ∃ f, .handed d.half (.failure f) ∈ s'.events
    · exact .inl failed
    · refine .inr ⟨fun doomed => ?_, f, th', mem', pledges'⟩
      rcases doomed.2 with closed | ⟨other, inside, closing⟩
      · exact nomatch isOpen.symm.trans closed
      · rcases d.closes reachable sole known kind lt step inside closing with
          doomed | handed | ⟨owner, -⟩ | ⟨fs, w, closes⟩
        · exact undoomed doomed
        · exact failed handed
        · obtain rfl := (reachable.owned.step step).eq_service inside mem' owner pledges'.owner
          exact pledges'.not_closes closing
        · exact absurd closes (reachable.not_closing unclosed)
  · exact .inl ⟨f, handed⟩

theorem failing {t : Scene P} (reachable : t.Reachable) (lt : d.stream < t.kinds.length)
    {v : Value} {f : Fault}
    (failed : ⟨.bound (.error v), [.serving d.stream], .service d.stream⟩ ∈ t.threads)
    (apart : v.isStreamClosed = false) (fault : v.toFault? = .ok f) (steps : Scene.Steps t s)
    (sole : d.Sole s) (known : Event.Uses s.events d.call d.stream → d.Known s)
    (kind : s.kindOf d.stream = .download) (unclosed : s.Unclosed d.stream) : d.Failing s := by
  induction steps with
  | refl =>
      by_cases doomed : t.Doomed d.half
      · have attending : t.Attending d.stream := ⟨_, failed, rfl, List.mem_cons_self⟩
        exact .inl (failed_of_doomed reachable lt sole known kind unclosed attending doomed)
      · exact .inr ⟨doomed, f, _, failed, .told apart fault⟩
  | @tail s s' steps step ih =>
      have reached : s.Reachable := reachable.trans steps
      have later := step.later
      have lt' := (Scene.Steps.later steps).lt lt
      have kindBefore := (later.kindOf lt').symm.trans kind
      have knownBefore (uses : Event.Uses s.events d.call d.stream) : d.Known s :=
        (known (uses.later later.events)).before (reached.orderly.step step) later
        reached.orderly uses
      refine Failing.step ?_ reached lt' (sole.before later) knownBefore kindBefore
        (unclosed.before later) step
      exact ih (sole.before later) knownBefore kindBefore (unclosed.before later)

theorem ledger (reachable : s.Reachable) (lt : d.stream < s.kinds.length) (sole : d.Sole s) :
    s.Ledger d.half True :=
  reachable.ledger lt
    (fun _ reached steps => .of_name reached.owned fun _ mem hears =>
      (sole.before (Scene.Steps.later steps)).hears reached.cast mem hears)
    fun _ _ _ _ _ _ _ => trivial

/-- A reader that is done heard of all that passed. -/
theorem heard_of_over (reachable : s.Reachable) (lt : d.stream < s.kinds.length) (sole : d.Sole s)
    {o} (finished : s.Over d.call o) :
    ∃ ends, (0 < ends → s.closed d.half = true) ∧
      s.heard d.half = (s.passed d.half).map Message.outcome ++ List.replicate ends (.ok .eof) := by
  have nobody : Scene.given d.half s.threads = 0 := by
    refine Scene.given_eq_zero fun th mem => Stage.given?_of_not_hears fun hears => ?_
    rw [finished.threads th mem (sole.hears reachable.cast mem hears)] at hears
    exact hears
  obtain ⟨ends, why, tally⟩ := (ledger reachable lt sole).of_none nobody
  exact ⟨ends, fun some => (why some).1, tally⟩

theorem Ended.rejected {o} (ended : d.Ended s o) (reachable : s.Reachable)
    (lt : d.stream < s.kinds.length) (sole : d.Sole s) (finished : s.Over d.call o)
    (failing : d.Failing s) (marker : .handed d.half (.payload .eof) ∉ s.events) :
    ∃ v, o = .error v := by
  cases o with
  | error v => exact ⟨v, rfl⟩
  | ok v =>
      obtain ⟨gathered, heard, receives, result⟩ := ended
      cases Reading.resume_ok result
      have closed : s.closed d.half = true := by
        cases receives with
        | eof closed => exact closed
        | payload handed => exact absurd handed marker
      obtain ⟨f, handed⟩ := failing.resolve_right fun pledges => pledges.1 ⟨lt, .inl closed⟩
      obtain ⟨ends, -, tally⟩ := heard_of_over reachable lt sole finished
      have told : .error (.fault f) ∈ s.heard d.half := by
        rw [tally]
        exact List.mem_append_left _ (List.mem_map_of_mem (Scene.mem_passed.mpr handed))
      rw [heard] at told
      simp at told

end Fetch

namespace Exchange

variable {x y : Exchange P} {before after : List (HandlerTurn P)} {d : Fetch}

/-- When nothing can go on, a reader does not wait for a failure that is still to pass. -/
theorem not_waiting {turns} (history : History Command.Hosted (.empty P) x turns)
    (quiet : x.isQuiet = true)
    (failing : d.Failing (x.scene turns)) {r : Reading} :
    d.thread r (.wanting d.half) ∉ x.threads := by
  intro mem
  have wants := mem_half_threads mem (h := d.half) rfl
  rcases failing with ⟨f, handed⟩ | ⟨undoomed, f, th, inside, pledges⟩
  · obtain ⟨-, -, role, -, doomed⟩ := history.reachable.seals _ _ handed
    have isOpen := Half.channel_open (history.run.calm calm_empty |>.halves _).toGuarded wants
    exact nomatch isOpen.symm.trans ((quiet_scene quiet turns).closed (doomed trivial))
  · have parked := (quiet_scene quiet turns).parked th inside
    cases pledges with
    | offering => exact Half.not_both wants (mem_half_threads inside rfl)
    | _ => exact parked.elim

/-- A handler of a download fails with something that has a text and is no closure of a stream. If
one call alone reads the stream and the handler does not close it, nor sends the end marker as a
chunk, then the call does not resolve, and it rejected when nothing can go on. -/
theorem failure_reported (first : History Command.Hosted (.empty P) y before)
    (second : History Command.Hosted y x after) {v : Value} {f : Fault}
    (failed : ⟨.bound (.error v), [.serving d.stream], .service d.stream⟩ ∈ y.threads)
    (apart : v.isStreamClosed = false) (fault : v.toFault? = .ok f)
    (known : d.Known (x.scene (after ++ before))) (sole : d.Sole (x.scene (after ++ before)))
    (unclosed : ∀ turn ∈ after ++ before, turn.stream = d.stream → ¬ turn.Calls .close)
    (marker : .handed d.half (.payload .eof) ∉ x.journal) :
    (∀ so, .settled d.call so ∈ x.journal → ∃ v', so = .rejected v') ∧
      (x.isQuiet = true → ∃ v', .settled d.call (.rejected v') ∈ x.journal) := by
  have history := first.trans second
  have reachable := history.reachable
  have started := first.reachable
  have lt' : d.stream < (y.scene before).kinds.length := (started.cast _ failed).service_lt rfl
  obtain ⟨below, lt⟩ := reachable.orderly.uses_lt known.uses
  have failing : d.Failing (x.scene (after ++ before)) := by
    have steps := second.steps (first.run.calm calm_empty) before
    exact d.failing started lt' failed apart fault steps sole (fun _ => known) known.kind unclosed
  have ended {o} (finished : (x.scene (after ++ before)).Over d.call o)
      (ended : d.Ended (x.scene (after ++ before)) o) : ∃ v', o = .error v' := by
    refine ended.rejected reachable lt sole finished failing fun handed => marker ?_
    exact (mem_events rfl _).mp handed
  constructor
  · intro so settled
    have settled := (mem_events rfl (after ++ before)).mpr settled
    cases d.account reachable known sole with
    | reading mem =>
        exact absurd (Scene.mem_names.mpr ⟨_, mem, rfl⟩) (reachable.owned.settled settled).1
    | finished finished account =>
        obtain ⟨v', rfl⟩ := ended finished account
        exact ⟨v', finished.settled so settled⟩
  · intro quiet
    have parked := (quiet_scene quiet (after ++ before)).parked
    cases d.account reachable known sole with
    | @reading r st mem =>
        have waits : st = .wanting d.half := by
          have := parked _ mem
          rcases Fetch.reader_receives reachable.cast known.kind mem with rfl | receives
          · exact this.elim
          · cases receives with
            | wanting => rfl
            | _ => exact this.elim
        exact absurd (waits ▸ mem) (not_waiting history quiet failing)
    | finished finished account =>
        obtain ⟨v', rfl⟩ := ended finished account
        rcases reachable.owned.kept below with named | ⟨so, settled⟩
        · obtain ⟨th, mem, named⟩ := Scene.mem_names.mp named
          have := parked th mem
          rw [finished.threads th mem named] at this
          exact this.elim
        · rw [finished.settled so settled] at settled
          exact ⟨v', (mem_events rfl _).mp settled⟩

/-- A call that reads an object from a handler that sends a chunk and fails. -/
def brokenRead (v : Value) : Exchange (Scripted.plugin
    ⟨[[.calls (.send (.object [("fileChunk", .bytes [1])])), .throws v]], []⟩) :=
  (empty _).command (.call (.plugin (.read "b" "k")))

/-- Its handler fails, and the service is about to learn of it. -/
theorem brokenRead_told (v : Value) : ⟨.bound (.error v), [.serving 0], .service 0⟩ ∈
    ((brokenRead v).advance 21).threads := by
  have agenda : ((brokenRead v).advance 21).agenda =
    [.give (.error v) ⟨[.serving 0], .service 0⟩] := rfl
  have mem : ⟨.bound (.error v), [.serving 0], .service 0⟩ ∈
      ((brokenRead v).advance 21).agenda.flatMap Work.threads := by
    rw [agenda]
    exact List.mem_cons_self
  simp only [threads, Multiset.mem_add, Multiset.mem_coe]
  exact Or.inl (Or.inl (Or.inl mem))

/-- The read of it rejects, with that failure. -/
theorem brokenRead_rejects :
    .settled 0 (.rejected (.fault (.error "boom"))) ∈
      (((brokenRead (.text "boom")).advance 21).advance 79).journal ∧
    ∃ v, .settled 0 (.rejected v) ∈
      (((brokenRead (.text "boom")).advance 21).advance 79).journal := by
  have begun : Move Command.Hosted (empty _) (brokenRead (.text "boom")) := .command rfl trivial
  have first := (History.refl.step begun).trans (history_advance 21 _)
  have second : History Command.Hosted ((brokenRead (.text "boom")).advance 21) _ _ :=
    history_advance 79 _
  have called : .called 0 (.plugin (.read "b" "k")) ∈
    (((brokenRead (.text "boom")).advance 21).advance 79).journal :=
      List.mem_of_getElem? (i := 10) rfl
  have opened : .opened 0 0 ∈
    (((brokenRead (.text "boom")).advance 21).advance 79).journal :=
      List.mem_of_getElem? (i := 9) rfl
  have quiet : (((brokenRead (.text "boom")).advance 21).advance 79).isQuiet = true := rfl
  have history := first.trans second
  rw [← mem_events rfl] at called opened
  have owns : Event.Owns _ 0 0 := ⟨opened, called, rfl⟩
  have sole : Fetch.Sole ⟨0, 0⟩ _ := .of_owns history.reachable.orderly owns
  have kind : (((brokenRead (.text "boom")).advance 21).advance 79).kindOf 0 = .download := rfl
  have told := brokenRead_told (.text "boom")
  refine ⟨List.mem_of_getElem? (i := 0) rfl, (failure_reported (d := ⟨0, 0⟩) first second told rfl
    rfl ⟨⟨_, called, trivial⟩, .inl owns, (kindOf_scene _ _ _).trans kind⟩ sole ?_ ?_).2 quiet⟩
  · intro turn mem _ ⟨next, acts⟩
    have closes : turn.method? = some "close" := by
      rw [HandlerTurn.method?, acts]
      rfl
    have inside := List.mem_map_of_mem (f := HandlerTurn.method?) mem
    rw [closes] at inside
    have methods : some "close" ∈ [none, none, none, none, some "send", none] := inside
    simp at methods
  · intro handed
    have passed :
      ∃ f, (((brokenRead (.text "boom")).advance 21).advance 79).passed ⟨0, .responses⟩ =
      [.payload (.object [("fileChunk", .bytes [1])]), .failure f] := ⟨_, rfl⟩
    obtain ⟨f, passed⟩ := passed
    have inside : Message.payload .eof ∈
        (((brokenRead (.text "boom")).advance 21).advance 79).passed ⟨0, .responses⟩ := by
      rw [Exchange.passed, Event.mem_history]
      exact ⟨_, handed, Event.handedOn?_eq_some.mpr rfl⟩
    simp [passed] at inside

/-- A failure that says that the stream is closed is not reported. -/
theorem brokenRead_resolves :
    ⟨.bound (.error (.fault .streamClosed)), [.serving 0], .service 0⟩ ∈
      ((brokenRead (.fault .streamClosed)).advance 21).threads ∧
    (((brokenRead (.fault .streamClosed)).advance 21).half ⟨0, .responses⟩).closed = false ∧
    .settled 0 (.fulfilled (.bytes [1])) ∈
      (((brokenRead (.fault .streamClosed)).advance 21).advance 79).journal :=
  ⟨brokenRead_told _, rfl, List.mem_of_getElem? (i := 0) rfl⟩

end Exchange

end ObjectTransfer
