import ObjectTransfer.Proofs.Halves
import ObjectTransfer.Proofs.Scene

/-! # Operations and scenes

What the operations of an exchange do to its scene, one lemma for each operation. An operation on a
half with a guard that agrees with its channel is some steps of the thread that performs it.
-/

namespace ObjectTransfer

variable {P : Plugin}

/-- A half that closes only its channel, and whose guard agrees with it. -/
structure Half.Guarded (half : Half P) : Prop where
  closing : half.closing = .channel
  channel : half.channel.isClosed = half.closed

namespace Scene

def add (s : Scene P) (ths : List (Thread P)) : Scene P := { s with threads := ↑ths + s.threads }

def withThreads (s : Scene P) (threads : Multiset (Thread P)) : Scene P := { s with threads }

def note (s : Scene P) (es : List Event) : Scene P := { s with events := es ++ s.events }

def await (s : Scene P) (hooks : List Hook) : Scene P := { s with pending := ↑hooks + s.pending }

@[simp] theorem add_nil (s : Scene P) : s.add [] = s := by simp [add]

@[simp] theorem note_nil (s : Scene P) : s.note [] = s := rfl

@[simp] theorem await_nil (s : Scene P) : s.await [] = s := by simp [await]

theorem add_eq (s : Scene P) (ths : List (Thread P)) :
    s.add ths = s.withThreads (↑ths + s.threads) := rfl

theorem add_add (s : Scene P) (ths ths' : List (Thread P)) :
    (s.add ths).add ths' = s.add (ths' ++ ths) := by
  simp only [add, ← Multiset.coe_add, Multiset.add_assoc]

theorem Steps.of_eq {s s' : Scene P} (eq : s = s') : Steps s s' := eq ▸ .refl

theorem Solo.steps {s : Scene P} {th ths es} (solo : Solo s.kindOf s.closed s.gates th ths es) :
    Steps (s.add [th]) ((s.add ths).note es) :=
  .single (.solo (s := s.add [th]) (show _ = th ::ₘ s.threads from rfl) solo)

/-- A message passes from its sender to a receiver. -/
theorem meet_steps (s : Scene P) {h} (isOpen : s.closed h = false) (m terminal) (t u : Task P)
    (rest : Multiset (Thread P)) :
    Steps (s.withThreads (u.thread (.wanting h) ::ₘ t.thread (.offering h m terminal) ::ₘ rest))
      ((s.withThreads (u.thread (.received h (some m)) ::ₘ t.thread (.sent h terminal true) ::ₘ
        rest)).note [.handed h m]) :=
  .single (.meet rfl isOpen)

/-- A scene after a half closed, without the consequences for those who wait there. -/
def shut (s : Scene P) (h : HalfId) : Scene P :=
  { s with
    closed := Function.update s.closed h true
    hooks := Function.update s.hooks h []
    pending := ↑(s.hooks h) + s.pending
    events := .closed h :: s.events }

theorem close_steps (s : Scene P) {h} (isOpen : s.closed h = false) (th : Thread P)
    (rest : Multiset (Thread P)) :
    Steps (s.withThreads (th.move (.closing h) ::ₘ rest))
      ((s.shut h).withThreads (th ::ₘ rest.map (·.move (.release h)))) :=
  .single (.close rfl isOpen)

end Scene

namespace Exchange

/-! ## What the operations of an exchange do to its scene -/

@[simp] theorem threads_push (w : Work P) (x : Exchange P) :
    (x.push w).threads = ↑w.threads + x.threads := by
  simp only [threads, push, List.flatMap_cons, ← Multiset.coe_add, Multiset.add_assoc, parked]

@[simp] theorem threads_wake (w : Wake P) (x : Exchange P) :
    (x.wake w).threads = ↑w.threads + x.threads := by
  simp only [threads, wake, List.flatMap_append, List.flatMap_singleton, ← Multiset.coe_add, parked]
  abel

theorem mem_threads_agenda {x : Exchange P} {w : Work P} {th : Thread P} (mem : w ∈ x.agenda)
    (inside : th ∈ w.threads) : th ∈ x.threads := by
  have mem : th ∈ x.agenda.flatMap Work.threads := List.mem_flatMap.mpr ⟨w, mem, inside⟩
  simp only [threads, Multiset.mem_add, Multiset.mem_coe]
  exact .inl (.inl (.inl mem))

theorem scene_push (w : Work P) (x : Exchange P) (ts) :
    (x.push w).scene ts = ((x.scene ts).add w.threads).await w.hooks := by
  simp only [scene, Scene.add, Scene.await, threads_push]
  simp only [push, half, List.flatMap_cons, ← Multiset.coe_add, Multiset.add_assoc]
  rfl

theorem scene_wake (w : Wake P) (x : Exchange P) (ts) :
    (x.wake w).scene ts = ((x.scene ts).add w.threads).await w.hooks := by
  simp only [scene, Scene.add, Scene.await, threads_wake]
  simp only [wake, half, List.flatMap_append, List.flatMap_singleton, ← Multiset.coe_add]
  congr 1
  abel

theorem scene_record {e : Event} (shown : e.isLogged = false) (x : Exchange P) (ts) :
    (x.record e).scene ts = (x.scene ts).note [e] := by
  simp only [scene, Scene.note, record, List.filter_cons, shown]
  rfl

@[simp] theorem threads_scene (x : Exchange P) (ts) : (x.scene ts).threads = x.threads := rfl

@[simp] theorem scene_log (level text value) (x : Exchange P) (ts) :
    (x.log level text value).scene ts = x.scene ts := rfl

theorem scene_settle (w : Owner) (o : Outcome) (x : Exchange P) (ts) :
    (x.settle w o).scene ts = (x.scene ts).note (w.events o) := by
  cases w with
  | call | plain => exact scene_record rfl x ts
  | notice => cases o <;> rfl
  | service i =>
      cases o with
      | ok => rfl
      | error v =>
          simp only [settle]
          split <;> rfl
  | nobody => rfl

theorem settle_steps (w : Owner) (o : Outcome) (x : Exchange P) (ts) :
    Scene.Steps ((x.scene ts).add [⟨.bound o, [], w⟩]) ((x.settle w o).scene ts) := by
  have settles := Scene.Solo.steps (s := x.scene ts) (.settle (o := o) (w := w))
  rw [Scene.add_nil] at settles
  rw [scene_settle]
  exact settles

/-- The scene with another half: only what concerns the half changes. -/
theorem scene_modifyHalf {x : Exchange P} {h : HalfId} (has : x.Has h) (ts) :
    ∃ rest : Multiset (Thread P), x.threads = ↑((x.half h).threads h) + rest ∧
      (∀ th ∈ rest, ¬ th.stage.ParkedAt h) ∧
      ∀ f : Half P → Half P, (x.modifyHalf h f).scene ts = { x.scene ts with
        threads := ↑((f (x.half h)).threads h) + rest
        closed := Function.update (x.scene ts).closed h (f (x.half h)).closed
        hooks := Function.update (x.scene ts).hooks h
          (if (f (x.half h)).closed then [] else (f (x.half h)).hooks) } := by
  obtain ⟨rest, before, elsewhere, after⟩ := threads_modifyHalf has
  refine ⟨rest, before, elsewhere, fun f => ?_⟩
  have kinds : (x.modifyHalf h f).streams.map (·.kind) = x.streams.map (·.kind) := by
    simp only [modifyHalf]
    refine List.ext_getElem? fun j => ?_
    rw [List.getElem?_map, List.getElem?_map, List.getElem?_modify]
    cases x.streams[j]? with
    | none => rfl
    | some s => cases h with | mk i side => cases side <;> split <;> rfl
  have closed : (fun h' => ((x.modifyHalf h f).half h').closed) =
      Function.update (x.scene ts).closed h (f (x.half h)).closed := by
    funext h'
    by_cases same : h' = h
    · rw [same, Function.update_self, half_modifyHalf has]
    · rw [Function.update_of_ne same, half_modifyHalf_of_ne same]
      rfl
  have hooks : (fun h' => if ((x.modifyHalf h f).half h').closed then []
      else ((x.modifyHalf h f).half h').hooks) =
      Function.update (x.scene ts).hooks h
        (if (f (x.half h)).closed then [] else (f (x.half h)).hooks) := by
    funext h'
    by_cases same : h' = h
    · rw [same, Function.update_self, half_modifyHalf has]
    · rw [Function.update_of_ne same, half_modifyHalf_of_ne same]
      rfl
  simp only [scene, after f, kinds, closed, hooks]
  rfl

theorem scene_setChannel {x : Exchange P} {h : HalfId} (has : x.Has h) (ts) :
    ∃ rest : Multiset (Thread P), x.threads = ↑((x.half h).threads h) + rest ∧
      (∀ th ∈ rest, ¬ th.stage.ParkedAt h) ∧
      ∀ c, (x.setChannel h c).scene ts =
        (x.scene ts).withThreads (↑(Half.threads h { x.half h with channel := c }) + rest) := by
  obtain ⟨rest, before, elsewhere, after⟩ := scene_modifyHalf has ts
  refine ⟨rest, before, elsewhere, fun c => ?_⟩
  have closed : (x.half h).closed = (x.scene ts).closed h := rfl
  have hooks : (if (x.half h).closed then [] else (x.half h).hooks) = (x.scene ts).hooks h := rfl
  rw [setChannel, after]
  simp only [closed, Function.update_eq_self]
  rw [← closed, hooks, Function.update_eq_self]
  rfl

theorem scene_give (o : Outcome) (t : Task P) (x : Exchange P) (ts) :
    Scene.Steps ((x.scene ts).add [t.thread (.bound o)]) ((x.give o t).scene ts) := by
  obtain ⟨frames, owner⟩ := t
  cases frames with
  | nil => exact settle_steps owner o x ts
  | cons f fs =>
      simp only [give, scene_wake]
      exact .refl

theorem scene_awaitGates (names : List String) (t : Task P) (x : Exchange P) (ts) :
    (x.awaitGates names t).scene ts =
      (x.scene ts).add [t.thread (.ofGates x.gates.outcome? names)] := by
  have failure {f : String × Option Outcome → Option Value}
      (same : ∀ name o, f (name, o) = Stage.gateFailure? o) :
      (names.map fun name => (name, x.gates.outcome? name)).findSome? f =
        names.findSome? fun name => Stage.gateFailure? (x.gates.outcome? name) := by
    rw [List.findSome?_map]
    congr 1
    funext name
    exact same name _
  have missing : (((names.map fun name => (name, x.gates.outcome? name)).filter
      (·.2.isNone)).map (·.1)) = names.filter fun name => (x.gates.outcome? name).isNone := by
    simp [List.filter_map, Function.comp_def]
  simp only [awaitGates, missing, Stage.ofGates]
  rw [failure]
  · cases names.findSome? fun name => Stage.gateFailure? (x.gates.outcome? name) with
    | some v => exact scene_wake _ _ _
    | none =>
        dsimp only
        split
        next => rw [scene_wake]; rfl
        next =>
          simp only [scene, Scene.add, threads, parked, List.map_append, ← Multiset.coe_add]
          congr 1
          simp only [List.map_cons, List.map_nil]
          abel
  · intro name o
    cases o with
    | none => rfl
    | some o => cases o <;> rfl

theorem scene_offer {x : Exchange P} {h : HalfId} (guarded : (x.half h).Guarded)
    (isOpen : (x.half h).closed = false) (m : Message) (terminal : Bool) (t : Task P) (ts) :
    Scene.Steps ((x.scene ts).add [t.thread (.offering h m terminal)])
      ((x.offer h m terminal t).scene ts) := by
  obtain ⟨rest, before, -, after⟩ := scene_setChannel (has_of_open isOpen) ts
  have channel := guarded.channel
  rw [isOpen] at channel
  cases hc : (x.half h).channel with
  | offering parked =>
      have offered : x.offer h m terminal t =
          x.setChannel h (.offering (parked ++ [(m, ⟨terminal, t⟩)])) := by
        simp [offer, hc, Channel.send]
      rw [offered, after, Scene.add_eq, threads_scene, before]
      refine Scene.Steps.of_eq (congrArg _ ?_)
      simp only [Half.threads, hc, Channel.senders, Channel.receivers, List.map_append,
        List.map_cons, List.map_nil, List.append_nil, ← Multiset.coe_add]
      abel
  | wanting first more =>
      have offered : x.offer h m terminal t =
          (((x.setChannel h (.ofReceivers more)).record (.handed h m)).wake
            (.received h (some m) first)).wake (.sent h terminal true t) := by
        simp [offer, hc, Channel.send]
      have left : Half.threads h { x.half h with channel := .ofReceivers more } =
          more.map (·.thread (.wanting h)) := by
        cases more <;> rfl
      rw [offered, scene_wake, scene_wake, scene_record rfl, after, left, Scene.add_eq,
        threads_scene, before]
      refine .trans (Scene.Steps.of_eq (congrArg _ ?_)) (.trans (Scene.meet_steps (x.scene ts)
        isOpen m terminal t first (↑(more.map (·.thread (.wanting h))) + rest))
        (Scene.Steps.of_eq ?_))
      · simp only [Half.threads, hc, Channel.senders, Channel.receivers, List.map_nil,
          List.map_cons, List.nil_append, ← Multiset.cons_coe, ← Multiset.singleton_add,
          Multiset.coe_nil]
        abel
      · simp only [Scene.add, Scene.note, Scene.await, Scene.withThreads, Wake.threads, Wake.hooks,
          ← Multiset.cons_coe, ← Multiset.singleton_add, Multiset.coe_nil]
        congr 1
        abel
  | closed => simp [hc, Channel.isClosed] at channel

theorem setChannel_self (x : Exchange P) (h : HalfId) : x.setChannel h (x.half h).channel = x := by
  by_cases has : x.Has h
  · have same : x.streams.modify h.stream
        (·.modify h.side fun half => { half with channel := (x.half h).channel }) = x.streams := by
      refine List.ext_getElem? fun j => ?_
      rw [List.getElem?_modify]
      by_cases here : h.stream = j
      · subst here
        rw [half_of_has has]
        have found := getElem?_streams has
        cases h with
        | mk i side => cases side <;> simp_all [Stream.modify, Stream.half]
      · simp [here]
    simp only [setChannel, modifyHalf, same]
  · exact modifyHalf_of_not_has has _

theorem scene_receive {x : Exchange P} {h : HalfId} (guarded : (x.half h).Guarded)
    (t : Task P) (ts) :
    Scene.Steps ((x.scene ts).add [t.thread (.asking h)]) ((x.receive h t).scene ts) := by
  cases hc : (x.half h).channel with
  | closed =>
      have isClosed : (x.half h).closed = true := by rw [← guarded.channel, hc]; rfl
      have received : x.receive h t = x.wake (.received h none t) := by
        have same := x.setChannel_self h
        rw [hc] at same
        simp [receive, hc, Channel.receive, same]
      rw [received, scene_wake]
      exact Scene.Solo.steps (s := x.scene ts) (.ended isClosed)
  | wanting first more =>
      have isOpen : (x.half h).closed = false := by rw [← guarded.channel, hc]; rfl
      obtain ⟨rest, before, -, after⟩ := scene_setChannel (has_of_open isOpen) ts
      have received : x.receive h t = x.setChannel h (.wanting first (more ++ [t])) := by
        simp [receive, hc, Channel.receive]
      refine .trans (Scene.Solo.steps (s := x.scene ts) (.want isOpen)) (Scene.Steps.of_eq ?_)
      rw [received, after, Scene.note_nil, Scene.add_eq, threads_scene, before]
      refine congrArg _ ?_
      simp only [Half.threads, hc, Channel.senders, Channel.receivers, List.map_nil, List.map_cons,
        List.map_append, List.nil_append, ← Multiset.coe_add, ← Multiset.cons_coe,
        ← Multiset.singleton_add, Multiset.coe_nil, Task.thread]
      abel
  | offering parked =>
      have isOpen : (x.half h).closed = false := by rw [← guarded.channel, hc]; rfl
      obtain ⟨rest, before, -, after⟩ := scene_setChannel (has_of_open isOpen) ts
      refine .trans (Scene.Solo.steps (s := x.scene ts) (.want isOpen)) ?_
      rw [Scene.note_nil, Scene.add_eq, threads_scene, before]
      cases parked with
      | nil =>
          have received : x.receive h t = x.setChannel h (.wanting t []) := by
            simp [receive, hc, Channel.receive]
          rw [received, after]
          refine Scene.Steps.of_eq (congrArg _ ?_)
          simp only [Half.threads, hc, Channel.senders, Channel.receivers, List.map_nil,
            List.map_cons, List.nil_append, Multiset.coe_nil, Multiset.zero_add, Task.thread]
      | cons first parked =>
          have received : x.receive h t =
              (((x.setChannel h (.offering parked)).record (.handed h first.1)).wake
                (.sent h first.2.terminal true first.2.task)).wake
                  (.received h (some first.1) t) := by
            simp [receive, hc, Channel.receive]
          rw [received, scene_wake, scene_wake, scene_record rfl, after]
          refine .trans (Scene.Steps.of_eq (congrArg _ ?_)) (.trans (Scene.meet_steps (x.scene ts)
            isOpen first.1 first.2.terminal first.2.task t
            (↑(Half.threads h { x.half h with channel := .offering parked }) + rest))
            (Scene.Steps.of_eq ?_))
          · simp only [Half.threads, hc, Channel.senders, Channel.receivers, List.map_nil,
              List.map_cons, List.append_nil, ← Multiset.cons_coe, ← Multiset.singleton_add,
              Multiset.coe_nil, Task.thread]
            abel
          · simp only [Scene.add, Scene.note, Scene.await, Scene.withThreads, Wake.threads,
              Wake.hooks, ← Multiset.cons_coe, ← Multiset.singleton_add, Multiset.coe_nil, add_zero,
              zero_add]

theorem scene_ready_append (ws : List (Wake P)) (x : Exchange P) (ts) :
    { x with ready := x.ready ++ ws }.scene ts =
      ((x.scene ts).add (ws.flatMap Wake.threads)).await (ws.flatMap Wake.hooks) := by
  simp only [scene, Scene.add, Scene.await, threads, parked, half, List.flatMap_append,
    ← Multiset.coe_add]
  congr 1
  · abel
  · abel

theorem map_release_threads (h : HalfId) (half : Half P) :
    (half.threads h).map (·.move (.release h)) =
      (half.channel.senders.map fun s => s.2.task.thread (.sent h s.2.terminal false)) ++
        half.channel.receivers.map (·.thread (.received h none)) := by
  simp [Half.threads, Stage.release, Function.comp_def]

theorem Stage.release_of_not_parkedAt {h : HalfId} {s : Stage} (elsewhere : ¬ s.ParkedAt h) :
    s.release h = s := by
  cases s with
  | wanting h' | offering h' => exact if_neg elsewhere
  | _ => rfl

theorem modifyHalf_modifyHalf (x : Exchange P) (h : HalfId) (f g : Half P → Half P) :
    (x.modifyHalf h f).modifyHalf h g = x.modifyHalf h fun half => g (f half) := by
  simp only [modifyHalf, List.modify_modify_eq]
  congr 2
  funext s
  cases h with
  | mk i side => cases side <;> rfl

theorem half_congr {x y : Exchange P} (same : x.streams = y.streams) (h : HalfId) :
    x.half h = y.half h := by
  simp only [half, same]

theorem streams_closeChannel (x : Exchange P) (h : HalfId) (receivers : List (Task P))
    (senders : List (Offer P)) :
    (x.closeChannel h receivers senders).streams = (x.setChannel h .closed).streams := by
  simp only [closeChannel]
  split <;> rfl

theorem scene_closeChannel (x : Exchange P) (h : HalfId) (receivers : List (Task P))
    (senders : List (Offer P)) (ts) :
    (x.closeChannel h receivers senders).scene ts =
      ((x.setChannel h .closed).scene ts).add
        (receivers.map (·.thread (.received h none)) ++
          senders.map fun s => s.task.thread (.sent h s.terminal false)) := by
  have ready := scene_ready_append
    (receivers.map (Wake.received h none) ++ senders.map fun s => .sent h s.terminal false s.task)
    (x.setChannel h .closed) ts
  have threads : (receivers.map (Wake.received h none) ++
      senders.map fun s => Wake.sent h s.terminal false s.task).flatMap Wake.threads =
      receivers.map (·.thread (.received h none)) ++
        senders.map fun s => s.task.thread (.sent h s.terminal false) := by
    rw [List.flatMap_append, List.flatMap_map, List.flatMap_map, List.map_eq_flatMap,
      List.map_eq_flatMap]
    rfl
  have hooks : (receivers.map (Wake.received h none) ++
      senders.map fun s => Wake.sent h s.terminal false s.task).flatMap Wake.hooks = [] := by
    simp [Wake.hooks]
  rw [threads, hooks, Scene.await_nil, ← List.append_assoc] at ready
  simp only [closeChannel]
  split
  · exact ready
  · exact ready

theorem scene_announce (x : Exchange P) (h : HalfId) (next : Work P) (ts) :
    (x.announce h next).scene ts =
      (((x.scene ts).add next.threads).await next.hooks).await (x.half h).hooks := by
  have same : ((x.push next).half h).hooks = (x.half h).hooks := rfl
  simp only [announce, same]
  split
  next none =>
    rw [List.isEmpty_iff.mp none, scene_push, Scene.await_nil]
  next some => rw [scene_push, scene_push]; rfl

theorem setChannel_closed (x : Exchange P) (h : HalfId) :
    ((x.modifyHalf h fun half => { half with closed := true }).record (.closed h)).setChannel h
        .closed =
      (x.modifyHalf h fun half => { half with closed := true, channel := .closed }).record
        (.closed h) :=
  congrArg (record (.closed h)) (modifyHalf_modifyHalf x h _ _)

theorem closeHalf_of_closed {x : Exchange P} {h : HalfId} (isClosed : (x.half h).closed = true)
    (next : Work P) : x.closeHalf h next = x.push next := by
  simp [closeHalf, isClosed]

theorem closeHalf_of_open {x : Exchange P} {h : HalfId} (guarded : (x.half h).Guarded)
    (isOpen : (x.half h).closed = false) (next : Work P) :
    x.closeHalf h next = announce h next (closeChannel h (x.half h).channel.receivers
      ((x.half h).channel.senders.map (·.2))
      ((x.modifyHalf h fun half => { half with closed := true }).record (.closed h))) := by
  have parted : (x.half h).channel.close? =
      some ((x.half h).channel.receivers, (x.half h).channel.senders.map (·.2)) := by
    have channel := guarded.channel
    rw [isOpen] at channel
    cases hc : (x.half h).channel with
    | closed => simp [hc, Channel.isClosed] at channel
    | _ => rfl
  simp [closeHalf, isOpen, guarded.closing, parted]

/-- Closing a half releases those who wait there and calls what is attached to the closure. -/
theorem scene_closeHalf {x : Exchange P} {h : HalfId} (guarded : (x.half h).Guarded)
    {next : Work P} {th} (threads : next.threads = [th]) (hooks : next.hooks = []) (ts) :
    Scene.Steps ((x.scene ts).add [th.move (.closing h)]) ((x.closeHalf h next).scene ts) := by
  by_cases isClosed : (x.half h).closed
  · rw [closeHalf_of_closed isClosed, scene_push, threads, hooks]
    exact Scene.Solo.steps (s := x.scene ts) (.pass isClosed)
  · rw [Bool.not_eq_true] at isClosed
    have has := has_of_open isClosed
    obtain ⟨rest, before, elsewhere, after⟩ := scene_modifyHalf has ts
    have kept : rest.map (·.move (.release h)) = rest := by
      conv_rhs => rw [← Multiset.map_id rest]
      refine Multiset.map_congr rfl fun th mem => ?_
      simp [Thread.move, Stage.release_of_not_parkedAt (elsewhere th mem)]
    refine (Scene.close_steps (x.scene ts) isClosed th x.threads).trans (Scene.Steps.of_eq ?_)
    have left : ((closeChannel h (x.half h).channel.receivers ((x.half h).channel.senders.map (·.2))
        ((x.modifyHalf h fun half => { half with closed := true }).record (.closed h))).half
          h).hooks = (x.half h).hooks := by
      rw [half_congr (streams_closeChannel _ h _ _), setChannel_closed]
      change ((x.modifyHalf h fun half => { half with closed := true, channel := .closed }).half
        h).hooks = (x.half h).hooks
      rw [half_modifyHalf has]
    rw [closeHalf_of_open guarded isClosed, scene_announce, scene_closeChannel, threads,
      hooks, left, setChannel_closed, scene_record rfl, after, before]
    rw [Multiset.map_add, Multiset.map_coe, kept, map_release_threads]
    simp only [Scene.shut, Scene.withThreads, Scene.add, Scene.note, Scene.await]
    congr 1
    · simp only [Half.threads, Channel.senders, Channel.receivers, List.map_map, Function.comp_def,
        List.map_nil, List.append_nil, ← Multiset.coe_add, ← Multiset.singleton_add,
        Multiset.coe_nil, Multiset.coe_singleton]
      abel
    · rw [show (x.scene ts).hooks h = (x.half h).hooks by simp [scene, isClosed]]
      simp

end Exchange

end ObjectTransfer
