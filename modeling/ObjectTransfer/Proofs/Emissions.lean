import ObjectTransfer.Proofs.Hearings

/-! # How far an emission got

An emission works on the list of listeners that it was given when it began. It calls them in their
order, up to the first that throws (`Listener.reached`), whatever they do meanwhile; what it still
has to do tells which of them were called (`Emission.Reaches`).
-/

namespace ObjectTransfer

/-- The result that actions leave, from this one on. -/
def Reply.after (r : Reply) : List Action → Reply
  | [] => r
  | .throws _ :: _ => r
  | .rejects v :: as => Reply.after (.rejected v) as
  | .waits g :: as => Reply.after (.gate g) as
  | .performs _ :: as => r.after as

namespace Listener

def reply (l : Listener) : Reply := Reply.nothing.after l.actions

/-- The listeners up to the first that throws, with that one. -/
def reached : List Listener → List Listener
  | [] => []
  | l :: ls => if l.Returns then l :: reached ls else [l]

theorem reached_of_return {ls : List Listener} (return_ : ∀ l ∈ ls, l.Returns)
    (more : List Listener) : reached (ls ++ more) = ls ++ reached more := by
  induction ls with
  | nil => rfl
  | cons l ls ih =>
      have here := return_ l List.mem_cons_self
      simp only [List.cons_append, reached, if_pos here]
      exact congrArg (l :: ·) (ih fun l mem => return_ l (List.mem_cons_of_mem _ mem))

theorem reached_eq_self {ls : List Listener} (return_ : ∀ l ∈ ls, l.Returns) : reached ls = ls := by
  have whole := reached_of_return return_ []
  rwa [List.append_nil, reached, List.append_nil] at whole

theorem reached_append_of_throws {ls : List Listener} (throws : ¬ ∀ l ∈ ls, l.Returns)
    (more : List Listener) : reached (ls ++ more) = reached ls := by
  induction ls with
  | nil => exact absurd (List.forall_mem_nil _) throws
  | cons l ls ih =>
      simp only [List.cons_append, reached]
      split
      next here =>
        exact congrArg (l :: ·) (ih fun all => throws (List.forall_mem_cons.mpr ⟨here, all⟩))
      · rfl

end Listener

namespace Emission

variable {W : Type} {e : Emission W} {ls done : List Listener}

/-- Whether an emission to these listeners has called the ones done, and goes on with the rest. -/
inductive Reaches (ls : List Listener) : List Listener → Emission W → Prop where
  /-- All that were called have returned. -/
  | between {done todo : List Listener} {argument : Value} {purpose : Purpose W} :
    ls = done ++ todo → (∀ l ∈ done, l.Returns) →
    Reaches ls done ⟨none, done.map Listener.reply, todo.map .direct, argument, purpose⟩
  /-- The last one that was called still has actions to perform. -/
  | within {done todo : List Listener} {l : Listener} {as : List Action} {r : Reply}
      {argument : Value} {purpose : Purpose W} :
    ls = done ++ l :: todo → (∀ l ∈ done, l.Returns) → l.thrown? = as.findSome? Action.thrown? →
    l.reply = r.after as →
    Reaches ls (done ++ [l])
      ⟨some (as, r), done.map Listener.reply, todo.map .direct, argument, purpose⟩

structure Continues (e e' : Emission W) : Prop where
  purpose : e'.purpose = e.purpose
  argument : e'.argument = e.argument

theorem Reaches.start (ls : List Listener) (argument : Value) (purpose : Purpose W) :
    Reaches ls [] ⟨none, [], ls.map .direct, argument, purpose⟩ :=
  .between rfl (List.forall_mem_nil _)

/-- The listeners that were called are the first ones, and none after one that throws. -/
theorem Reaches.prefix (reaches : Reaches ls done e) : done <+: Listener.reached ls := by
  cases reaches with
  | between split returned =>
      rw [split, Listener.reached_of_return returned]
      exact List.prefix_append _ _
  | @within done todo l as r argument purpose split returned =>
      rw [split, Listener.reached_of_return returned, List.prefix_append_right_inj,
        Listener.reached]
      split
      · exact ⟨_, rfl⟩
      · exact List.prefix_rfl

theorem Reaches.length_le (reaches : Reaches ls done e) : done.length ≤ ls.length := by
  cases reaches with
  | between split => simp [split]
  | within split => simp [split]

theorem Reaches.rest (reaches : Reaches ls done e) :
    e.rest = (ls.drop done.length).map .direct := by
  cases reaches with
  | between split => rw [split, List.drop_left]
  | @within done todo l as r argument purpose split =>
      rw [split, List.append_cons done l todo, List.drop_left]

end Emission

namespace Exchange

variable {P : Plugin} {ls done : List Listener} {e : Emission (Work P)} {x : Exchange P}

open Emission

inductive Proceeds (ls done : List Listener) (e : Emission (Work P)) (x : Exchange P) :
    Exchange P → Prop where
  /-- The listener that was called last throws. -/
  | throws {v : Value} : ls.findSome? Listener.thrown? = some v → Listener.reached ls = done →
    Proceeds ls done e x (x.broken e v)
  /-- All listeners returned. -/
  | completes : ls = done → (∀ l ∈ ls, l.Returns) → e.replies = ls.map Listener.reply →
    Proceeds ls done e x (x.completed e)
  /-- The listener that was called last goes on by itself, or returns. -/
  | stays {e' : Emission (Work P)} : e.Continues e' → Reaches ls done e' → e'.rest = e.rest →
    Proceeds ls done e x (x.push (.emit e'))
  /-- The listener that was called last makes a call, or settles a gate. -/
  | performs {e' : Emission (Work P)} {c : Command} : e.Continues e' → Reaches ls done e' →
    e'.rest = e.rest →
    (∃ as r, e.current = some (.performs c :: as, r)) →
    Proceeds ls done e x ((x.push (.emit e')).command c)
  /-- The next listener is called. -/
  | calls {e' : Emission (Work P)} {l : Listener} : e.Continues e' → Reaches ls (done ++ [l]) e' →
    e.rest = .direct l :: e'.rest →
    Proceeds ls done e x ((x.startListener l e.argument).1.push (.emit e'))

theorem startListener_actions (l : Listener) (argument : Value) (x : Exchange P) :
    (x.startListener l argument).2 = l.actions := by
  cases l <;> rfl

/-- Whatever the listeners do, an emission goes on with the list that it was given. -/
theorem proceeds (reaches : Reaches ls done e) : Proceeds ls done e x (x.emission e) := by
  cases reaches with
  | @between done todo argument purpose split returned =>
      cases todo with
      | nil =>
          rw [List.append_nil] at split
          subst split
          exact .completes rfl returned rfl
      | cons l todo =>
          have called : Proceeds ls done
              ⟨none, done.map Listener.reply, (l :: todo).map .direct, argument, purpose⟩ x
              ((x.startListener l argument).1.push
                (.emit ⟨some (l.actions, .nothing), done.map Listener.reply,
                todo.map .direct, argument, purpose⟩)) :=
            .calls ⟨rfl, rfl⟩ (.within split returned rfl rfl) rfl
          simpa only [emission, List.map_cons, startHook, startListener_actions] using called
  | @within done todo l as r argument purpose split returned thrown reply =>
      cases as with
      | nil =>
          have continues : Continues (W := Work P)
              ⟨some ([], r), done.map Listener.reply, todo.map .direct, argument, purpose⟩
              ⟨none, done.map Listener.reply ++ [r], todo.map .direct, argument, purpose⟩ :=
                ⟨rfl, rfl⟩
          refine .stays continues ?_ rfl
          have replies : done.map Listener.reply ++ [r] = (done ++ [l]).map Listener.reply := by
            rw [List.map_append, List.map_singleton, reply]
            rfl
          rw [replies]
          refine .between (by rw [split, List.append_assoc]; rfl) ?_
          exact List.forall_mem_append.mpr ⟨returned, List.forall_mem_singleton.mpr thrown⟩
      | cons a as =>
          cases a with
          | throws v =>
              have here : l.thrown? = some v := thrown
              refine .throws ?_ ?_
              · have none : done.findSome? Listener.thrown? = none :=
                  List.findSome?_eq_none_iff.mpr returned
                rw [split, List.findSome?_append, none, List.findSome?_cons, here]
                rfl
              · rw [split, Listener.reached_of_return returned, Listener.reached, if_neg]
                simp [Listener.Returns, here]
          | rejects v => exact .stays ⟨rfl, rfl⟩ (.within split returned thrown reply) rfl
          | waits g => exact .stays ⟨rfl, rfl⟩ (.within split returned thrown reply) rfl
          | performs c =>
              exact .performs ⟨rfl, rfl⟩ (.within split returned thrown reply) rfl ⟨as, r, rfl⟩

end Exchange

end ObjectTransfer
