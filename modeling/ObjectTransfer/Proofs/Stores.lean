import ObjectTransfer.Proofs.Handlers
import ObjectTransfer.Proofs.Simulation

/-! # What the loopback storage keeps

An object is what the latest turn stored that concluded an upload to its bucket and key
(`Loopback.LastStored`). No other turn changes an object, and what a turn stores are all the chunks
that its handler took in.
-/

namespace ObjectTransfer

theorem Value.same_text {v : Value} {s : String} : v.same (.text s) = true ↔ v = .text s := by
  cases v <;> simp [same]

theorem Value.same_text_congr {v w : Value} (same : v.same w = true) (s : String) :
    v.same (.text s) = w.same (.text s) := by
  cases v <;> cases w <;> simp_all [Value.same]

theorem Objects.get?_put (os : Objects) (key : Value) (data : Bytes) (k : String) :
    (os.put key data).get? (.text k) = if key.same (.text k) then some data
      else os.get? (.text k) := by
  induction os with
  | nil => cases named : key.same (.text k) <;> simp [put, get?, named]
  | cons first rest ih =>
      obtain ⟨other, old⟩ := first
      rw [put]
      split
      next here =>
        have named := Value.same_text_congr here k
        cases same : key.same (.text k) <;> simp [get?, named, same]
      next apart =>
        cases named : other.same (.text k) with
        | false =>
            simp only [get?, List.find?_cons, named] at ih ⊢
            exact ih
        | true =>
            obtain rfl := Value.same_text.mp named
            have other : key.same (.text k) = false := by
              rw [Bool.eq_false_iff]
              intro same
              rw [Value.same_text.mp same] at apart
              exact apart named
            simp [get?, named, other]

namespace Store

variable {s : Store} {bucket key : Value} {b k : String} {data : Bytes}

theorem bucket?_put : (s.put bucket key data).bucket? (.text b) =
    if bucket.same (.text b) then (s.bucket? (.text b)).map (·.put key data)
    else s.bucket? (.text b) := by
  obtain ⟨buckets⟩ := s
  simp only [put, bucket?]
  induction buckets with
  | nil => simp [modifyBucket]
  | cons first rest ih =>
      obtain ⟨other, os⟩ := first
      rw [modifyBucket]
      split
      next here =>
        have named := Value.same_text_congr here b
        cases same : bucket.same (.text b) <;> simp [named, same]
      next apart =>
        cases named : other.same (.text b) with
        | false =>
            simp only [List.find?_cons, named]
            exact ih
        | true =>
            obtain rfl := Value.same_text.mp named
            have other : bucket.same (.text b) = false := by
              rw [Bool.eq_false_iff]
              intro same
              rw [Value.same_text.mp same] at apart
              exact apart named
            simp [named, other]

theorem get?_create : (s.create bucket).get? (.text b) (.text k) = s.get? (.text b) (.text k) := by
  rw [create]
  split
  · rfl
  · simp only [get?, bucket?, List.find?_append]
    cases found : s.buckets.find? (·.1.same (.text b)) with
    | some entry => rfl
    | none => cases named : bucket.same (.text b) <;> simp [named, Objects.get?]

theorem exists_bucket?_create : ∃ os, (s.create (.text b)).bucket? (.text b) = some os := by
  rw [create]
  split
  next os found => exact ⟨os, found⟩
  next missing =>
    have self : (Value.text b).same (.text b) = true := Value.same_text.mpr rfl
    simp only [bucket?, Option.map_eq_none_iff] at missing
    exact ⟨[], by simp [bucket?, List.find?_append, missing, self]⟩

/-- An object changes only under its own bucket and key. -/
theorem get?_put : (s.put bucket key data).get? (.text b) (.text k) =
    if bucket.same (.text b) && key.same (.text k) then (s.bucket? (.text b)).map fun _ => data
    else s.get? (.text b) (.text k) := by
  rw [get?, bucket?_put, get?]
  cases bucket.same (.text b) with
  | false => rfl
  | true =>
      cases found : s.bucket? (.text b) with
      | none => cases key.same (.text k) <;> rfl
      | some os =>
          simp only [if_true, Option.map_some, Option.bind_some, Objects.get?_put]
          cases key.same (.text k) <;> rfl

end Store

namespace Loopback

variable {c : Config} {s : Store} {d : Duty} {o : Outcome}

/-- Whether an upload that came to its end passes all checks: no request was bad and all named this
bucket and this key, the bucket exists or is created, and the chunks are byte arrays. -/
structure Passes (c : Config) (s : Store) (t : Intake) (bucket key : String)
    (data : Bytes) : Prop where
  sound : t.failure = none
  target : t.target = some (.text bucket, .text key)
  admitted : (s.bucket? (.text bucket)).isSome ∨ c.createsBuckets = true
  joined : joinChunks? t.chunks.reverse = .ok data

variable {t : Intake} {bucket key : String} {data : Bytes}

/-- What an upload that passes all checks stores. -/
theorem Passes.get?_conclude (passes : Passes c s t bucket key data) :
    ((conclude c s t).1).get? (.text bucket) (.text key) = some data := by
  obtain ⟨sound, target, admitted, joined⟩ := passes
  have admits : ((s.bucket? (.text bucket)).isNone && !c.createsBuckets) = false := by
    rcases admitted with found | creates
    · simp [Option.isNone_eq_false_iff.mpr found]
    · simp [creates]
  obtain ⟨os, found⟩ := Store.exists_bucket?_create (s := s) (b := bucket)
  simp only [conclude, sound, target, admits, joined]
  simp [Store.get?_put, found, Value.same]

theorem get?_conclude (apart : ∀ data, ¬ Passes c s t bucket key data) :
    ((conclude c s t).1).get? (.text bucket) (.text key) = s.get? (.text bucket) (.text key) := by
  fun_cases conclude c s t with
  | case1 | case2 | case3 => rfl
  | case4 => exact Store.get?_create
  | case5 b k target sound admits store data joined =>
      have other : (b.same (.text bucket) && k.same (.text key)) = false := by
        rw [Bool.eq_false_iff]
        intro same
        rw [Bool.and_eq_true, Value.same_text, Value.same_text] at same
        obtain ⟨rfl, rfl⟩ := same
        refine apart data ⟨sound, target, ?_, joined⟩
        by_contra neither
        rw [not_or, Option.not_isSome_iff_eq_none] at neither
        exact admits (by simp [neither.1, neither.2])
      simp only [Store.get?_put, other, store]
      exact Store.get?_create

/-- Whether a turn concludes an upload that passes all checks. -/
structure Stores (turn : HandlerTurn (plugin c)) (bucket key : String) (t : Intake) (data : Bytes) :
    Prop where
  state : turn.state = .receiving t
  outcome : turn.outcome = .ok .eof
  passes : Passes c turn.shared t bucket key data

/-- What the latest of these turns stored that stored an object, if one did. -/
inductive LastStored (bucket key : String) : List (HandlerTurn (plugin c)) →
    Option Bytes → Prop where
  | nothing : LastStored bucket key [] none
  | stores {turn earlier t data} : Stores turn bucket key t data →
    LastStored bucket key (turn :: earlier) (some data)
  | keeps {turn earlier content} : (∀ t data, ¬ Stores turn bucket key t data) →
    LastStored bucket key earlier content → LastStored bucket key (turn :: earlier) content

theorem LastStored.turn (turn : HandlerTurn (plugin c)) {earlier}
    (last : LastStored bucket key earlier (Store.get? turn.shared (.text bucket) (.text key))) :
    LastStored bucket key (turn :: earlier)
      ((step c turn.shared turn.state turn.outcome).1.get? (.text bucket) (.text key)) := by
  by_cases stored : ∃ t data, Stores turn bucket key t data
  · obtain ⟨t, data, stores⟩ := stored
    rw [stores.state, stores.outcome]
    simp only [step, stores.passes.get?_conclude]
    exact .stores stores
  · have apart t data (stores : Stores turn bucket key t data) : False := stored ⟨t, data, stores⟩
    have same : (step c turn.shared turn.state turn.outcome).1.get? (.text bucket) (.text key) =
        Store.get? turn.shared (.text bucket) (.text key) := by
      obtain ⟨i, state, o, shared⟩ := turn
      dsimp only
      fun_cases step c shared state o with
      | case5 t => exact get?_conclude fun data passes => apart t data ⟨rfl, rfl, passes⟩
      | _ => rfl
    rw [same]
    exact .keeps apart last

/-- An object was stored by the latest turn that stored one. -/
theorem LastStored.latest {turns : List (HandlerTurn (plugin c))}
    (last : LastStored bucket key turns (some data)) : ∃ later turn earlier t,
      turns = later ++ turn :: earlier ∧ Stores turn bucket key t data ∧
      ∀ turn' ∈ later, ∀ t data, ¬ Stores turn' bucket key t data := by
  generalize content : some data = stored at last
  induction last with
  | nothing => exact nomatch content
  | @stores turn earlier t data' stores =>
      cases content
      exact ⟨[], turn, earlier, t, rfl, stores, nofun⟩
  | @keeps turn earlier content apart last ih =>
      obtain ⟨later, turn', earlier', t, rfl, stores, none⟩ := ih content
      refine ⟨turn :: later, turn', earlier', t, rfl, stores, ?_⟩
      rw [List.forall_mem_cons]
      exact ⟨apart, none⟩

theorem get?_ofBuckets (names : List String) :
    (Store.ofBuckets names).get? (.text bucket) (.text key) = none := by
  rw [Store.get?, Option.bind_eq_none_iff]
  intro os found
  simp only [Store.bucket?, Store.ofBuckets, Option.map_eq_some_iff] at found
  obtain ⟨entry, found, rfl⟩ := found
  obtain ⟨name, -, rfl⟩ := List.mem_map.mp (List.mem_of_find?_eq_some found)
  rfl

end Loopback

namespace Scene

/-- Every object is what the latest turn stored that stored one. -/
theorem Reachable.lastStored {c : Config} {s : Scene (Loopback.plugin c)} (reachable : s.Reachable)
    (bucket key : String) :
    Loopback.LastStored bucket key s.turns (Store.get? s.shared (.text bucket) (.text key)) := by
  induction reachable with
  | refl =>
      have fresh :
          Store.get? (Scene.empty (Loopback.plugin c)).shared (.text bucket) (.text key) = none :=
        Loopback.get?_ofBuckets c.buckets
      rw [fresh]
      exact .nothing
  | tail steps step ih =>
      cases step with
      | handle => exact .turn ⟨_, _, _, _⟩ ih
      | _ => exact ih

end Scene

end ObjectTransfer
