import Mathlib.Data.List.Basic
import ObjectTransfer.Loopback.Config

/-! # Complaints about a configuration

A value stands for a configuration if it is an object of known fields, each of which fits or is left
out (`Config.Valid`). Any other value is refused with everything that is wrong with it
(`Config.Reported`) and nothing else, in the order of the fields (`Config.Issue.Before`). What is
wrong with a field is told by its value alone (`Config.Wrong`).
-/

namespace ObjectTransfer.Config

/-- The value that stands for a configuration; none is an object without members. -/
def given : Value → Value
  | .undefined => .object []
  | v => v

/-- Whether a value is composite and no array. -/
inductive IsComposite : Value → Prop where
  | object {members} : IsComposite (.object members)
  | bytes {data} : IsComposite (.bytes data)
  | fault {f} : IsComposite (.fault f)
  | unprintable : IsComposite .unprintable
  | metadata {size} : IsComposite (.metadata size)
  | scope : IsComposite .scope

/-- Whether a value is an object whose members may be fields. A map is composite and no such object:
it has entries, and no members. -/
structure IsObject (v : Value) : Prop where
  composite : IsComposite v
  notMap : ∀ size, v ≠ .metadata size

def entries (v : Value) : List (String × Value) := (members? v).getD []

inductive Field where
  | chunkSize
  | buckets
  | createsBuckets
  deriving DecidableEq

def Field.key : Field → String
  | chunkSize => chunkSizeKey
  | buckets => bucketsKey
  | createsBuckets => createsBucketsKey

def Field.of (f : Field) (v : Value) : Value := Value.member (.object (entries v)) f.key

/-- The values that a field may have. -/
inductive Fits : Field → Value → Prop where
  | leftOut {f} : Fits f .undefined
  | chunkSize {n : Nat} : 0 < n → Fits .chunkSize (.number (.whole n))
  | buckets {names : List String} : "" ∉ names → Fits .buckets (.array (names.map .text))
  | createsBuckets {b} : Fits .createsBuckets (.bool b)

/-- Whether a value stands for a configuration. -/
structure Valid (v : Value) : Prop where
  isObject : IsObject v
  known : ∀ entry ∈ entries v, entry.1 ∈ knownKeys
  fits : ∀ f : Field, Fits f (f.of v)

/-- What is wrong with the value of a field. A number may be wrong in two ways, and a list of
buckets in every element. -/
inductive Wrong : Field → Value → Issue → Prop where
  | size {v} : (∀ n, v ≠ .number n) → v ≠ .undefined →
    Wrong .chunkSize v ⟨[chunkSizeKey], .wrongType "number" (typeName v)⟩
  | fraction {n} : n.isWhole = false →
    Wrong .chunkSize (.number n) ⟨[chunkSizeKey], .wrongType "integer" "float"⟩
  | small {n} : n.isPositive = false → Wrong .chunkSize (.number n) ⟨[chunkSizeKey], .notPositive⟩
  | buckets {v} : (∀ vs, v ≠ .array vs) → v ≠ .undefined →
    Wrong .buckets v ⟨[bucketsKey], .wrongType "array" (typeName v)⟩
  | absent {vs : List Value} {k : Nat} : vs[k]? = some .undefined →
    Wrong .buckets (.array vs) ⟨[bucketsKey, toString k], .required⟩
  | bucket {vs : List Value} {k : Nat} {v} : vs[k]? = some v → (∀ s, v ≠ .text s) → v ≠ .undefined →
    Wrong .buckets (.array vs) ⟨[bucketsKey, toString k], .wrongType "string" (typeName v)⟩
  | empty {vs : List Value} {k : Nat} : vs[k]? = some (.text "") →
    Wrong .buckets (.array vs) ⟨[bucketsKey, toString k], .emptyText⟩
  | switch {v} : (∀ b, v ≠ .bool b) → v ≠ .undefined →
    Wrong .createsBuckets v ⟨[createsBucketsKey], .wrongType "boolean" (typeName v)⟩

/-- The keys of an object that are no fields, in their order. -/
def strangers (v : Value) : List String := ((entries v).map (·.1)).filter (· ∉ knownKeys)

/-- What is wrong with a value. -/
inductive Reported (v : Value) : Issue → Prop where
  | root : ¬ IsObject v → Reported v ⟨[], .wrongType "object" (typeName v)⟩
  | field {f i} : Wrong f (f.of v) i → Reported v i
  | unknown : strangers v ≠ [] → Reported v ⟨[], .unknownKeys (strangers v)⟩

namespace Issue

def place (i : Issue) : Nat := knownKeys.idxOf (i.path.headD "")

/-- The order of issues: by their fields, for the buckets by their places in the list, and a number
that is no integer before one that is not positive. -/
inductive Before : Issue → Issue → Prop where
  | fields {i j} : i.place < j.place → Before i j
  | elements {m n : Nat} {c d} :
      m < n → Before ⟨[bucketsKey, toString m], c⟩ ⟨[bucketsKey, toString n], d⟩
  | numbers : Before ⟨[chunkSizeKey], .wrongType "integer" "float"⟩ ⟨[chunkSizeKey], .notPositive⟩

def concerns (f : Field) (i : Issue) : Bool := i.path.head? == some f.key

end Issue

/-! ## Objects -/

variable {v : Value} {i : Issue}

theorem mem_bucketIssues {k : Nat} : i ∈ bucketIssues k v ↔
    i.path = [bucketsKey, toString k] ∧
      ((v = .undefined ∧ i.complaint = .required) ∨ (v = .text "" ∧ i.complaint = .emptyText) ∨
        ((∀ s, v ≠ .text s) ∧ v ≠ .undefined ∧
          i.complaint = .wrongType "string" (typeName v))) := by
  obtain ⟨path, complaint⟩ := i
  cases v with
  | text s => by_cases none : s = "" <;> simp [bucketIssues, none]
  | _ => simp [bucketIssues]

def Field.issues : Field → Value → List Issue
  | chunkSize => chunkSizeIssues
  | buckets => bucketsIssues
  | createsBuckets => createsBucketsIssues

theorem Fits.right {f : Field} (fits : Fits f v) : ¬ Wrong f v i := by
  intro wrong
  cases fits with
  | leftOut => cases wrong <;> exact absurd rfl ‹_ ≠ _›
  | chunkSize pos =>
      cases wrong with
      | size other => exact other _ rfl
      | fraction fraction => cases fraction
      | small small =>
          simp only [Number.isPositive, decide_eq_false_iff_not] at small
          omega
  | @buckets names named =>
      have text {k : Nat} {v : Value} (place : (names.map Value.text)[k]? = some v) :
          ∃ s, names[k]? = some s ∧ Value.text s = v := by
        rw [List.getElem?_map] at place
        exact Option.map_eq_some_iff.mp place
      cases wrong with
      | buckets other => exact other _ rfl
      | absent place =>
          obtain ⟨s, -, same⟩ := text place
          cases same
      | bucket place other =>
          obtain ⟨s, -, same⟩ := text place
          exact other s same.symm
      | empty place =>
          obtain ⟨s, here, same⟩ := text place
          cases same
          exact named (List.mem_of_getElem? here)
  | createsBuckets =>
      cases wrong with
      | switch other => exact other _ rfl

theorem map_bucketsOf {vs : List Value} (texts : ∀ v ∈ vs, ∃ s, v = .text s) :
    (bucketsOf (.array vs)).map .text = vs := by
  rw [bucketsOf]
  induction vs with
  | nil => rfl
  | cons v vs ih =>
      obtain ⟨⟨s, rfl⟩, rest⟩ := List.forall_mem_cons.mp texts
      exact congrArg (Value.text s :: ·) (ih rest)

open Issue (Before)

theorem Field.ordered (f : Field) (v : Value) : (f.issues v).Pairwise Before := by
  cases f with
  | chunkSize =>
      cases v with
      | number n =>
          simp only [Field.issues, chunkSizeIssues]
          split <;> split <;> simp [Before.numbers]
      | _ => simp [Field.issues, chunkSizeIssues]
  | buckets =>
      cases v with
      | array vs =>
          refine List.pairwise_flatMap.mpr ⟨fun p _ => ?_, ?_⟩
          · obtain ⟨v, k⟩ := p
            cases v with
            | text s => by_cases none : s = "" <;> simp [bucketIssues, none]
            | _ => simp [bucketIssues]
          · have rising : vs.zipIdx.Pairwise (·.2 < ·.2) := by
              rw [← List.pairwise_map (R := (· < ·)), List.zipIdx_map_snd]
              exact List.pairwise_lt_range' 1
            refine rising.imp fun lt i mem j mem' => ?_
            obtain ⟨path, complaint⟩ := i
            obtain ⟨path', complaint'⟩ := j
            obtain ⟨rfl, -⟩ := mem_bucketIssues.mp mem
            obtain ⟨rfl, -⟩ := mem_bucketIssues.mp mem'
            exact .elements lt
      | _ => simp [Field.issues, bucketsIssues]
  | createsBuckets => cases v <;> simp [Field.issues, createsBucketsIssues]

/-- The value of a field, or the default if it is left out. -/
def Field.orDefault (f : Field) : Value → Value
  | .undefined => f.of default.toValue
  | v => v

theorem Field.of_ofValid {f : Field} (fits : Fits f (f.of v)) :
    f.of (ofValid v).toValue = f.orDefault (f.of v) := by
  cases f with
  | chunkSize =>
      change Value.number (.whole (chunkSizeOf (chunkSize.of v)).1) = _
      generalize chunkSize.of v = w at fits ⊢
      cases fits with
      | leftOut => rfl
      | @chunkSize n pos =>
          have pos : 0 < (n : Int).toNat := pos
          rw [chunkSizeOf, dif_pos pos]
          rfl
  | buckets =>
      change Value.array ((bucketsOf (buckets.of v)).map .text) = _
      generalize buckets.of v = w at fits ⊢
      cases fits with
      | leftOut => rfl
      | buckets =>
          refine congrArg Value.array (map_bucketsOf fun v mem => ?_)
          obtain ⟨s, -, same⟩ := List.mem_map.mp mem
          exact ⟨s, same.symm⟩
  | createsBuckets =>
      change Value.bool (createsBucketsOf (createsBuckets.of v)) = _
      generalize createsBuckets.of v = w at fits ⊢
      cases fits <;> rfl

/-- Every default passes its own check. -/
theorem fits_default (f : Field) : Fits f (f.of default.toValue) := by
  cases f with
  | chunkSize => exact .chunkSize default.chunkSize_pos
  | buckets =>
      have named : "" ∉ default.buckets := List.not_mem_nil
      exact .buckets named
  | createsBuckets => exact .createsBuckets

theorem Fits.orDefault {f : Field} (fits : Fits f v) : Fits f (f.orDefault v) := by
  cases v with
  | undefined => exact fits_default f
  | _ => exact fits

/-- The configuration that a valid value stands for is a valid value. -/
theorem Valid.ofValid (valid : Valid v) : Valid (ofValid v).toValue where
  isObject := ⟨.object, nofun⟩
  known := by simp [entries, members?, toValue, knownKeys]
  fits f := Field.of_ofValid (valid.fits f) ▸ (valid.fits f).orDefault

/-- What the report on a value that stands for no configuration must be. -/
structure Report (v : Value) (is : List Issue) : Prop where
  /-- Everything that is wrong is listed, and nothing else. -/
  listed : ∀ i, i ∈ is ↔ Reported v i
  ordered : is.Pairwise Issue.Before
  /-- The issues of a field are those of any object with the same value there. -/
  apart : ∀ (f : Field) (w : Value), IsObject w → f.of w = f.of v →
    is.filter (·.concerns f) = (issues w).filter (·.concerns f)
  root : ¬ IsObject v → is = [⟨[], .wrongType "object" (typeName v)⟩]

example : issues .scope = [⟨[], .unknownKeys ["signal", "deadline"]⟩] := by
  rfl

example : issues (.object [("verbose", .null), ("chunkSize", .number (.fraction (-3) 1)),
      ("buckets", .array [.text "", .text "b", .undefined])]) =
    [⟨["chunkSize"], .wrongType "integer" "float"⟩, ⟨["chunkSize"], .notPositive⟩,
     ⟨["buckets", "0"], .emptyText⟩, ⟨["buckets", "2"], .required⟩,
     ⟨[], .unknownKeys ["verbose"]⟩] := by
  rfl

end ObjectTransfer.Config
