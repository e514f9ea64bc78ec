import ObjectTransfer.Proofs.Intakes

/-! # Verdicts on uploads

What becomes of an upload to the loopback storage is decided by the pieces that it brings, and by
which buckets are to be had (`Loopback.verdict`). An upload that is accepted puts its object into
the store and changes nothing else there (`Store.Gains`).
-/

namespace ObjectTransfer

/-! ## Stores that gain an object -/

namespace Objects

theorem keys_put (os : Objects) (key : String) (data : Bytes) :
    (os.put (.text key) data).map (·.1) =
      if (os.get? (.text key)).isSome then os.map (·.1) else os.map (·.1) ++ [.text key] := by
  induction os with
  | nil => rfl
  | cons first rest ih =>
      obtain ⟨other, old⟩ := first
      rw [put]
      split
      next here => simp [get?, here]
      next apart =>
        have apart : other.same (.text key) = false := by simpa using apart
        have same : get? ((other, old) :: rest) (.text key) = get? rest (.text key) := by
          simp [get?, apart]
        rw [same, List.map_cons, ih]
        split <;> rfl

theorem get?_put_of_ne (os : Objects) {key : String} {k : Value}
    (apart : (Value.text key).same k = false)
    (data : Bytes) : (os.put (.text key) data).get? k = os.get? k := by
  induction os with
  | nil => simp [put, get?, apart]
  | cons first rest ih =>
      obtain ⟨other, old⟩ := first
      rw [put]
      split
      next here =>
        obtain rfl := Value.same_text.mp here
        simp [get?, apart]
      next => 
        simp only [get?, List.find?_cons] at ih ⊢
        split
        · rfl
        · exact ih

end Objects

namespace Store

/-- Whether a store came of another by putting an object there and changing nothing else. Buckets
and keys stay where they are, and new ones come last. -/
structure Gains (s s' : Store) (bucket key : String) (data : Bytes) : Prop where
  object : s'.get? (.text bucket) (.text key) = some data
  beside : ∀ k, (Value.text key).same k = false →
    s'.get? (.text bucket) k = s.get? (.text bucket) k
  keys : s'.keys (.text bucket) =
    if (s.get? (.text bucket) (.text key)).isSome then s.keys (.text bucket)
    else s.keys (.text bucket) ++ [.text key]
  others : ∀ b, (Value.text bucket).same b = false → s'.bucket? b = s.bucket? b
  buckets : s'.buckets.map (·.1) =
    if (s.bucket? (.text bucket)).isSome then s.buckets.map (·.1)
    else s.buckets.map (·.1) ++ [.text bucket]

variable {s : Store} {bucket : String}

theorem bucket?_create_self :
    (s.create (.text bucket)).bucket? (.text bucket) =
      some ((s.bucket? (.text bucket)).getD []) := by
  rw [create]
  split
  next os found => simp [found]
  next missing =>
    have self : (Value.text bucket).same (.text bucket) = true := Value.same_text.mpr rfl
    have nowhere := missing
    simp only [bucket?, Option.map_eq_none_iff] at nowhere
    rw [missing]
    simp [bucket?, List.find?_append, nowhere, self]

theorem bucket?_create_of_ne {b : Value} (apart : (Value.text bucket).same b = false) :
    (s.create (.text bucket)).bucket? b = s.bucket? b := by
  rw [create]
  split
  · rfl
  · simp [bucket?, List.find?_append, apart]

theorem buckets_create : (s.create (.text bucket)).buckets.map (·.1) =
    if (s.bucket? (.text bucket)).isSome then s.buckets.map (·.1)
    else s.buckets.map (·.1) ++ [.text bucket] := by
  rw [create]
  split
  next os found => simp [found]
  next missing => simp [missing]

theorem bucket?_put_self (key data) : (s.put (.text bucket) key data).bucket? (.text bucket) =
    (s.bucket? (.text bucket)).map (·.put key data) := by
  rw [bucket?_put, if_pos (Value.same_text.mpr rfl)]

theorem bucket?_put_of_ne {b : Value} (apart : (Value.text bucket).same b = false) (key data) :
    (s.put (.text bucket) key data).bucket? b = s.bucket? b := by
  obtain ⟨buckets⟩ := s
  simp only [put, bucket?]
  induction buckets with
  | nil => rfl
  | cons first rest ih =>
      obtain ⟨other, os⟩ := first
      rw [modifyBucket]
      split
      next here =>
        obtain rfl := Value.same_text.mp here
        simp [apart]
      next =>
        simp only [List.find?_cons]
        split
        · rfl
        · exact ih

theorem buckets_put (b key data) : (s.put b key data).buckets.map (·.1) = s.buckets.map (·.1) := by
  obtain ⟨buckets⟩ := s
  simp only [put]
  induction buckets with
  | nil => rfl
  | cons first rest ih =>
      obtain ⟨other, os⟩ := first
      rw [modifyBucket]
      split
      · rfl
      · rw [List.map_cons, ih, List.map_cons]

/-- An object that is put into a bucket, new or not. -/
theorem gains_put (s : Store) (bucket key : String) (data : Bytes) :
    s.Gains ((s.create (.text bucket)).put (.text bucket) (.text key) data) bucket key data := by
  have found :
      ((s.create (.text bucket)).put (.text bucket) (.text key) data).bucket? (.text bucket) =
      some (((s.bucket? (.text bucket)).getD []).put (.text key) data) := by
    rw [bucket?_put_self, bucket?_create_self, Option.map_some]
  have before (k : Value) :
      s.get? (.text bucket) k = ((s.bucket? (.text bucket)).getD []).get? k := by
    rw [get?]
    cases s.bucket? (.text bucket) <;> rfl
  refine ⟨?_, fun k apart => ?_, ?_, fun b apart => ?_, ?_⟩
  · rw [get?, found, Option.bind_some, Objects.get?_put, if_pos (Value.same_text.mpr rfl)]
  · rw [get?, found, Option.bind_some, Objects.get?_put_of_ne _ apart, before]
  · rw [Store.keys, found, Option.getD_some, Objects.keys_put, before]
    rfl
  · rw [bucket?_put_of_ne apart, bucket?_create_of_ne apart]
  · rw [buckets_put, buckets_create]

end Store

/-! ## Verdicts -/

namespace Loopback

structure Piece where
  bucket : String
  key : String
  bytes : Bytes

namespace Piece

def fits (p q : Piece) : Bool := p.bucket == q.bucket && p.key == q.key

/-- Whether a request brings a piece. -/
structure Within (p : Piece) (request : Value) : Prop where
  bucket : request.member "bucket" = .text p.bucket
  key : request.member "key" = .text p.key
  bytes : request.member "fileChunk" = .bytes p.bytes

end Piece

def nothingBrought : Fault := .invalidArgument "upload contained no chunks"

/-- The error that refuses an upload for a piece of another object than the first one's. -/
def strayPiece (p first : Piece) : Fault :=
  .invalidArgument ("chunk for " ++ p.bucket ++ "/" ++ p.key ++ " in upload of " ++ first.bucket ++
    "/" ++ first.key)

def noBucket (bucket : String) : Fault :=
  .plain (.bucketNotFound (.text bucket)) ("bucket \"" ++ bucket ++ "\" not found")

/-- What the pieces of an upload make, where these buckets are to be had: one object, or the error
that refuses them. The first stray piece counts. -/
def verdict (has : String → Bool) : List Piece → Except Fault Piece
  | [] => .error nothingBrought
  | first :: rest =>
    match rest.find? fun p => !p.fits first with
    | some p => .error (strayPiece p first)
    | none =>
      if has first.bucket then
        .ok ⟨first.bucket, first.key, first.bytes ++ (rest.map (·.bytes)).flatten⟩
      else .error (noBucket first.bucket)

/-- How pieces are split does not matter. -/
theorem verdict_split (has : String → Bool) (bucket key : String) (first : Bytes)
    (rest : List Bytes) :
    verdict has ((first :: rest).map fun bytes => ⟨bucket, key, bytes⟩) =
      verdict has [⟨bucket, key, first ++ rest.flatten⟩] := by
  have together : (rest.map fun bytes => (⟨bucket, key, bytes⟩ : Piece)).find?
      (fun p => !p.fits ⟨bucket, key, first⟩) = none := by
    simp [Piece.fits]
  simp [verdict, together, Function.comp_def]

/-- Whether a bucket is to be had: it exists, or missing ones are created. -/
def admits (c : Config) (s : Store) (bucket : String) : Bool :=
  (s.bucket? (.text bucket)).isSome || c.createsBuckets

/-- Whether this store and act follow the verdict on the pieces of an upload. -/
def Judges (c : Config) (s : Store) (pieces : List Piece) (after : Store × Act Duty) : Prop :=
  match verdict (admits c s) pieces with
  | .error f => after = (s, .call (.fail (.fault f)) .ending)
  | .ok whole => s.Gains after.1 whole.bucket whole.key whole.bytes ∧
    after.2 = acknowledge whole.bytes

/-! ## Intakes of pieces -/

/-- An intake that this piece came to first, and then these. -/
structure Intake.Holds (t : Intake) (first : Piece) (rest : List Piece) : Prop where
  target : t.target = some (.text first.bucket, .text first.key)
  failure : t.failure = (rest.find? fun p => !p.fits first).map (strayPiece · first)
  chunks : t.failure = none → t.chunks.reverse = (first :: rest).map fun p => .bytes p.bytes

/-- Whether an intake is what these pieces come to. -/
def Intake.Gathers (t : Intake) : List Piece → Prop
  | [] => t = .empty
  | first :: rest => t.Holds first rest

/-- Another piece is taken in after the first one. -/
theorem Intake.Holds.add {t : Intake} {first p : Piece} {rest : List Piece} {request : Value}
    (holds : t.Holds first rest) (within : p.Within request) :
    ∃ t', t.add request = .ok t' ∧ t'.Holds first (rest ++ [p]) := by
  obtain ⟨target, failure, chunks⟩ := holds
  have strays : (rest ++ [p]).find? (fun p => !p.fits first) =
      (rest.find? fun p => !p.fits first).or ([p].find? fun p => !p.fits first) :=
    List.find?_append
  cases failed : t.failure with
  | some f =>
      rw [failed] at failure
      refine ⟨t, by
        simp [Intake.add, failed], target, ?_, fun none => by cases failed.symm.trans none⟩
      cases stray : rest.find? fun p => !p.fits first with
      | none => simp [stray] at failure
      | some q =>
          rw [strays, stray]
          rw [stray] at failure
          exact failed.trans failure
  | none =>
      have together : rest.find? (fun p => !p.fits first) = none := by
        rw [failed] at failure
        exact Option.map_eq_none_iff.mp failure.symm
      rw [together, Option.none_or] at strays
      cases fits : p.fits first with
      | true =>
          obtain ⟨bucket, key⟩ : p.bucket = first.bucket ∧ p.key = first.key := by
            simpa [Piece.fits] using fits
          refine ⟨{ t with chunks := .bytes p.bytes :: t.chunks }, ?_, target, ?_, fun _ => ?_⟩
          · simp [Intake.add, failed, target, within.bucket, within.key, within.bytes, bucket, key,
              Value.same]
          · rw [strays]
            simp [failed, fits]
          · simp [chunks failed]
      | false =>
          have apart : ¬ (p.bucket = first.bucket ∧ p.key = first.key) := by
            simpa [Piece.fits] using fits
          refine ⟨{ t with failure := some (strayPiece p first) }, ?_, target, ?_, by rintro ⟨⟩⟩
          · simp only [Intake.add, failed, target, within.bucket, within.key]
            rw [if_neg (by simpa [Value.same] using apart)]
            rfl
          · rw [strays]
            simp [fits]

theorem Intake.Gathers.add {t : Intake} {pieces : List Piece} {p : Piece} {request : Value}
    (gathers : t.Gathers pieces) (within : p.Within request) :
    ∃ t', t.add request = .ok t' ∧ t'.Gathers (pieces ++ [p]) := by
  cases pieces with
  | nil =>
      obtain rfl : t = .empty := gathers
      exact ⟨_, rfl, by rw [within.bucket, within.key], rfl, fun _ => by rw [within.bytes]; rfl⟩
  | cons first rest => exact Intake.Holds.add gathers within

/-- The verdict on pieces is what the handler of an upload that took them in does at their end. -/
theorem Intake.Gathers.judges {t : Intake} {pieces : List Piece} (gathers : t.Gathers pieces)
    (c : Config) (s : Store) : Judges c s pieces (step c s (.receiving t) (.ok .eof)) := by
  cases pieces with
  | nil =>
      obtain rfl : t = .empty := gathers
      rfl
  | cons first rest =>
      obtain ⟨target, failure, chunks⟩ := gathers
      rw [Judges, verdict]
      cases stray : rest.find? fun p => !p.fits first with
      | some q =>
          rw [stray] at failure
          simp [step, conclude, failure, complain]
      | none =>
          have sound : t.failure = none := by rw [failure, stray]; rfl
          have joined : joinChunks? t.chunks.reverse =
              .ok (first.bytes ++ (rest.map (·.bytes)).flatten) := by
            have bytes : t.chunks.reverse = ((first :: rest).map (·.bytes)).map .bytes := by
              rw [chunks sound, List.map_map]
              rfl
            rw [bytes, joinChunks?_bytes]
            rfl
          cases admitted : admits c s first.bucket with
          | true =>
              have admits :
                  ((s.bucket? (.text first.bucket)).isNone && !c.createsBuckets) = false := by
                rw [admits] at admitted
                cases found : s.bucket? (.text first.bucket) <;> simp_all
              simp only [step, conclude, sound, target, admits, joined]
              exact ⟨s.gains_put _ _ _, rfl⟩
          | false =>
              have refused :
                  ((s.bucket? (.text first.bucket)).isNone && !c.createsBuckets) = true := by
                rw [admits] at admitted
                cases found : s.bucket? (.text first.bucket) <;> simp_all
              simp only [step, conclude, sound, target, refused]
              rfl

/-- Whether the handler of an upload goes from one duty to another by receiving requests, one after
another and whatever is stored meanwhile. -/
inductive Drains (c : Config) : Duty → List Value → Duty → Prop where
  | done {d} : Drains c d [] d
  | takes {d d' d'' v rest} : v ≠ .eof → (∀ s, step c s d (.ok v) = (s, .call .receive d')) →
    Drains c d' rest d'' → Drains c d (v :: rest) d''

theorem Piece.Within.more {p : Piece} {request : Value} (within : p.Within request) :
    request ≠ .eof := by
  rintro rfl
  exact nomatch within.bucket

theorem Drains.more {c : Config} {d d' : Duty} {requests : List Value}
    (drains : Drains c d requests d') : ∀ v ∈ requests, v ≠ .eof := by
  induction drains with
  | done => exact fun _ mem => absurd mem List.not_mem_nil
  | takes more _ _ ih => exact List.forall_mem_cons.mpr ⟨more, ih⟩

theorem Intake.Gathers.drains {t : Intake} {before pieces : List Piece} {requests : List Value}
    (gathers : t.Gathers before) (within : List.Forall₂ Piece.Within pieces requests) (c : Config) :
    ∃ t', requests.foldlM Intake.add t = .ok t' ∧ Drains c (.receiving t) requests (.receiving t') ∧
      t'.Gathers (before ++ pieces) := by
  induction within generalizing t before with
  | nil => exact ⟨t, rfl, .done, by rwa [List.append_nil]⟩
  | @cons p request pieces requests within _ ih =>
      obtain ⟨t', added, gathers'⟩ := gathers.add within
      obtain ⟨t'', adds, drains, gathers''⟩ := ih gathers'
      have more := within.more
      refine ⟨t'', ?_, .takes more (fun s => ?_) drains, by rwa [List.append_cons]⟩
      · rw [List.foldlM_cons, added]
        exact adds
      · simp [step, added]

/-- The handler of an upload takes in all its pieces and then follows the verdict on them. -/
theorem takes_pieces {pieces : List Piece} {requests : List Value}
    (within : List.Forall₂ Piece.Within pieces requests) (c : Config) : ∃ t : Intake,
      t.Takes requests ∧ Drains c (.receiving .empty) requests (.receiving t) ∧
      ∀ s, Judges c s pieces (step c s (.receiving t) (.ok .eof)) := by
  have nothing : Intake.Gathers .empty [] := rfl
  obtain ⟨t, adds, drains, gathers⟩ := nothing.drains within c
  exact ⟨t, ⟨adds, drains.more⟩, drains, gathers.judges c⟩

end Loopback

end ObjectTransfer
