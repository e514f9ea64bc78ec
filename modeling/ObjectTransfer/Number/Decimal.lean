import ObjectTransfer.Number

/-! # The shortest decimal of a number

A number is written with the fewest decimal digits that read back as that number, and with the
decimal nearest to it if several of that length do; of two equally near ones the even one is taken.
Whether a decimal reads back is decided by reading it, so `Number.text` and the reader of numbers
cannot disagree.
-/

namespace ObjectTransfer

/-- The decimal `digits * 10 ^ exponent`. -/
structure Decimal where
  digits : Nat
  exponent : Int
  deriving DecidableEq, Repr

namespace Decimal

def toNumber (d : Decimal) : Number :=
  .ofDecimal false d.digits d.exponent

/-- The least power of ten that is greater than the positive ratio `n / d`, as an exponent. -/
def scale (n d : Nat) : Int :=
  let up := (Nat.toDigits 10 n).length
  let down := (Nat.toDigits 10 d).length
  if n * Nat.pow 10 down < d * Nat.pow 10 up then (up : Int) - down else (up : Int) - down + 1

/-- The two multiples of `10 ^ exponent` around the ratio `n / d`, the nearer one first. -/
def neighbours (n d : Nat) (exponent : Int) : List Decimal :=
  let (a, b) :=
    match exponent with
    | .ofNat up => (n, d * Nat.pow 10 up)
    | .negSucc down => (n * Nat.pow 10 (down + 1), d)
  let nearer := Number.roundHalfEven a b
  let other := if nearer = a / b then nearer + 1 else nearer - 1
  [⟨nearer, exponent⟩, ⟨other, exponent⟩]

/-- All decimal places of `n / 2 ^ places`. -/
def exact (n places : Nat) : Decimal :=
  ⟨n * Nat.pow 5 places, -places⟩

/-- The shortest decimal of the positive number `n / 2 ^ places`. Seventeen digits always suffice to
tell a binary64 number from all others, so its exact decimal is never needed. -/
def shortest (n places : Nat) : Decimal :=
  let x := Number.ofRatio false n (1 <<< places)
  let coarsest := scale n (1 <<< places) - 1
  ((List.range 17).findSome? fun (finer : Nat) =>
    (neighbours n (1 <<< places) (coarsest - finer)).find? (·.toNumber == x)).getD (exact n places)

/-- A decimal without the zeros at the end of its digits. -/
def strip (d : Decimal) : Decimal :=
  let ds := (Nat.toDigits 10 d.digits).reverse
  let zeros := (ds.takeWhile (· == '0')).length
  ⟨d.digits / Nat.pow 10 zeros, d.exponent + zeros⟩

def zeros (n : Nat) : String :=
  String.ofList (List.replicate n '0')

/-- A positive decimal in positional notation, if the point stands at most 21 places behind the
beginning of the digits and at most 5 before it; otherwise with an exponent. -/
def text (d : Decimal) : String :=
  let ds := Nat.toDigits 10 d.digits
  let point : Int := ds.length + d.exponent
  if ds.length ≤ point ∧ point ≤ 21 then
    String.ofList ds ++ zeros (point.toNat - ds.length)
  else if 0 < point ∧ point ≤ 21 then
    String.ofList (ds.take point.toNat) ++ "." ++ String.ofList (ds.drop point.toNat)
  else if -6 < point ∧ point ≤ 0 then
    "0." ++ zeros (-point).toNat ++ String.ofList ds
  else
    let places := ds.drop 1
    String.ofList (ds.take 1) ++ (if places.isEmpty then "" else "." ++ String.ofList places) ++
      (if point < 1 then "e-" else "e+") ++ toString (point - 1).natAbs

end Decimal

namespace Number

/-- The text of `± n / 2 ^ places`, where `n` is positive. -/
def signedText (negative : Bool) (n places : Nat) : String :=
  (if negative then "-" else "") ++ (Decimal.shortest n places).strip.text

/-- The text of a number. Neither zero shows a sign. Integers up to 2 ^ 53 are their own shortest
decimals. -/
def text : Number → String
  | .whole n =>
    if n.natAbs ≤ 1 <<< 53 then toString n else signedText (decide (n < 0)) n.natAbs 0
  | .negativeZero => "0"
  | .fraction m places => signedText (decide (m < 0)) m.natAbs places
  | .infinite negative => if negative then "-Infinity" else "Infinity"

end Number

end ObjectTransfer
