/-! # Binary64 numbers, exactly

A finite binary64 number is an integer over a power of two, so it is kept as that fraction in
lowest terms. `Number.ofRatio` is the one place where a number is rounded: a ratio goes to the
nearest representable number, an exact half to the one with the even significand, and what exceeds
the largest finite number to infinity. Reading a decimal and adding two numbers are exact up to that
rounding.
-/

namespace ObjectTransfer

/-- A binary64 number. There is no value for "not a number". -/
inductive Number where
  /-- An integer; its zero is the positive one. -/
  | whole (value : Int)
  /-- The negative zero. -/
  | negativeZero
  /-- The number `numerator / 2 ^ places`, where `numerator` is odd and `places` is positive. -/
  | fraction (numerator : Int) (places : Nat)
  /-- An infinity. -/
  | infinite (negative : Bool)
  deriving DecidableEq, Repr, Inhabited

namespace Number

/-- `n / d` to the nearest integer, a half to the even neighbour. -/
def roundHalfEven (n d : Nat) : Nat :=
  let q := n / d
  let twice := 2 * (n % d)
  if d < twice ∨ (twice = d ∧ q % 2 = 1) then q + 1 else q

def zero (negative : Bool) : Number :=
  if negative then .negativeZero else .whole 0

/-- The number `± m * 2 ^ e`, in lowest terms. -/
def ofScaled (negative : Bool) (m : Nat) (e : Int) : Number :=
  let signed (n : Nat) : Int := if negative then -(n : Int) else n
  if m = 0 then zero negative
  else
    match e with
    | .ofNat up =>
      if m <<< up < 1 <<< 1024 then .whole (signed (m <<< up)) else .infinite negative
    | .negSucc down =>
      let common := Nat.gcd m (1 <<< (down + 1))
      let places := down + 1 - Nat.log2 common
      if places = 0 then .whole (signed (m / common)) else .fraction (signed (m / common)) places

/-- The binary64 number nearest to `± n / d`: a significand of 53 bits, and no exponent of two
below -1074. -/
def ofRatio (negative : Bool) (n d : Nat) : Number :=
  if n = 0 then zero negative
  else
    let scaled (e : Int) : Nat × Nat :=
      match e with
      | .ofNat up => (n, d <<< up)
      | .negSucc down => (n <<< (down + 1), d)
    let guess : Int := (Nat.log2 n : Int) - Nat.log2 d - 52
    let (a, b) := scaled guess
    let e := max (if a / b < 1 <<< 52 then guess - 1 else guess) (-1074)
    let (a, b) := scaled e
    ofScaled negative (roundHalfEven a b) e

/-- The binary64 number nearest to `± digits * 10 ^ exponent`. Beyond 10 ^ 309 and below
10 ^ -324 the answer is known without computing the power. -/
def ofDecimal (negative : Bool) (digits : Nat) (exponent : Int) : Number :=
  let magnitude := ((Nat.toDigits 10 digits).length : Int) + exponent
  if digits = 0 ∨ magnitude ≤ -324 then zero negative
  else if 309 < magnitude then .infinite negative
  else
    match exponent with
    | .ofNat up => ofRatio negative (digits * Nat.pow 10 up) 1
    | .negSucc down => ofRatio negative digits (Nat.pow 10 (down + 1))

/-- The sum of `m / 2 ^ i` and `n / 2 ^ j`. A sum of zero is the positive zero. -/
def ofSum (m : Int) (i : Nat) (n : Int) (j : Nat) : Number :=
  let places := max i j
  let sum := m * (1 <<< (places - i) : Nat) + n * (1 <<< (places - j) : Nat)
  ofRatio (decide (sum < 0)) sum.natAbs (1 <<< places)

/-- The sum of two numbers. Infinities of both signs have none. -/
def add? : Number → Number → Option Number
  | infinite a, infinite b => if a = b then some (infinite a) else none
  | infinite a, _ => some (infinite a)
  | _, infinite b => some (infinite b)
  | negativeZero, n => some n
  | n, negativeZero => some n
  | whole m, whole n => some (ofSum m 0 n 0)
  | whole m, fraction n j => some (ofSum m 0 n j)
  | fraction m i, whole n => some (ofSum m i n 0)
  | fraction m i, fraction n j => some (ofSum m i n j)

/-- Whether a number is an integer, which an infinity is not. -/
def isWhole : Number → Bool
  | whole _ => true
  | negativeZero => true
  | _ => false

def isZero : Number → Bool
  | whole n => n == 0
  | negativeZero => true
  | _ => false

/-- Whether two numbers are equal; the two zeros are. -/
def same (a b : Number) : Bool :=
  a == b || a.isZero && b.isZero

def isPositive : Number → Bool
  | whole n => 0 < n
  | negativeZero => false
  | fraction m _ => 0 < m
  | infinite negative => !negative

def isNegative : Number → Bool
  | whole n => n < 0
  | negativeZero => false
  | fraction m _ => m < 0
  | infinite negative => negative

def abs : Number → Number
  | whole n => whole n.natAbs
  | negativeZero => whole 0
  | fraction m places => fraction m.natAbs places
  | infinite _ => infinite false

def exceeds (bound : Nat) : Number → Bool
  | whole n => (bound : Int) < n
  | negativeZero => false
  | fraction m places => (bound <<< places : Nat) < m
  | infinite negative => !negative

end Number

end ObjectTransfer
