/-!
# Double precision

A number in double precision is a whole number of at most 53 bits times a power of two. A decimal
number is read as the nearest such number; a decimal number halfway between two goes to the one
with the even significand. All arithmetic is exact.
-/

namespace ModalEdit.Decimal

/-- The quotient of two natural numbers, rounded to the nearest one. A tie goes to the even one. -/
def roundDiv (num den : Nat) : Nat :=
  let n := num / den
  let r := 2 * (num % den)
  if den < r ∨ (r = den ∧ n % 2 = 1) then n + 1 else n

/-- The numerator of a power. -/
def powNum (base : Nat) (e : Int) : Nat := Nat.pow base e.toNat

/-- The denominator of a power. -/
def powDen (base : Nat) (e : Int) : Nat := Nat.pow base (-e).toNat

/-- A number in double precision. -/
inductive Double where
  /-- The number `significand * 2 ^ exponent` with its sign, which zero has as well. -/
  | finite (negative : Bool) (significand : Nat) (exponent : Int)
  /-- Beyond the greatest finite numbers. -/
  | infinity (negative : Bool)
  /-- Not a number. -/
  | nan
deriving DecidableEq, Repr

namespace Double

/-- The exponent of the numbers that lie closest together. -/
def leastExponent : Int := -1074

/-- The exponent of the greatest numbers. -/
def greatestExponent : Int := 971

/-- The least number of 53 bits. -/
def leastSignificand : Nat := Nat.pow 2 52

/-- The exponent at which `num / den` has 53 bits before the point, if it is not too small for
that. -/
def quantum (num den : Nat) : Int :=
  let q : Int := (num.log2 : Int) - den.log2 - 53
  let above := den * powNum 2 (q + 53) ≤ num * powDen 2 (q + 53)
  max leastExponent (if above then q + 1 else q)

/-- The number nearest to `num / den`. -/
def ofQuotient (negative : Bool) (num den : Nat) : Double :=
  let q := quantum num den
  let n := roundDiv (num * powDen 2 q) (den * powNum 2 q)
  let (n, q) := if n = 2 * leastSignificand then (leastSignificand, q + 1) else (n, q)
  if greatestExponent < q then infinity negative else finite negative n q

/-- The number nearest to `digits * 10 ^ exponent`. Magnitudes far outside the range are decided by
the number of digits alone. -/
def ofDecimal (negative : Bool) (digits : Nat) (exponent : Int) : Double :=
  let size : Int := (Nat.toDigits 10 digits).length + exponent
  if digits = 0 ∨ size < -330 then finite negative 0 leastExponent
  else if 310 < size then infinity negative
  else ofQuotient negative (digits * powNum 10 exponent) (powDen 10 exponent)

/-- The number is finite. -/
def isFinite : Double → Bool
  | finite .. => true
  | _ => false

end Double

end ModalEdit.Decimal
