import ModalEdit.Decimal.Double

/-!
# The fewest digits

The decimal number that stands for a number in double precision is the one with the fewest digits
among those that read back as it, and of these the nearest. If two are equally near, it is the upper
one.
-/

namespace ModalEdit.Decimal

/-- The decimal number `0.d₁d₂d₃… * 10 ^ point`. -/
structure Digits where
  /-- The digits, without zeros at the end. -/
  digits : List Char
  /-- How many digits stand before the decimal point. -/
  point : Int
deriving DecidableEq, Repr

namespace Double

/-- Whether `num₁ / den₁` lies below `num₂ / den₂`, or on it if `orEqual`. -/
def below (orEqual : Bool) (num₁ den₁ num₂ den₂ : Nat) : Bool :=
  let a := num₁ * den₂
  let b := num₂ * den₁
  decide (a < b) || (orEqual && a == b)

/-- Whether `d * 10 ^ k` is rounded to `m * 2 ^ q`. Distances are counted in quarters of the last
place: the numbers reach half a place up, and half a place down or a quarter below the least number
of 53 bits. -/
def readsBack (m : Nat) (q : Int) (d : Nat) (k : Int) : Bool :=
  let even := m % 2 == 0
  let low := if m = leastSignificand ∧ leastExponent < q then 4 * m - 1 else 4 * m - 2
  let unit := q - 2
  let up := powNum 2 unit
  let down := powDen 2 unit
  let num := d * powNum 10 k
  let den := powDen 10 k
  below even (low * up) down num den && below even num den ((4 * m + 2) * up) down

/-- The least power of ten above `num / den`. -/
def scale (num den : Nat) : Int :=
  if den ≤ num then ((Nat.toDigits 10 (num / den)).length : Int)
  else 1 - ((Nat.toDigits 10 ((den - 1) / num)).length : Int)

/-- The nearest of the two neighbours of `num / den` on the grid of multiples of `10 ^ k`, of those
that pass the test. -/
def nearestOnGrid (num den : Nat) (k : Int) (test : Nat → Bool) : Option Nat :=
  let num := num * powDen 10 k
  let den := den * powNum 10 k
  let d := num / den
  match test d, test (d + 1) with
  | true, true => some (if 2 * num < (2 * d + 1) * den then d else d + 1)
  | true, false => some d
  | false, true => some (d + 1)
  | false, false => none

/-- The decimal number with the fewest digits that stands for `m * 2 ^ q`. Seventeen digits are
always enough. -/
def shortest (m : Nat) (q : Int) : Digits :=
  if m = 0 then ⟨['0'], 1⟩
  else
    let num := m * powNum 2 q
    let den := powDen 2 q
    let top := scale num den
    let hit := (List.range 17).findSome? fun (n : Nat) =>
      let k : Int := top - (n + 1)
      (nearestOnGrid num den k fun d => readsBack m q d k).map fun d => (d, k)
    let (d, k) := hit.getD (num / den, 0)
    let ds := Nat.toDigits 10 d
    ⟨(ds.reverse.dropWhile (· == '0')).reverse, ds.length + k⟩

end Double

/-- The number without an exponent and with at least one digit on each side of the point. -/
def Digits.pointed (x : Digits) : List Char :=
  let n := x.digits.length
  if x.point ≤ 0 then "0.".toList ++ List.replicate (-x.point).toNat '0' ++ x.digits
  else if n ≤ x.point.toNat then x.digits ++ List.replicate (x.point.toNat - n) '0' ++ ".0".toList
  else x.digits.take x.point.toNat ++ '.' :: x.digits.drop x.point.toNat

/-- The text of a number, without an exponent. -/
def Double.render : Double → List Char
  | .nan => "nan".toList
  | .infinity negative => (if negative then ['-'] else []) ++ "inf".toList
  | .finite negative m q => (if negative then ['-'] else []) ++ (shortest m q).pointed

end ModalEdit.Decimal
