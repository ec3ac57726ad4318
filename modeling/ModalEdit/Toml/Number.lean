import ModalEdit.Decimal.Double
import ModalEdit.Text.Numeral

/-!
# Numbers in a configuration

Whole numbers are decimal, or hexadecimal, octal or binary behind `0x`, `0o` and `0b`. Other numbers
have a fraction, an exponent or both, or are `inf` or `nan`. A single underscore may stand between
two digits. Decimal numbers have no needless zeros in front and may have a sign.
-/

namespace ModalEdit.Toml

/-- The digits of a text in which single underscores may stand between digits. -/
def digits? (base : Nat) : List Char → Option (List Nat)
  | [] => none
  | [c] => (digit? base c).map ([·])
  | c :: '_' :: rest => do return (← digit? base c) :: (← digits? base rest)
  | c :: rest => do return (← digit? base c) :: (← digits? base rest)

/-- The digits of a decimal number without needless zeros in front. -/
def plainDigits? (cs : List Char) : Option (List Nat) := do
  let ds ← digits? 10 cs
  if ds.head? = some 0 ∧ ds.length ≠ 1 then none else some ds

/-- Split off a sign; `true` stands for a minus. -/
def splitSign : List Char → Bool × List Char
  | '-' :: rest => (true, rest)
  | '+' :: rest => (false, rest)
  | rest => (false, rest)

/-- Read a whole number. -/
def readInteger? (cs : List Char) : Option Int :=
  match cs with
  | '0' :: 'x' :: rest => (digits? 16 rest).map fun ds => ofDigits 16 ds
  | '0' :: 'o' :: rest => (digits? 8 rest).map fun ds => ofDigits 8 ds
  | '0' :: 'b' :: rest => (digits? 2 rest).map fun ds => ofDigits 2 ds
  | _ =>
    let (negative, rest) := splitSign cs
    (plainDigits? rest).map fun ds =>
      let n : Int := ofDigits 10 ds
      if negative then -n else n

/-- Read an exponent, which is zero if there is none. -/
def readExponent? (cs : List Char) : Option Int :=
  match cs with
  | [] => some 0
  | _ :: rest =>
    let (negative, rest) := splitSign rest
    (digits? 10 rest).map fun ds =>
      let n : Int := ofDigits 10 ds
      if negative then -n else n

/-- Read the digits behind the point, if there is one. -/
def readFraction? (cs : List Char) : Option (List Nat) :=
  match cs with
  | [] => some []
  | _ :: rest => digits? 10 rest

/-- Read a number that need not be whole. Numbers beyond the greatest finite one are refused. -/
def readFloat? (cs : List Char) : Option Decimal.Double := do
  let (negative, rest) := splitSign cs
  if rest = "inf".toList then return .infinity negative
  if rest = "nan".toList then return .nan
  let isMark (c : Char) : Bool := c == 'e' || c == 'E'
  let mantissa := rest.takeWhile fun c => !isMark c
  let exponent := rest.dropWhile fun c => !isMark c
  if exponent.isEmpty ∧ !mantissa.contains '.' then none
  let whole ← plainDigits? (mantissa.takeWhile (· != '.'))
  let fraction ← readFraction? (mantissa.dropWhile (· != '.'))
  let e ← readExponent? exponent
  let x := Decimal.Double.ofDecimal negative (ofDigits 10 (whole ++ fraction)) (e - fraction.length)
  if x.isFinite then return x else none

end ModalEdit.Toml
