/-!
# Numerals

The values of digits and of sequences of digits in a base of at most sixteen, and characters given
by their code points in hexadecimal.
-/

namespace ModalEdit

/-- The value of a digit in the given base. -/
def digit? (base : Nat) (c : Char) : Option Nat :=
  let n :=
    if c.isDigit then c.toNat - '0'.toNat
    else if 'a' ≤ c ∧ c ≤ 'f' then c.toNat - 'a'.toNat + 10
    else if 'A' ≤ c ∧ c ≤ 'F' then c.toNat - 'A'.toNat + 10
    else base
  if n < base then some n else none

/-- The number that digits write. -/
def ofDigits (base : Nat) (ds : List Nat) : Nat := ds.foldl (fun n d => base * n + d) 0

/-- The character whose code point hexadecimal digits write. -/
def charOfHex? (digits : List Char) : Option Char := do
  let ds ← digits.mapM (digit? 16)
  let n := ofDigits 16 ds
  if h : n.isValidChar then some (Char.ofNatAux n h) else none

end ModalEdit
