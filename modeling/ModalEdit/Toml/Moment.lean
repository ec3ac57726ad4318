import ModalEdit.Toml.Value

/-!
# Dates and times in a configuration

A date is written `1979-05-27` and a time `07:32:00.5`, where the seconds or their fraction may be
missing and are zero then. Both may be joined by a `T` or a blank, and then an offset such as `Z` or
`-07:00` may follow. `Datetime.read?` reads such a text. `Datetime.render` writes the seconds always
and their fraction only if it is not zero.
-/

namespace ModalEdit.Toml

/-- Read a number of exactly `n` decimal digits off the front of a text. -/
def takeNumber? (n : Nat) (cs : List Char) : Option (Nat × List Char) :=
  let ds := cs.take n
  if ds.length = n ∧ ds.all Char.isDigit then
    some (ds.foldl (fun m c => 10 * m + (c.toNat - '0'.toNat)) 0, cs.drop n)
  else none

/-- Read a given character off the front of a text. -/
def takeChar? (c : Char) : List Char → Option (List Char)
  | x :: rest => if x = c then some rest else none
  | [] => none

/-- The number of days of a month. -/
def daysOfMonth (year month : Nat) : Nat :=
  if month = 2 then
    if year % 4 = 0 ∧ (year % 100 ≠ 0 ∨ year % 400 = 0) then 29 else 28
  else if [4, 6, 9, 11].contains month then 30
  else 31

/-- Read a date off the front of a text. -/
def takeDate? (cs : List Char) : Option (Date × List Char) := do
  let (year, cs) ← takeNumber? 4 cs
  let cs ← takeChar? '-' cs
  let (month, cs) ← takeNumber? 2 cs
  let cs ← takeChar? '-' cs
  let (day, cs) ← takeNumber? 2 cs
  if 1 ≤ month ∧ month ≤ 12 ∧ 1 ≤ day ∧ day ≤ daysOfMonth year month then
    return (⟨year, month, day⟩, cs)
  else none

/-- Read the fraction of a second off the front of a text, if there is one. What lies beyond
billionths is dropped. -/
def takeFraction? (cs : List Char) : Option (Nat × List Char) :=
  match cs with
  | '.' :: rest =>
    let ds := rest.takeWhile Char.isDigit
    if ds.isEmpty then none
    else do
      let (n, _) ← takeNumber? 9 (ds ++ List.replicate 9 '0')
      return (n, rest.dropWhile Char.isDigit)
  | _ => some (0, cs)

/-- Read a time off the front of a text. -/
def takeTime? (cs : List Char) : Option (Time × List Char) := do
  let (hour, cs) ← takeNumber? 2 cs
  let cs ← takeChar? ':' cs
  let (minute, cs) ← takeNumber? 2 cs
  if 23 < hour ∨ 59 < minute then none
  match cs with
  | ':' :: cs =>
    let (second, cs) ← takeNumber? 2 cs
    if 60 < second then none
    let (fraction, cs) ← takeFraction? cs
    return ({ hour, minute, second, fraction }, cs)
  | _ => return ({ hour, minute }, cs)

/-- Read an offset that fills the text; an empty text is no offset. -/
def readOffset? (cs : List Char) : Option (Option Offset) :=
  match cs with
  | [] => some none
  | ['Z'] | ['z'] => some (some .universal)
  | sign :: rest => do
    if sign ≠ '+' ∧ sign ≠ '-' then none
    let (hours, rest) ← takeNumber? 2 rest
    let rest ← takeChar? ':' rest
    let (minutes, rest) ← takeNumber? 2 rest
    if rest ≠ [] ∨ 23 < hours ∨ 59 < minutes then none
    let n : Int := 60 * hours + minutes
    return some (.minutes (if sign = '-' then -n else n))

namespace Datetime

/-- Read a date, a time or both. -/
def read? (cs : List Char) : Option Datetime :=
  match takeDate? cs with
  | some (date, []) => some { date := some date }
  | some (date, mark :: rest) =>
    if mark = 'T' ∨ mark = 't' ∨ mark = ' ' then do
      let (time, rest) ← takeTime? rest
      let offset ← readOffset? rest
      return { date := some date, time := some time, offset }
    else none
  | none => do
    let (time, rest) ← takeTime? cs
    if rest.isEmpty then return { time := some time } else none

/-- A number with zeros in front up to a width. -/
def padded (width n : Nat) : List Char :=
  let ds := Nat.toDigits 10 n
  List.replicate (width - ds.length) '0' ++ ds

/-- The text of a date. -/
def renderDate (d : Date) : List Char :=
  padded 4 d.year ++ '-' :: padded 2 d.month ++ '-' :: padded 2 d.day

/-- The text of a fraction of a second, without needless zeros at the end. -/
def renderFraction (n : Nat) : List Char :=
  if n = 0 then [] else '.' :: ((padded 9 n).reverse.dropWhile (· == '0')).reverse

/-- The text of a time. -/
def renderTime (t : Time) : List Char :=
  padded 2 t.hour ++ ':' :: padded 2 t.minute ++ ':' :: padded 2 t.second
    ++ renderFraction t.fraction

/-- The text of an offset. -/
def renderOffset : Offset → List Char
  | .universal => ['Z']
  | .minutes n =>
    let m := n.natAbs
    (if n < 0 then '-' else '+') :: padded 2 (m / 60) ++ ':' :: padded 2 (m % 60)

/-- The text of a date, a time or both. -/
def render (d : Datetime) : List Char :=
  let date := (d.date.map renderDate).getD []
  let time := (d.time.map renderTime).getD []
  let mark := if d.date.isSome ∧ d.time.isSome then ['T'] else []
  date ++ mark ++ time ++ (d.offset.map renderOffset).getD []

end Datetime

end ModalEdit.Toml
