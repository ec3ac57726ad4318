import ModalEdit.Decimal.Double

/-!
# Configuration values

The values of a configuration file: strings, numbers, truth values, dates and times, arrays and
tables. The entries of a table are kept in the order of their keys.
-/

namespace ModalEdit.Toml

/-- A day of a calendar. -/
structure Date where
  year : Nat
  month : Nat
  day : Nat
deriving DecidableEq, Repr

/-- A time of day. The fraction of a second is counted in billionths. -/
structure Time where
  hour : Nat
  minute : Nat
  second : Nat := 0
  fraction : Nat := 0
deriving DecidableEq, Repr

/-- How far local time is ahead of universal time. -/
inductive Offset where
  /-- The time is universal time. -/
  | universal
  /-- The distance in minutes. -/
  | minutes (n : Int)
deriving DecidableEq, Repr

/-- A date, a time, or both, perhaps with an offset. -/
structure Datetime where
  date : Option Date := none
  time : Option Time := none
  offset : Option Offset := none
deriving DecidableEq, Repr

/-- A configuration value. -/
inductive Value where
  | string (s : String)
  | integer (n : Int)
  | float (x : Decimal.Double)
  | boolean (b : Bool)
  | datetime (d : Datetime)
  | array (xs : List Value)
  | table (entries : List (String × Value))

/-- The entries of a table, by ascending key. -/
abbrev Table := List (String × Value)

namespace Value

/-- What kind of value it is, in words. -/
def kind : Value → String
  | string _ => "string"
  | integer _ => "integer"
  | float _ => "float"
  | boolean _ => "boolean"
  | datetime _ => "datetime"
  | array _ => "array"
  | table _ => "table"

/-- The text of a string. -/
def string? : Value → Option String
  | string s => some s
  | _ => none

/-- The elements of an array. -/
def array? : Value → Option (List Value)
  | array xs => some xs
  | _ => none

/-- The entries of a table. -/
def table? : Value → Option Table
  | table t => some t
  | _ => none

end Value

/-- The value under a key. -/
def Table.get? (t : Table) (key : String) : Option Value := List.lookup key t

/-- Put an entry into its place among entries in the order of their keys. -/
def putEntry {α : Type} (key : String) (x : α) : List (String × α) → List (String × α)
  | [] => [(key, x)]
  | (k, y) :: rest =>
    if k < key then (k, y) :: putEntry key x rest
    else if k = key then (key, x) :: rest
    else (key, x) :: (k, y) :: rest

end ModalEdit.Toml
