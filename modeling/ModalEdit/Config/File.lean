import ModalEdit.Config.Binding
import ModalEdit.Keymap
import ModalEdit.State
import ModalEdit.Toml.Text

/-!
# The configuration

A configuration has three parts, all of which may be missing: `cursor` says where resting cursors
may be, `bindings` calls commands of the editor by keys and `comments` gives the tokens that begin
line comments. `Config.read` reads it from the text of a file. If one of these parts has the wrong
kind of value, or the text is at fault, everything is as if there were no file. Single faulty
bindings do no such harm; see `Binding.readAll`.
-/

namespace ModalEdit

/-- What a configuration says. -/
structure Config where
  /-- There is a file and it can be read. -/
  loaded : Bool := false
  /-- Where a resting cursor may be. -/
  placement : Placement := .gap
  /-- The bindings, which are not checked yet. -/
  bindings : Option Toml.Value := none
  /-- The tokens that begin line comments, by language. -/
  comments : List (String × String) := []

namespace Config

/-- The line comments that need no configuration. -/
def defaultComments : List (String × String) :=
  [("c", "//"), ("cpp", "//"), ("csharp", "//"), ("go", "//"), ("java", "//"), ("javascript", "//"),
    ("typescript", "//"), ("rust", "//"), ("python", "#"), ("ruby", "#"), ("shellscript", "#"),
    ("toml", "#"), ("yaml", "#"), ("lua", "--"), ("sql", "--"), ("haskell", "--"), ("vim", "\"")]

mutual

/-- All whole numbers in a value lie between two bounds. -/
def within (low high : Int) : Toml.Value → Bool
  | .integer n => decide (low ≤ n) && decide (n ≤ high)
  | .array vs => elementsWithin low high vs
  | .table entries => entriesWithin low high entries
  | _ => true

/-- All whole numbers in the elements of an array lie between two bounds. -/
def elementsWithin (low high : Int) : List Toml.Value → Bool
  | [] => true
  | v :: vs => within low high v && elementsWithin low high vs

/-- All whole numbers in the entries of a table lie between two bounds. -/
def entriesWithin (low high : Int) : List (String × Toml.Value) → Bool
  | [] => true
  | (_, v) :: rest => within low high v && entriesWithin low high rest

end

/-- The least number that needs more than `n` bits. -/
def bits (n : Nat) : Int := Nat.pow 2 n

/-- Whole numbers that nobody reads have at most 128 bits. -/
def isIgnorable (v : Toml.Value) : Bool := within (-(bits 127)) (bits 128 - 1) v

/-- The key that makes a table a date or time. -/
def dateKey : String := "$__toml_private_datetime"

mutual

/-- The value that is kept for a value in bindings. Whole numbers have 64 bits, one of them for the
sign. A table whose first key is `dateKey` is the date or time whose text stands under this key. -/
def keep? : Toml.Value → Option Toml.Value
  | .integer n => if -(bits 63) ≤ n ∧ n < bits 63 then some (.integer n) else none
  | .array vs => (keepElements? vs).map .array
  | .table ((key, v) :: rest) =>
    if key = dateKey then (v.string?.bind fun s => Toml.Datetime.read? s.toList).map .datetime
    else do
      let v ← keep? v
      return .table ((key, v) :: (← keepEntries? rest))
  | v => some v

/-- The values that are kept for the elements of an array. -/
def keepElements? : List Toml.Value → Option (List Toml.Value)
  | [] => some []
  | v :: vs => do return (← keep? v) :: (← keepElements? vs)

/-- The values that are kept for the entries of a table behind the first. -/
def keepEntries? : List (String × Toml.Value) → Option (List (String × Toml.Value))
  | [] => some []
  | (key, v) :: rest => do return (key, ← keep? v) :: (← keepEntries? rest)

end

/-- The placement with the given name. -/
def placementOfName? (name : String) : Option Placement :=
  if name = "vscode-native" then some .gap
  else if name = "vim-traditional" then some .onChar
  else none

/-- Read a placement: its name, or a table that has the name as its only key and nothing under it.
-/
def readPlacement? : Toml.Value → Option Placement
  | .string name => placementOfName? name
  | .table [(name, .table [])] => placementOfName? name
  | .table [(name, .array [])] => placementOfName? name
  | _ => none

/-- The entries of a table. A date or time counts as a table that holds nothing but its text, under
`dateKey`. -/
def tableOrDate? : Toml.Value → Option Toml.Table
  | .table t => some t
  | .datetime d => some [(dateKey, .string (String.ofList d.render))]
  | _ => none

/-- Read the part about cursors: a table with a placement, or an array that begins with one. A
missing placement is a gap. -/
def readCursor? : Toml.Value → Option Placement
  | .array [] => some .gap
  | .array (v :: _) => readPlacement? v
  | v => do
    let t ← tableOrDate? v
    if (t.filter fun e => e.1 != "placement").all fun e => isIgnorable e.2 then
      match t.get? "placement" with
      | none => some .gap
      | some v => readPlacement? v
    else none

/-- Read the part about comments: a table of strings. -/
def readComments? (v : Toml.Value) : Option (List (String × String)) := do
  (← tableOrDate? v).mapM fun e => e.2.string?.map fun s => (e.1, s)

/-- Read a part of the configuration, if it is there. -/
def readPart {α : Type} (t : Toml.Table) (key : String) (missing : α)
    (read : Toml.Value → Option α) : Option α :=
  match t.get? key with
  | none => some missing
  | some v => read v

/-- Read a configuration from the table that its file describes. -/
def ofTable? (t : Toml.Table) : Option Config := do
  let known := ["cursor", "bindings", "comments"]
  let placement ← readPart t "cursor" .gap readCursor?
  let bindings ← readPart t "bindings" none fun v => (keep? v).map some
  let comments ← readPart t "comments" [] readComments?
  if (t.filter fun e => !known.contains e.1).all fun e => isIgnorable e.2 then
    return { loaded := true, placement, bindings, comments }
  else none

/-- Read a configuration from the text of its file, if there is one. -/
def read (text : Option (List Char)) : Config :=
  ((text.bind Toml.read?).bind ofTable?).getD {}

variable (c : Config)

/-- The comment token of a language. -/
def lineComment? (language : String) : Option String :=
  (c.comments.lookup language).or (defaultComments.lookup language)

/-- All comment tokens, by language. The configuration overrides the defaults. -/
def commentTable : List (String × String) :=
  c.comments.foldl (fun t e => Toml.putEntry e.1 e.2 t)
    (defaultComments.foldl (fun t e => Toml.putEntry e.1 e.2 t) [])

/-- What the engine reads of the configuration. -/
def settings : Settings where
  placement := c.placement
  comments := c.commentTable

/-- The actions of a configuration and what is wrong with its bindings. -/
def keymap : Keymap × List BindingError :=
  let (good, bad) := Binding.readAll c.bindings
  (.withBindings good, bad)

end Config

end ModalEdit
