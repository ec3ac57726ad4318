import ModalEdit.Decimal.Shortest
import ModalEdit.Toml.Moment
import ModalEdit.Toml.Text

/-!
# Writing values

`Value.render` writes a value on one line, but for strings that hold line breaks. A string is
written in the plainest form that can hold it: as a basic string if nothing in it needs an escape,
else as a literal string, else in one of these forms with three quotes, and with escapes only if
there is no other way.
-/

namespace ModalEdit.Toml

/-- The control character can be written in an escape only. -/
def needsEscape (c : Char) : Bool := !isPlain c && c != '\n'

/-- The length of the longest run of a character in a text. -/
def longestRun (c : Char) (cs : List Char) : Nat :=
  let step : Nat × Nat → Char → Nat × Nat := fun (best, run) x =>
    if x = c then (max best (run + 1), run + 1) else (best, 0)
  (cs.foldl step (0, 0)).1

/-- The escape of a character that has one of its own or needs one. -/
def escapeOf? (c : Char) : Option (List Char) :=
  match c with
  | '\x08' => some ['\\', 'b']
  | '\t' => some ['\\', 't']
  | '\n' => some ['\\', 'n']
  | '\x0c' => some ['\\', 'f']
  | '\r' => some ['\\', 'r']
  | '\\' => some ['\\', '\\']
  | _ =>
    if needsEscape c then
      let ds := (Nat.toDigits 16 c.toNat).map Char.toUpper
      some ('\\' :: 'u' :: List.replicate (4 - ds.length) '0' ++ ds)
    else none

/-- The inside of a basic string. Line breaks stand for themselves if `multiline`, and so do double
quotes as long as at most `quotes` of them follow each other; `run` of them stand in front. -/
def escapeAll (multiline : Bool) (quotes run : Nat) : List Char → List Char
  | [] => []
  | c :: rest =>
    if c = '"' then
      if run < quotes then c :: escapeAll multiline quotes (run + 1) rest
      else '\\' :: c :: escapeAll multiline quotes 0 rest
    else if multiline ∧ c = '\n' then c :: escapeAll multiline quotes 0 rest
    else (escapeOf? c).getD [c] ++ escapeAll multiline quotes 0 rest

/-- A basic string. -/
def basicString (s : List Char) : List Char := '"' :: escapeAll false 0 0 s ++ ['"']

/-- A literal string. -/
def literalString (s : List Char) : List Char := '\'' :: s ++ ['\'']

/-- A line break behind the opening quotes of a string that has line breaks itself. -/
def openingBreak (s : List Char) : List Char := if s.contains '\n' then ['\n'] else []

/-- A basic string with three quotes. -/
def basicLines (s : List Char) : List Char :=
  "\"\"\"".toList ++ openingBreak s ++ escapeAll true 2 0 s ++ "\"\"\"".toList

/-- A literal string with three quotes. -/
def literalLines (s : List Char) : List Char :=
  "\'\'\'".toList ++ openingBreak s ++ s ++ "\'\'\'".toList

/-- A string in the plainest form that can hold it. -/
def renderString (s : List Char) : List Char :=
  let control := s.any needsEscape
  let lines := s.contains '\n'
  let backslash := s.contains '\\'
  let double := longestRun '"' s
  let single := longestRun '\'' s
  if !control && !backslash && double == 0 && !lines then basicString s
  else if !control && single == 0 && !lines then literalString s
  else if !control && !backslash && double ≤ 2 then basicLines s
  else if !control && single ≤ 2 then literalLines s
  else if lines then basicLines s
  else basicString s

/-- A key, in quotes only if it needs them. -/
def renderKey (s : List Char) : List Char :=
  let control := s.any needsEscape || s.contains '\n'
  if !s.isEmpty && s.all isKeyChar then s
  else if !control && !s.contains '\\' && !s.contains '"' then basicString s
  else if !control && !s.contains '\'' then literalString s
  else basicString s

mutual

/-- The text of a value. -/
def Value.render : Value → List Char
  | .string s => renderString s.toList
  | .integer n => (toString n).toList
  | .float x => x.render
  | .boolean b => (toString b).toList
  | .datetime d => d.render
  | .array vs => '[' :: renderElements vs ++ [']']
  | .table [] => ['\x7b', '\x7d']
  | .table entries => '\x7b' :: ' ' :: renderEntries entries ++ [' ', '\x7d']

/-- The elements of an array with commas between them. -/
def renderElements : List Value → List Char
  | [] => []
  | [v] => v.render
  | v :: vs => v.render ++ ',' :: ' ' :: renderElements vs

/-- The entries of a table with commas between them. -/
def renderEntries : List (String × Value) → List Char
  | [] => []
  | [(k, v)] => renderKey k.toList ++ " = ".toList ++ v.render
  | (k, v) :: rest =>
    renderKey k.toList ++ " = ".toList ++ v.render ++ ',' :: ' ' :: renderEntries rest

end

end ModalEdit.Toml
