import ModalEdit.Text.Document
import ModalEdit.Unicode.Alphabetic
import ModalEdit.Unicode.Numeric

/-!
# Words of a line

Characters fall into three classes: blank, word and punctuation. `runs` cuts a line into the
longest pieces of one class. With `WordKind.big` everything that is not blank is a word.
-/

namespace ModalEdit

/-- The class of a character. -/
inductive CharClass where
  /-- White space. -/
  | blank
  /-- Part of a word. -/
  | word
  /-- Anything else. -/
  | punct
deriving DecidableEq, Repr

/-- What counts as a word. -/
inductive WordKind where
  /-- Letters, numbers and underscores; punctuation stands apart. -/
  | small
  /-- Anything between white space. -/
  | big
deriving DecidableEq, Repr

/-- The class of a character for a kind of words. -/
def classify (kind : WordKind) (c : Char) : CharClass :=
  if isBlank c then .blank
  else if kind = .big ∨ isLetter c ∨ isNumber c ∨ c = '_' then .word
  else .punct

/-- Neighbouring characters of one class: the columns from `start` up to but not including
`stop`. -/
structure Run where
  /-- First column. -/
  start : Nat
  /-- Column behind the last character. -/
  stop : Nat
  /-- The class of all its characters. -/
  cls : CharClass
deriving DecidableEq, Repr

/-- Put the character at column `i` in front of the runs of the rest of the line. -/
def consRun (i : Nat) (cls : CharClass) : List Run → List Run
  | [] => [⟨i, i + 1, cls⟩]
  | r :: rs => if r.cls = cls then { r with start := i } :: rs else ⟨i, i + 1, cls⟩ :: r :: rs

/-- The runs of characters that begin at column `i`. -/
def runsFrom (kind : WordKind) (i : Nat) : Text → List Run
  | [] => []
  | c :: cs => consRun i (classify kind c) (runsFrom kind (i + 1) cs)

/-- The longest pieces of one class, from left to right. -/
def runs (kind : WordKind) (line : Text) : List Run := runsFrom kind 0 line

/-- The runs of a line that are not blank. -/
def Document.words (d : Document) (kind : WordKind) (i : Nat) : List Run :=
  (runs kind (d.content i)).filter fun r => r.cls != .blank

end ModalEdit
