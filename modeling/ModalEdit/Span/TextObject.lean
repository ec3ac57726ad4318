import ModalEdit.Span.Basic
import ModalEdit.Span.Tag
import ModalEdit.Walk.Motion

/-!
# Text objects

A text object names a range around or from the cursor by keys. It is what an operator works on:

* a structure such as a word, a pair of brackets or a paragraph, inner or around;
* the range walked over by a motion;
* the cursor's line, called by doubling the key of the operator.

`TextObject.defaults` lists the objects in the order in which they are tried.
-/

namespace ModalEdit

/-- What an operator does with its ranges. -/
inductive OperatorKind where
  /-- Remove them. -/
  | delete
  /-- Store their text. -/
  | yank
  /-- Remove them and go on typing. -/
  | change
deriving DecidableEq, Repr

namespace OperatorKind

/-- The name of an operator. -/
def name : OperatorKind → String
  | delete => "delete"
  | yank => "yank"
  | change => "change"

/-- The key of an operator. -/
def key : OperatorKind → Key
  | delete => .char 'd'
  | yank => .char 'y'
  | change => .char 'c'

end OperatorKind

/-- The structures a text has. -/
inductive Structure where
  | word (kind : WordKind)
  | pair (b : BracketPair)
  | quote (c : Char)
  | tag
  | paragraph
deriving DecidableEq, Repr

/-- A way to name a range. -/
inductive TextObject where
  /-- The structure around the cursor, perhaps with what delimits it. -/
  | structural (name : String) (pattern : Pattern) (kind : Structure) (around : Bool)
  /-- The range a motion walks over. -/
  | walked (m : Motion)
  /-- The cursor's line, perhaps with a line break. -/
  | line (pattern : Pattern) (withBreak : Bool)

/-- What a text object is named for. -/
structure Purpose where
  /-- The operator that will work on it; none while a selection is extended. -/
  operator : Option OperatorKind
  /-- The search to repeat. -/
  lastFind : Option Find := none
deriving DecidableEq, Repr

/-- The range of a text object and the search to remember. -/
structure ObjectRange where
  /-- The range. -/
  range : Range
  /-- The search that led to it. -/
  find : Option Find := none
deriving DecidableEq, Repr

namespace Purpose

/-- Whole lines take a line break with them, except for a change. -/
def takesBreak (u : Purpose) : Bool := u.operator != some .change

/-- What motions may look at. -/
def surroundings (u : Purpose) : Surroundings := ⟨u.lastFind, u.operator.isNone⟩

end Purpose

/-- The range of a structure around a position. -/
def Structure.span (k : Structure) (d : Document) (u : Purpose) (around : Bool) (p : Position) :
    Option Range :=
  match k with
  | word kind => d.wordSpan kind around p
  | pair b => d.pairSpan b around p
  | quote c => d.quoteSpan c around p
  | tag => d.tagSpan around p
  | paragraph =>
    let l := d.paragraphLines around p
    some (d.linesSpan l.first l.last u.takesBreak)

/-- The end of the word that holds a position. -/
def Document.wordEndUnder? (d : Document) (kind : WordKind) (p : Position) : Option Nat :=
  ((d.words kind p.line).find? fun r => decide (r.start ≤ p.col) && decide (p.col < r.stop)).map
    (·.stop)

/-- The range between the cursor and the target of a walk that does not stand for whole lines. If
the walk is inclusive, the character at the far end belongs to it. Otherwise a range that would end
at the start of a line ends with the line before, and is whole lines if nothing but white space
stands before it. -/
def Document.walkedSpan (d : Document) (u : Purpose) (origin : Position) (a : Arrival) : Range :=
  let range := Range.between origin (d.clamp a.target)
  if a.inclusive then
    { range with
      stop := ⟨range.stop.line, min (range.stop.col + 1) (d.lineLen range.stop.line)⟩ }
  else if range.stop.col = 0 ∧ range.start.line < range.stop.line then
    let last := range.stop.line - 1
    if range.start.col ≤ d.firstNonBlank range.start.line then
      d.linesSpan range.start.line last u.takesBreak
    else { range with stop := d.lineEnd last }
  else range

/-- The range that a walk from a position stands for. Changing a word stops at its end, and the last
word of a line leaves the line break. -/
def Walk.span (w : Walk) (d : Document) (u : Purpose) (p : Position) (a : Arrival) : Range :=
  let origin := d.clamp p
  if w.isLinewise then
    d.linesSpan (min origin.line a.target.line) (max origin.line a.target.line) u.takesBreak
  else
    match w with
    | wordForward kind =>
      let wordEnd := if u.operator = some .change then d.wordEndUnder? kind origin else none
      match wordEnd with
      | some stop => .between origin ⟨origin.line, stop⟩
      | none =>
        if origin.line < a.target.line then .between origin (d.lineEnd origin.line)
        else d.walkedSpan u origin a
    | _ => d.walkedSpan u origin a

namespace TextObject

/-- The name of an object. -/
def name : TextObject → String
  | structural name .. => name
  | walked m => m.name
  | line .. => "line"

/-- Match the keys and find the range at a position. -/
def compute (o : TextObject) (d : Document) (u : Purpose) (p : Position) (keys : List Key) :
    Found ObjectRange :=
  match o with
  | structural _ pattern kind around =>
    .ofMatch (pattern.parse keys) fun _ => (kind.span d u around p).map fun r => { range := r }
  | walked m =>
    .ofMatch (m.pattern.parse keys) fun key =>
      (m.walk.take? d u.surroundings key p).map fun a => ⟨m.walk.span d u p a, a.find⟩
  | line pattern withBreak =>
    .ofMatch (pattern.parse keys) fun _ =>
      let i := (d.clamp p).line
      some { range := d.linesSpan i i withBreak }

/-- The inner and the around objects of a structure, each called by any of the given characters. -/
def family (name : String) (chars : List Char) (kind : Structure) : List TextObject :=
  (chars.map fun c => structural name (.literal [.char 'i', .char c]) kind false) ++
    chars.map fun c => structural name (.literal [.char 'a', .char c]) kind true

/-- The structures in the order in which they are tried. -/
def structures : List TextObject :=
  family "word" ['w'] (.word .small) ++ family "WORD" ['W'] (.word .big) ++
    family "paragraph" ['p'] .paragraph ++ family "parens" ['(', ')', 'b'] (.pair ('(', ')')) ++
    family "braces" ['{', '}', 'B'] (.pair ('{', '}')) ++
    family "brackets" ['[', ']'] (.pair ('[', ']')) ++
    family "angles" ['<', '>'] (.pair ('<', '>')) ++ family "double-quotes" ['"'] (.quote '"') ++
    family "single-quotes" ['\''] (.quote '\'') ++ family "backticks" ['\x60'] (.quote '\x60') ++
    family "tag" ['t'] .tag

/-- All structures and all motions in the order in which they are tried. -/
def defaults : List TextObject := structures ++ Motion.defaults.map walked

/-- The line object called by doubling the key of an operator. -/
def wholeLine (k : OperatorKind) : TextObject := line (.literal [k.key]) (k != .change)

end TextObject

end ModalEdit
