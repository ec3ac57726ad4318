import ModalEdit.Text.Bracket
import ModalEdit.Text.Run

/-!
# Spans

A span is the range that a text object covers around a position: whole lines, a word, a pair of
brackets, a quoted string or a paragraph. A span is `none` when there is nothing of its kind there.
-/

namespace ModalEdit.Document

variable (d : Document)

/-- The whole lines `first` to `last`. With `withBreak` the range takes in one line break, so that
removing it removes the lines: the one behind the lines if a line follows, else the one before. -/
def linesSpan (first last : Nat) (withBreak : Bool) : Range :=
  let last := min last d.lastLine
  let first := min first last
  let range :=
    if ¬ withBreak then .between ⟨first, 0⟩ (d.lineEnd last)
    else if last < d.lastLine then .between ⟨first, 0⟩ ⟨last + 1, 0⟩
    else if 0 < first then .between (d.lineEnd (first - 1)) (d.lineEnd last)
    else Range.between .origin (d.lineEnd last)
  range.withLines first last

/-- The columns of a run together with those of its neighbour: a word takes the blanks behind it, or
those before it if there are none behind; blanks take the word behind them, or else the one before.
-/
def widen (run : Run) (before after : Option Run) : Nat × Nat :=
  if run.cls = .blank then
    match after, before with
    | some n, _ => (run.start, n.stop)
    | none, some p => (p.start, run.stop)
    | none, none => (run.start, run.stop)
  else
    match after.filter (·.cls == .blank), before.filter (·.cls == .blank) with
    | some n, _ => (run.start, n.stop)
    | none, some p => (p.start, run.stop)
    | none, none => (run.start, run.stop)

/-- The run under the cursor; with `around` also the blanks or the word next to it. -/
def wordSpan (kind : WordKind) (around : Bool) (p : Position) : Option Range := do
  let p := d.clamp p
  let line := d.content p.line
  let col := min p.col (line.length - 1)
  let all := runs kind line
  let i ← all.findIdx? fun r => decide (r.start ≤ col) && decide (col < r.stop)
  let run ← all[i]?
  let before := if i = 0 then none else all[i - 1]?
  let (start, stop) := if around then widen run before all[i + 1]? else (run.start, run.stop)
  return .inLine p.line start stop

/-- The innermost balanced pair around the cursor, without its brackets unless `around`. Of a block
whose brackets stand at the end and at the start of lines of their own, the inner span is the lines
between them. -/
def pairSpan (b : BracketPair) (around : Bool) (p : Position) : Option Range := do
  let (first, last) ← d.enclosingPair? b (d.offsetOf p)
  if around then return .between (d.positionAt first) (d.positionAt (last + 1))
  let opening := d.positionAt first
  let closing := d.positionAt last
  let endsLine := opening.col + 1 == d.lineLen opening.line
  let leadsLine := ((d.content closing.line).take closing.col).all isBlank
  if endsLine && leadsLine && decide (opening.line + 1 < closing.line) then
    return .between ⟨opening.line + 1, 0⟩ ⟨closing.line, 0⟩
  return .between (d.positionAt (first + 1)) closing

/-- Columns of the quotes in a line, from column `i` on, that no backslash stands before. `escaped`
says whether one stands before column `i`. -/
def quoteColumns (quote : Char) (escaped : Bool) (i : Nat) : Text → List Nat
  | [] => []
  | c :: cs =>
    if c = quote ∧ ¬ escaped then i :: quoteColumns quote (c == '\\') (i + 1) cs
    else quoteColumns quote (c == '\\') (i + 1) cs

/-- The first with the second, the third with the fourth, and so on; a last one alone is left out.
-/
def pairUp : List Nat → List (Nat × Nat)
  | a :: b :: rest => (a, b) :: pairUp rest
  | _ => []

/-- The quoted string of the line that holds the cursor, or else the first one behind it. -/
def quoteSpan (quote : Char) (around : Bool) (p : Position) : Option Range := do
  let p := d.clamp p
  let pairs := pairUp (quoteColumns quote false 0 (d.content p.line))
  let holds : Nat × Nat → Bool := fun q => decide (q.1 ≤ p.col) && decide (p.col ≤ q.2)
  let (first, last) ← (pairs.find? holds).or (pairs.find? fun q => p.col < q.1)
  if around then return .inLine p.line first (last + 1)
  return .inLine p.line (first + 1) last

/-- First and last line of the run of lines around the cursor that are blank, or not, as its own is.
With `around` also the run behind it, or for the last paragraph the blank lines before it. -/
def paragraphLines (around : Bool) (p : Position) : LineSpan :=
  let flags := d.blankLines
  let line := (d.clamp p).line
  let blank := d.isBlankLine line
  let before := (flags.take line).reverse
  let after := flags.drop (line + 1)
  let same := fun b => b == blank
  let first := line - (before.takeWhile same).length
  let last := line + (after.takeWhile same).length
  if ¬ around then ⟨first, last⟩
  else if last < d.lastLine then
    ⟨first, last + ((after.dropWhile same).takeWhile fun b => b != blank).length⟩
  else if ¬ blank then
    ⟨first - ((before.dropWhile same).takeWhile id).length, last⟩
  else ⟨first, last⟩

end ModalEdit.Document
