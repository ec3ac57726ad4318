import ModalEdit.Text.Document

/-!
# Brackets

Brackets are balanced by depth over the whole document. `enclosingPair?` is the innermost pair
around an offset; `bracketMatch?` is the walk to the other bracket of the pair that is nearest.
-/

namespace ModalEdit

/-- An opening and a closing character. -/
abbrev BracketPair := Char × Char

/-- Round, curly and square brackets. -/
def bracketPairs : List BracketPair := [('(', ')'), ('{', '}'), ('[', ']')]

/-- All brackets balanced while a selection is extended: angle brackets too. -/
def selectionBracketPairs : List BracketPair := bracketPairs ++ [('<', '>')]

/-- How many characters stand before the first `close` that is not balanced by an `open` before it,
when `depth` of them are still open. -/
def balance (opening closing : Char) (depth : Nat) : Text → Option Nat
  | [] => none
  | c :: cs =>
    if c = opening then (balance opening closing (depth + 1) cs).map (· + 1)
    else if c = closing then
      match depth with
      | 0 => some 0
      | depth + 1 => (balance opening closing depth cs).map (· + 1)
    else (balance opening closing depth cs).map (· + 1)

namespace Document

variable (d : Document)

/-- Offset of the closing character that balances an opening one at offset `o`. -/
def closingAfter? (b : BracketPair) (o : Nat) : Option Nat :=
  (balance b.1 b.2 0 (d.text.drop (o + 1))).map fun n => o + 1 + n

/-- Offset of the opening character that is still open before offset `o`. -/
def openingBefore? (b : BracketPair) (o : Nat) : Option Nat :=
  if o ≤ d.size then (balance b.2 b.1 0 (d.text.take o).reverse).map fun n => o - 1 - n else none

/-- Offset of the bracket that balances the one at offset `o`. -/
def matchingBracket? (pairs : List BracketPair) (o : Nat) : Option Nat := do
  let c ← d.charAtOffset? o
  let b ← pairs.find? fun b => c == b.1 || c == b.2
  if c = b.1 then d.closingAfter? b o else d.openingBefore? b o

/-- Offsets of the innermost pair around offset `o`, either of which may be `o` itself. -/
def enclosingPair? (b : BracketPair) (o : Nat) : Option (Nat × Nat) := do
  let first ← if d.charAtOffset? o = some b.1 then some o else d.openingBefore? b o
  let last ← d.closingAfter? b first
  if o ≤ last then some (first, last) else none

/-- The candidate with the least distance; of several the first. -/
def nearest : List (Nat × Nat) → Option (Nat × Nat)
  | [] => none
  | c :: cs =>
    match nearest cs with
    | some best => if best.1 < c.1 then some best else some c
    | none => some c

/-- The distance from offset `o` to the nearer bracket of the innermost pair around it, and the
offset of the other bracket. -/
def farSide? (o : Nat) (b : BracketPair) : Option (Nat × Nat) :=
  (d.enclosingPair? b o).map fun (first, last) =>
    if o - first ≤ last - o then (o - first, last) else (last - o, first)

/-- On a bracket, the walk to its partner. Elsewhere the walk to the far side of the nearest of the
pairs around the cursor and of the next balanced bracket in the line. -/
def bracketMatch? (pairs : List BracketPair) (p : Position) : Option Position :=
  let p := d.clamp p
  let o := d.offsetOf p
  let onBracket := match d.charAt? p with
    | some c => pairs.any fun b => c == b.1 || c == b.2
    | none => false
  if onBracket then (d.matchingBracket? pairs o).map d.positionAt
  else
    let lineEnd := d.offsetOf (d.lineEnd p.line)
    let ahead := (List.range' (o + 1) (lineEnd - (o + 1))).findSome? fun i =>
      (d.matchingBracket? pairs i).map fun m => (i - o, m)
    (nearest (pairs.filterMap (d.farSide? o) ++ ahead.toList)).map fun c => d.positionAt c.2

end Document

end ModalEdit
