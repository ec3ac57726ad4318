import ModalEdit.Pattern.Basic
import ModalEdit.Text.Bracket
import ModalEdit.Walk.Find
import ModalEdit.Walk.Step
import ModalEdit.Walk.Word

/-!
# Motions

A motion is a walk together with the keys that call it. `Motion.compute` matches the keys and, if
they match in full, takes the walk; it also says what an operator needs to know when the motion is
its target: whether the character walked to belongs to the range, and whether the range is whole
lines.

`Motion.defaults` lists all motions in the order in which they are tried.
-/

namespace ModalEdit

/-- The walks that keys can call. -/
inductive Walk where
  | left | right | up | down
  | lineStart | firstNonBlank | lineEnd
  | documentStart | documentEnd
  | wordForward (kind : WordKind) | wordBackward (kind : WordKind)
  | wordEndForward (kind : WordKind) | wordEndBackward (kind : WordKind)
  | paragraphForward | paragraphBackward
  /-- Search for the key captured. -/
  | find (direction : FindDirection) (distance : FindDistance)
  /-- Search again, perhaps on the other side. -/
  | findAgain (reverse : Bool)
  | bracket
deriving DecidableEq, Repr

namespace Walk

/-- As the target of an operator the walk stands for whole lines. -/
def isLinewise : Walk → Bool
  | up | down | documentStart | documentEnd => true
  | _ => false

/-- The walk keeps the column even past the end of the line it reaches. -/
def keepsColumn : Walk → Bool
  | up | down => true
  | _ => false

end Walk

/-- Where a walk leads. -/
structure Arrival where
  /-- The position reached. -/
  target : Position
  /-- The character at the target belongs to the range walked over. -/
  inclusive : Bool := false
  /-- The search to remember. -/
  find : Option Find := none
deriving DecidableEq, Repr

/-- What a walk may look at besides the document. -/
structure Surroundings where
  /-- The search to repeat. -/
  lastFind : Option Find := none
  /-- The walk moves the end of a selection. -/
  selecting : Bool := false
deriving DecidableEq, Repr

/-- Take a walk from a position; `key` is the key captured. A search without a result and a bracket
without a partner lead nowhere. -/
def Walk.take? (d : Document) (s : Surroundings) (key : Option Key) (p : Position) :
    Walk → Option Arrival
  | .left => some { target := d.left p }
  | .right => some { target := d.right p }
  | .up => some { target := p.up }
  | .down => some { target := d.down p }
  | .lineStart => some { target := d.toLineStart p }
  | .firstNonBlank => some { target := d.toFirstNonBlank p }
  | .lineEnd => some { target := d.toLineEnd p }
  | .documentStart => some { target := d.documentStart }
  | .documentEnd => some { target := d.documentEnd }
  | .wordForward kind => some { target := d.wordForward kind p }
  | .wordBackward kind => some { target := d.wordBackward kind p }
  | .wordEndForward kind => some { target := d.wordEndForward kind p, inclusive := true }
  | .wordEndBackward kind => some { target := d.wordEndBackward kind p, inclusive := true }
  | .paragraphForward => some { target := d.paragraphForward p }
  | .paragraphBackward => some { target := d.paragraphBackward p }
  | .find direction distance => do
    let c ← key.bind Key.char?
    let f : Find := ⟨c, distance, direction⟩
    let target ← d.find? f false p
    return { target, inclusive := direction == .after, find := some f }
  | .findAgain reverse => do
    let last ← s.lastFind
    let f := if reverse then last.reversed else last
    let target ← d.find? f true p
    return { target, inclusive := f.direction == .after }
  | .bracket => do
    let target ← d.bracketMatch? (if s.selecting then selectionBracketPairs else bracketPairs) p
    return { target, inclusive := true }

/-- A walk and the keys that call it. -/
structure Motion where
  /-- The name of the motion. -/
  name : String
  /-- The keys that call it. -/
  pattern : Pattern
  /-- Where it leads. -/
  walk : Walk

/-- What keys find where something is looked for by its pattern: the result with the keys behind the
match, a beginning, or nothing. -/
inductive Found (α : Type) where
  /-- The keys match and there is a result. -/
  | some (result : α) (remainder : List Key)
  /-- The keys are the beginning of a match. -/
  | partly
  /-- The keys do not match or there is no result. -/
  | none
deriving DecidableEq, Repr

namespace Found

/-- Match keys against a pattern and compute the result from the key captured. -/
def ofMatch {α : Type} (m : Match) (result : Option Key → Option α) : Found α :=
  match m with
  | .full captured remainder =>
    match result (captured.map (·.2)) with
    | .some a => .some a remainder
    | .none => .none
  | .partly => .partly
  | .none => .none

variable {α : Type}

/-- The keys are the beginning of a match. -/
def isPartly : Found α → Bool
  | .partly => true
  | _ => false

/-- The result, if there is one. -/
def result? : Found α → Option α
  | .some a _ => .some a
  | _ => .none

end Found

namespace Motion

/-- Match the keys and take the walk from a position. -/
def compute (m : Motion) (d : Document) (s : Surroundings) (p : Position) (keys : List Key) :
    Found Arrival :=
  .ofMatch (m.pattern.parse keys) fun key => m.walk.take? d s key p

/-- A motion called by the key of a character. -/
def onChar (name : String) (c : Char) (w : Walk) : Motion := ⟨name, .ofChar c, w⟩

/-- A motion called by the keys of two characters. -/
def onChars (name : String) (b c : Char) (w : Walk) : Motion :=
  ⟨name, .literal [.char b, .char c], w⟩

/-- A motion called by a named key. -/
def onNamed (name : String) (k : NamedKey) (w : Walk) : Motion := ⟨name, .literal [.named k], w⟩

/-- A search called by the key of a character and the key searched for. -/
def onTarget (name : String) (c : Char) (direction : FindDirection) (distance : FindDistance) :
    Motion :=
  ⟨name, .placeholder (.after [.char c] "char".toList), .find direction distance⟩

/-- All motions in the order in which they are tried. -/
def defaults : List Motion :=
  [onChar "left" 'h' .left, onChar "right" 'l' .right, onChar "down" 'j' .down,
    onChar "up" 'k' .up, onNamed "left" .left .left, onNamed "right" .right .right,
    onNamed "down" .down .down, onNamed "up" .up .up, onChar "line-start" '0' .lineStart,
    onNamed "line-start" .home .lineStart, onChar "first-non-blank" '^' .firstNonBlank,
    onChar "line-end" '$' .lineEnd, onNamed "line-end" .endKey .lineEnd,
    onChars "document-start" 'g' 'g' .documentStart, onChar "document-end" 'G' .documentEnd,
    onChar "word-forward" 'w' (.wordForward .small), onChar "WORD-forward" 'W' (.wordForward .big),
    onChar "word-backward" 'b' (.wordBackward .small),
    onChar "WORD-backward" 'B' (.wordBackward .big), onChar "word-end" 'e' (.wordEndForward .small),
    onChar "WORD-end" 'E' (.wordEndForward .big),
    onChars "word-end-backward" 'g' 'e' (.wordEndBackward .small),
    onChars "WORD-end-backward" 'g' 'E' (.wordEndBackward .big),
    onChar "paragraph-forward" '}' .paragraphForward,
    onChar "paragraph-backward" '{' .paragraphBackward,
    onTarget "find-forward" 'f' .after .further, onTarget "find-backward" 'F' .before .further,
    onTarget "till-forward" 't' .after .nearer, onTarget "till-backward" 'T' .before .nearer,
    onChar "repeat-find" ';' (.findAgain false),
    onChar "repeat-find-reverse" ',' (.findAgain true), onChar "bracket-match" '%' .bracket]

end Motion

end ModalEdit
