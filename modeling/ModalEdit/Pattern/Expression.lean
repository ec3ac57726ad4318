import ModalEdit.Pattern.CharSet

/-!
# Regular expressions

The expressions that key patterns are made of, and how they match. A match is searched for by trying
the choices of an expression in order: `Expr.run` lists the ways to match at a place, the preferred
one first. Groups are numbered from one, and the text of the first is kept.
-/

namespace ModalEdit

/-- A condition on the characters on both sides of a place. -/
inductive Edge where
  /-- The start of the text. -/
  | textStart
  /-- The end of the text. -/
  | textEnd
  /-- The start of a line. -/
  | lineStart
  /-- The end of a line. -/
  | lineEnd
  /-- The start of a line, where carriage returns end lines too. -/
  | anyLineStart
  /-- The end of a line, where carriage returns end lines too. -/
  | anyLineEnd
  /-- The start or the end of a word. -/
  | word
  /-- Neither the start nor the end of a word. -/
  | noWord
  /-- The start of a word. -/
  | wordStart
  /-- The end of a word. -/
  | wordEnd
  /-- No word before. -/
  | noWordBefore
  /-- No word behind. -/
  | noWordAfter
deriving DecidableEq, Repr

/-- The condition holds between two characters; at the ends of the text one of them is missing. -/
def Edge.holds (before after : Option Char) : Edge → Bool
  | textStart => before.isNone
  | textEnd => after.isNone
  | lineStart => before.isNone || before == some '\n'
  | lineEnd => after.isNone || after == some '\n'
  | anyLineStart =>
    before.isNone || before == some '\n' || before == some '\r' && after != some '\n'
  | anyLineEnd => after.isNone || after == some '\r' || after == some '\n' && before != some '\r'
  | word => before.any isWordPart != after.any isWordPart
  | noWord => before.any isWordPart == after.any isWordPart
  | wordStart => !before.any isWordPart && after.any isWordPart
  | wordEnd => before.any isWordPart && !after.any isWordPart
  | noWordBefore => !before.any isWordPart
  | noWordAfter => !after.any isWordPart

/-- A regular expression. -/
inductive Expr where
  /-- Matches the empty text. -/
  | empty
  /-- Matches one character of a set. -/
  | one (set : CharSet)
  /-- Matches the empty text where a condition holds. -/
  | edge (e : Edge)
  /-- One expression after the other. -/
  | seq (a b : Expr)
  /-- One expression or, failing that, the other. -/
  | alt (a b : Expr)
  /-- An expression at least `least` and at most `most` times, as often as possible if `greedy`. -/
  | rep (a : Expr) (least : Nat) (most : Option Nat) (greedy : Bool)
  /-- A group with its number. -/
  | group (index : Nat) (a : Expr)

/-- A place in the text that is searched. -/
structure Place where
  /-- Number of characters before the place. -/
  done : Nat
  /-- The character right before it. -/
  before : Option Char
  /-- The characters after it. -/
  rest : List Char
  /-- The text that the first group has matched last. -/
  captured : Option (List Char) := none
deriving DecidableEq, Repr

namespace Expr

/-- A place and the places behind it in the order in which a repetition prefers them. -/
def prefer (greedy : Bool) (stay : Place) (onward : List Place) : List Place :=
  if greedy then onward ++ [stay] else stay :: onward

/-- The places reached by taking a step `n` times. -/
def times (step : Place → List Place) : Nat → Place → List Place
  | 0, s => [s]
  | n + 1, s => (step s).flatMap (times step n)

/-- The places reached by taking a step at most `n` times. -/
def upTo (step : Place → List Place) (greedy : Bool) : Nat → Place → List Place
  | 0, s => [s]
  | n + 1, s => prefer greedy s ((step s).flatMap (upTo step greedy n))

/-- The places reached by taking a step once or more. A step that does not move on is the last one;
`fuel` bounds the number of the others. -/
def onceOrMore (step : Place → List Place) (greedy : Bool) : Nat → Place → List Place
  | 0, _ => []
  | fuel + 1, s =>
    (step s).flatMap fun s' =>
      if s'.done = s.done then [s'] else prefer greedy s' (onceOrMore step greedy fuel s')

/-- The places reached by repeating a step. -/
def repeated (step : Place → List Place) (least : Nat) (most : Option Nat) (greedy : Bool)
    (s : Place) : List Place :=
  match most, least with
  | some n, _ => (times step least s).flatMap (upTo step greedy (n - least))
  | none, 0 => prefer greedy s (onceOrMore step greedy (s.rest.length + 1) s)
  | none, n + 1 =>
    (times step n s).flatMap fun s' => onceOrMore step greedy (s'.rest.length + 1) s'

/-- The places at which a match from a place can end, the preferred one first. -/
def run : Expr → Place → List Place
  | empty, s => [s]
  | one set, s =>
    match s.rest with
    | c :: cs =>
      if set.has c then [{ s with done := s.done + 1, before := some c, rest := cs }] else []
    | [] => []
  | edge e, s => if e.holds s.before s.rest.head? then [s] else []
  | seq a b, s => (run a s).flatMap (run b)
  | alt a b, s => run a s ++ run b s
  | rep a least most greedy, s => repeated (run a) least most greedy s
  | group index a, s =>
    (run a s).map fun s' =>
      if index = 1 then { s' with captured := some (s.rest.take (s'.done - s.done)) } else s'

/-- The numbers of the groups of an expression, from left to right. -/
def groups : Expr → List Nat
  | group index a => index :: groups a
  | seq a b | alt a b => groups a ++ groups b
  | rep a _ _ _ => groups a
  | empty | one _ | edge _ => []

/-- The preferred match at the start of a text. -/
def matchStart? (e : Expr) (t : List Char) : Option Place := (run e ⟨0, none, t, none⟩).head?

/-- The expression matches somewhere in a text. -/
def matchesIn (e : Expr) (t : List Char) : Bool :=
  let place (i : Nat) : Place := ⟨i, (t.take i).getLast?, t.drop i, none⟩
  (List.range (t.length + 1)).any fun i => !(run e (place i)).isEmpty

/-- Exactly the given character. -/
def char (c : Char) : Expr := .one (.one c)

/-- Exactly the given text. -/
def literal (t : List Char) : Expr := t.foldr (fun c e => .seq (char c) e) .empty

/-- Any character but a line feed. -/
def dot : Expr := .one (.not (.one '\n'))

/-- The start of the text. -/
def atStart : Expr := .edge .textStart

/-- The end of the text. -/
def atEnd : Expr := .edge .textEnd

/-- The expression matches what the first of several that matches does. -/
def oneOf : List Expr → Expr
  | [] => .one (.any [])
  | [e] => e
  | e :: es => .alt e (oneOf es)

end Expr

end ModalEdit
