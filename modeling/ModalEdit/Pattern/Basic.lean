import ModalEdit.Key.Script
import ModalEdit.Pattern.ExpressionText

/-!
# Key patterns

A pattern is what a command asks for at the front of the keys typed so far: fixed keys, or fixed
keys followed by any one key. `Pattern.parse` says whether the keys begin with a full match, are the
beginning of one, or neither. Its answer depends on nothing but the pattern and the keys.

A placeholder pattern is a pair of regular expressions over the written form of the keys: one for
the full match, whose only group is the key captured, and one for its beginnings.
-/

namespace ModalEdit

/-- Why a pattern is refused. -/
inductive PatternError where
  /-- The text is no regular expression. -/
  | expression
  /-- The expression does not have exactly one group. -/
  | groups (found : Nat)
  /-- The keys are not spelled right. -/
  | keys (e : KeyError)
deriving DecidableEq, Repr

/-- What a pattern finds at the front of the keys. -/
inductive Match where
  /-- A full match, with the key captured by name and the keys behind the match. -/
  | full (captured : Option (List Char × Key)) (remainder : List Key)
  /-- The beginning of a full match. -/
  | partly
  /-- Neither. -/
  | none
deriving DecidableEq, Repr

namespace Match

/-- The keys begin with a full match. -/
def isFull : Match → Bool
  | full .. => true
  | _ => false

/-- The keys are the beginning of a full match. -/
def isPartly : Match → Bool
  | partly => true
  | _ => false

end Match

/-- Fixed keys followed by one key that is captured. -/
structure Placeholder where
  /-- The text of the expression for the full match. -/
  source : List Char
  /-- The expression for the full match. -/
  full : Expr
  /-- The expression for the beginnings of a full match. -/
  beginning : Expr
  /-- The name under which the key is captured. -/
  var : List Char

/-- One key in written form: a group in angle brackets or a single character. -/
def keyExpr : Expr :=
  .alt
    (.seq (.char '<')
      (.seq (.rep (.one (.not (.any [.one '<', .one '>']))) 1 none true) (.char '>')))
    .dot

/-- The text of `keyExpr`. -/
def keyExprText : List Char := "<[^<>]+>|.".toList

namespace Placeholder

/-- The text of the full expression for fixed keys and a name. -/
def sourceOf (lead : List Key) (var : List Char) : List Char :=
  '^' :: escape (renderKeys lead) ++ "(?P<".toList ++ var ++ ">".toList ++ keyExprText ++ [')']

/-- The expression for the beginnings of a match: the first one, two, … of the fixed keys. -/
def beginningOf (lead : List Key) : Expr :=
  let beginnings := (List.range lead.length).map fun n =>
    Expr.literal (renderKeys (lead.take (n + 1)))
  if lead.isEmpty then .seq .atStart .atEnd
  else .seq .atStart (.seq (.oneOf beginnings) .atEnd)

/-- The pattern for fixed keys and one more key, captured under a proper name. Its expression
matches as the one that is read from `sourceOf`. -/
def after (lead : List Key) (var : List Char) : Placeholder where
  source := sourceOf lead var
  full := .seq .atStart (.seq (.literal (renderKeys lead)) (.group 1 keyExpr))
  beginning := beginningOf lead
  var := var

/-- The pattern of two expressions, the first of which must have exactly one group. -/
def ofExprs (source : List Char) (full : Expr × GroupNames) (beginning : Expr) :
    Except PatternError Placeholder :=
  match full.1.groups with
  | [i] => .ok ⟨source, full.1, beginning, (full.2[i - 1]?.join).getD ['1']⟩
  | groups => .error (.groups groups.length)

/-- The pattern of two expressions given as text. -/
def ofText (full beginning : List Char) : Except PatternError Placeholder :=
  match readExpr? full, readExpr? beginning with
  | some e, some b => ofExprs full e b.1
  | _, _ => .error .expression

/-- The pattern for fixed keys, given as a script, and one more key. A name that no group can have
is read as part of the expression. -/
def ofScript (lead var : List Char) : Except PatternError Placeholder := do
  let keys ← if lead.isEmpty then pure [] else (parseKeys lead).mapError .keys
  if isGroupName var then return after keys var
  let source := sourceOf keys var
  match readExpr? source with
  | some e => ofExprs source e (beginningOf keys)
  | none => throw .expression

/-- The keys left when the first `n` characters of their written form have been used up. -/
def remainderAfter : Nat → List Key → List Key
  | _, [] => []
  | 0, ks => ks
  | n + 1, k :: ks => remainderAfter (n + 1 - k.render.length) ks

/-- Match keys that have been typed. The captured text must be exactly one key. -/
def parse (p : Placeholder) (keys : List Key) : Match :=
  let written := renderKeys keys
  match (p.full.matchStart? written).bind fun s => s.captured.map (s.done, ·) with
  | some (done, group) =>
    match parseKeys group with
    | .ok [key] => .full (some (p.var, key)) (remainderAfter done keys)
    | _ => .none
  | none => if p.beginning.matchesIn written then .partly else .none

end Placeholder

/-- What a command asks for at the front of the keys typed. -/
inductive Pattern where
  /-- Exactly these keys. -/
  | literal (keys : List Key)
  /-- Fixed keys and one more key. -/
  | placeholder (p : Placeholder)

namespace Pattern

/-- Match fixed keys. -/
def parseLiteral : List Key → List Key → Match
  | [], keys => .full none keys
  | _ :: _, [] => .partly
  | k :: ks, l :: ls => if k = l then parseLiteral ks ls else .none

/-- What the pattern finds at the front of the keys. A placeholder waits for its first key. -/
def parse : Pattern → List Key → Match
  | literal ks, keys => parseLiteral ks keys
  | placeholder _, [] => .partly
  | placeholder p, k :: ks => p.parse (k :: ks)

/-- The pattern in writing. -/
def render : Pattern → List Char
  | literal ks => renderKeys ks
  | placeholder p => '/' :: p.source ++ ['/']

/-- The pattern of the keys of a script. -/
def ofScript (script : List Char) : Except PatternError Pattern :=
  ((parseKeys script).mapError .keys).map literal

/-- The pattern of one character's key. -/
def ofChar (c : Char) : Pattern := literal [.char c]

end Pattern

/-- The error in words, where it has words of its own. -/
def PatternError.message? : PatternError → Option String
  | expression => none
  | groups n => some s!"placeholder pattern must have exactly one capture group, found {n}"
  | keys e => some e.message

end ModalEdit
