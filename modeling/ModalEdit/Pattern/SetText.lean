import ModalEdit.Pattern.Expression
import ModalEdit.Text.Numeral

/-!
# The text of escapes and of sets

In the text of a regular expression a backslash makes a character stand for itself, or for a set of
characters or an edge. A set in square brackets holds characters, ranges and other sets; `^` at its
front stands for what is not in it, and `&&`, `--` and `~~` combine what is before with what is
behind. How a text is read depends on `Flags`.
-/

namespace ModalEdit

/-- How the text of an expression is read. -/
structure Flags where
  /-- Upper and lower case are the same. -/
  folding : Bool := false
  /-- `^` and `$` match at each line. -/
  byLine : Bool := false
  /-- A dot matches a line feed too. -/
  dotAll : Bool := false
  /-- Repetitions are short unless a `?` follows. -/
  short : Bool := false
  /-- Carriage returns end lines too. -/
  anyBreak : Bool := false
  /-- White space and comments are skipped. -/
  spaced : Bool := false
deriving DecidableEq, Repr

namespace Flags

variable (f : Flags)

/-- Switch the flag with the given letter on or off. -/
def change? (letter : Char) (on : Bool) : Option Flags :=
  match letter with
  | 'i' => some { f with folding := on }
  | 'm' => some { f with byLine := on }
  | 's' => some { f with dotAll := on }
  | 'U' => some { f with short := on }
  | 'R' => some { f with anyBreak := on }
  | 'x' => some { f with spaced := on }
  | 'u' => if on then some f else none
  | _ => none

/-- Drop white space, and comments from `#` to the end of the line. -/
def dropSpaced (inComment : Bool) : List Char → List Char
  | [] => []
  | c :: cs =>
    if inComment then dropSpaced (c != '\n') cs
    else if isBlank c then dropSpaced false cs
    else if c = '#' then dropSpaced true cs
    else c :: cs

/-- Skip what the flags let stand between the parts of an expression. -/
def skip (cs : List Char) : List Char := if f.spaced then dropSpaced false cs else cs

/-- A set as the flags make it. -/
def fit (set : CharSet) : CharSet := if f.folding then .folded set else set

/-- What a dot stands for. -/
def dot : CharSet :=
  if f.dotAll then .all else .not (.any (.one '\n' :: if f.anyBreak then [.one '\r'] else []))

/-- What `^` stands for. -/
def caret : Edge :=
  if ¬ f.byLine then .textStart else if f.anyBreak then .anyLineStart else .lineStart

/-- What `$` stands for. -/
def dollar : Edge :=
  if ¬ f.byLine then .textEnd else if f.anyBreak then .anyLineEnd else .lineEnd

end Flags

/-- What an escape stands for. -/
inductive Escape where
  | char (c : Char)
  | set (s : CharSet)
  | edge (e : Edge)

namespace Escape

/-- The escapes of one letter. -/
def ofLetter? (c : Char) : Option Escape :=
  [('d', set .digit), ('D', set (.not .digit)), ('s', set .space), ('S', set (.not .space)),
    ('w', set .word), ('W', set (.not .word)), ('a', char '\x07'), ('f', char '\x0c'),
    ('t', char '\t'), ('n', char '\n'), ('r', char '\r'), ('v', char '\x0b'),
    ('A', edge .textStart), ('z', edge .textEnd), ('b', edge .word), ('B', edge .noWord),
    ('<', edge .wordStart), ('>', edge .wordEnd)].lookup c

/-- The edges that have a name in braces behind `\b`. -/
def edgeOfName? (name : List Char) : Option Edge :=
  [("start", Edge.wordStart), ("end", .wordEnd), ("start-half", .noWordBefore),
    ("end-half", .noWordAfter)].lookup (String.ofList name)

/-- The number of hexadecimal digits behind a letter that stands for a code point. -/
def width? (c : Char) : Option Nat := [('x', 2), ('u', 4), ('U', 8)].lookup c

/-- Read hexadecimal digits: as many as given, or any number of them in braces. -/
def readHex? (width : Nat) (cs : List Char) : Option (Escape × List Char) :=
  match cs with
  | '\x7b' :: cs =>
    let ds := cs.takeWhile (· != '\x7d')
    match cs.dropWhile (· != '\x7d') with
    | _ :: rest => if ds.isEmpty then none else (charOfHex? ds).map (char ·, rest)
    | [] => none
  | cs =>
    if cs.length < width then none
    else (charOfHex? (cs.take width)).map (char ·, cs.drop width)

/-- Read the name of an edge in braces. Braces that hold no name belong to a repetition. -/
def readEdge? (cs : List Char) : Option (Escape × List Char) :=
  let isNamePart (c : Char) : Bool := c.isAlpha || c == '-'
  match cs with
  | '\x7b' :: c :: rest =>
    if isNamePart c then
      match (c :: rest).dropWhile isNamePart with
      | '\x7d' :: rest' => (edgeOfName? ((c :: rest).takeWhile isNamePart)).map (edge ·, rest')
      | _ => none
    else some (edge .word, '\x7b' :: c :: rest)
  | ['\x7b'] => none
  | cs => some (edge .word, cs)

/-- Read an escape whose backslash has been read. -/
def read? : List Char → Option (Escape × List Char)
  | [] => none
  | c :: cs =>
    if c = 'b' then readEdge? cs
    else
      match width? c, ofLetter? c with
      | some n, _ => readHex? n cs
      | none, some e => some (e, cs)
      | none, none => if c.toNat < 128 && !c.isAlphanum then some (char c, cs) else none

end Escape

/-- A way to combine two sets. -/
inductive SetOperation where
  | both | minus | differ
deriving DecidableEq, Repr

/-- The set that an operation makes of two. -/
def SetOperation.apply : SetOperation → CharSet → CharSet → CharSet
  | both => .both
  | minus => .minus
  | differ => .differ

namespace CharSet

/-- Read a name such as `[:alpha:]` or `[:^alpha:]` behind its opening bracket. -/
def readNamed? (f : Flags) (cs : List Char) : Option (CharSet × List Char) := do
  let cs ← if cs.head? = some ':' then some cs.tail else none
  let negated := cs.head? == some '^'
  let cs := if negated then cs.tail else cs
  let set ← named? (cs.takeWhile (· != ':'))
  match cs.dropWhile (· != ':') with
  | ':' :: ']' :: rest => return (if negated then .not (f.fit set) else f.fit set, rest)
  | _ => none

/-- Read a member of a set: a character or an escape. -/
def readMember? : List Char → Option (Escape × List Char)
  | [] => none
  | '\\' :: cs => Escape.read? cs
  | c :: cs => some (.char c, cs)

/-- Read a member of a set or a range between two characters. -/
def readRange? (f : Flags) (cs : List Char) : Option (CharSet × List Char) := do
  let (lo, rest) ← readMember? cs
  let ahead := f.skip rest
  let next := (f.skip ahead.tail).head?
  if ahead.head? = some '-' ∧ next ≠ some ']' ∧ next ≠ some '-' then
    let (hi, rest) ← readMember? (f.skip ahead.tail)
    match lo, hi with
    | .char lo, .char hi => if lo ≤ hi then return (f.fit (.range lo hi), rest) else none
    | _, _ => none
  else
    match lo with
    | .char c => return (f.fit (.one c), rest)
    | .set s => return (s, rest)
    | .edge _ => none

/-- The operation at the front of a text. -/
def operation? : List Char → Option (SetOperation × List Char)
  | '&' :: '&' :: cs => some (.both, cs)
  | '-' :: '-' :: cs => some (.minus, cs)
  | '~' :: '~' :: cs => some (.differ, cs)
  | _ => none

mutual

/-- Read a set behind its opening bracket. Dashes at its front are members, and so is a closing
bracket. -/
def readBracket? (fuel : Nat) (f : Flags) (cs : List Char) : Option (CharSet × List Char) :=
  match fuel with
  | 0 => none
  | fuel + 1 => do
    let cs := f.skip cs
    let negated := cs.head? == some '^'
    let cs := if negated then f.skip cs.tail else cs
    let front := if cs.head? = some ']' then [']'] else cs.takeWhile (· == '-')
    let rest := cs.drop front.length
    let (set, rest) ← readMembers? fuel f id (front.map fun c => f.fit (.one c)) rest
    return (if negated then .not set else set, rest)

/-- Read members up to the closing bracket. `outer` combines them with what stands before the last
operation, and `members` are those read since then. -/
def readMembers? (fuel : Nat) (f : Flags) (outer : CharSet → CharSet) (members : List CharSet)
    (cs : List Char) : Option (CharSet × List Char) :=
  match fuel with
  | 0 => none
  | fuel + 1 =>
    match f.skip cs with
    | ']' :: rest => some (outer (.any members), rest)
    | '[' :: rest =>
      match readNamed? f rest with
      | some (set, rest) => readMembers? fuel f outer (members ++ [set]) rest
      | none => do
        let (set, rest) ← readBracket? fuel f rest
        readMembers? fuel f outer (members ++ [set]) rest
    | cs =>
      match operation? cs with
      | some (op, rest) => readMembers? fuel f (op.apply (outer (.any members))) [] rest
      | none => do
        let (set, rest) ← readRange? f cs
        readMembers? fuel f outer (members ++ [set]) rest

end

end CharSet

end ModalEdit
