import ModalEdit.Pattern.SetText

/-!
# The text of a regular expression

`readExpr?` reads the usual text of a regular expression: characters and `\`-escapes, `.`, sets in
square brackets, `^` and `$`, groups, alternatives and repetitions. Groups may have a name, and the
names are given in the order in which the groups open. Letters such as those of `(?i)` set flags up
to the end of the group they stand in, and those of `(?i:...)` for one group.

`escape` writes a text so that it is read back as exactly that text.
-/

namespace ModalEdit

/-- The names of the groups opened so far; a group may have none. -/
abbrev GroupNames := List (Option (List Char))

/-- The characters that mean something in an expression. -/
def isMeta (c : Char) : Bool := "\\.+*?()|[]\x7b\x7d^$#&-~".toList.contains c

/-- The text of an expression that matches exactly `t`. -/
def escape (t : List Char) : List Char := t.flatMap fun c => if isMeta c then ['\\', c] else [c]

/-- A group may have this name: it begins with a letter or an underscore and goes on with letters,
numbers, underscores, dots and square brackets. -/
def isGroupName : List Char → Bool
  | [] => false
  | c :: cs =>
    (c == '_' || isLetter c) &&
      cs.all fun c => c == '_' || c == '.' || c == '[' || c == ']' || isLetter c || isNumber c

/-- How far the text of an expression has been read. -/
structure Reading where
  /-- What is still to be read. -/
  rest : List Char
  /-- The flags that hold. -/
  flags : Flags := {}
  /-- The groups opened so far. -/
  names : GroupNames := []

namespace Reading

variable (r : Reading)

/-- Go on behind what the flags let stand between the parts of an expression. -/
def skip : Reading := { r with rest := r.flags.skip r.rest }

/-- Go on at the given text. -/
def go (cs : List Char) : Reading := { r with rest := cs }

end Reading

namespace Expr

/-- Read a number of at most 32 bits, which may have white space around it. -/
def readCount? (cs : List Char) : Option (Nat × List Char) :=
  let cs := cs.dropWhile isBlank
  let n := ofDigits 10 ((cs.takeWhile Char.isDigit).filterMap (digit? 10))
  if (cs.head?.any Char.isDigit) && n < Nat.pow 2 32 then
    some (n, (cs.dropWhile Char.isDigit).dropWhile isBlank)
  else none

/-- Read how often the expression before is repeated: the least and the most number of times. -/
def readTimes? (f : Flags) : List Char → Option ((Nat × Option Nat) × List Char)
  | '*' :: cs => some ((0, none), cs)
  | '+' :: cs => some ((1, none), cs)
  | '?' :: cs => some ((0, some 1), cs)
  | '\x7b' :: cs => do
    let (least, cs) ← readCount? cs
    match cs with
    | '\x7d' :: cs => some ((least, some least), f.skip cs)
    | ',' :: cs =>
      match f.skip cs with
      | '\x7d' :: cs => some ((least, none), f.skip cs)
      | cs =>
        let (most, cs) ← readCount? cs
        match cs with
        | '\x7d' :: cs => if least ≤ most then some ((least, some most), f.skip cs) else none
        | _ => none
    | _ => none
  | _ => none

/-- The front of the text calls for a repetition. -/
def isRepetition (cs : List Char) : Bool := cs.head?.any ['*', '+', '?', '\x7b'].contains

/-- The repetition of an expression. With no times at all neither it nor its groups are left. -/
def repetition (e : Expr) (least : Nat) (most : Option Nat) (greedy : Bool) : Expr :=
  if most = some 0 then .empty else .rep e least most greedy

/-- Read the repetitions of an expression that stands before the text. -/
def readRepetitions? (fuel : Nat) (e : Expr) (r : Reading) : Option (Expr × Reading) :=
  match fuel with
  | 0 => some (e, r)
  | fuel + 1 =>
    let r := r.skip
    if isRepetition r.rest then do
      let ((least, most), cs) ← readTimes? r.flags r.rest
      let inverted := cs.head? == some '?'
      let cs := if inverted then cs.tail else cs
      readRepetitions? fuel (repetition e least most (inverted == r.flags.short)) (r.go cs)
    else some (e, r)

/-- Read letters of flags up to a colon or a closing bracket. Those behind a dash are switched off,
no letter stands twice, and the dash is not the last of them. `seen` are the letters read so far. -/
def readFlags? (seen : List Char) (f : Flags) : List Char → Option (List Char × Flags × List Char)
  | [] => none
  | c :: cs =>
    if c = ':' ∨ c = ')' then if seen.head? = some '-' then none else some (seen, f, c :: cs)
    else if seen.contains c then none
    else if c = '-' then readFlags? (c :: seen) f cs
    else
      match f.change? c (!seen.contains '-') with
      | some f => readFlags? (c :: seen) f cs
      | none => none

/-- The expression of an escape. -/
def ofEscape (f : Flags) : Escape → Expr
  | .char c => .one (f.fit (.one c))
  | .set s => .one s
  | .edge e => .edge e

mutual

/-- Read alternatives up to the end of the text or of the group. -/
def readAlternatives? (fuel : Nat) (r : Reading) : Option (Expr × Reading) :=
  match fuel with
  | 0 => none
  | fuel + 1 => do
    let (e, r) ← readSequence? fuel r
    match r.rest with
    | '|' :: cs =>
      let (other, r) ← readAlternatives? fuel (r.go cs)
      return (.alt e other, r)
    | _ => return (e, r)

/-- Read expressions that follow each other. -/
def readSequence? (fuel : Nat) (r : Reading) : Option (Expr × Reading) :=
  match fuel with
  | 0 => none
  | fuel + 1 =>
    let r := r.skip
    if r.rest.head?.all ['|', ')'].contains then some (.empty, r)
    else do
      let (e, r) ← readAtom? fuel r
      match e with
      | none => if isRepetition r.skip.rest then none else readSequence? fuel r
      | some e =>
        let (e, r) ← readRepetitions? r.rest.length e r
        let (others, r) ← readSequence? fuel r
        return (.seq e others, r)

/-- Read one expression without its repetitions. Letters that set flags for what follows are no
expression. -/
def readAtom? (fuel : Nat) (r : Reading) : Option (Option Expr × Reading) :=
  match fuel, r.rest with
  | 0, _ => none
  | _ + 1, [] => none
  | fuel + 1, c :: cs =>
    match c with
    | '(' => readGroup? fuel (r.go cs).skip
    | '[' => (CharSet.readBracket? (2 * cs.length + 2) r.flags cs).map fun s =>
        (some (.one s.1), r.go s.2)
    | '.' => some (some (.one r.flags.dot), r.go cs)
    | '^' => some (some (.edge r.flags.caret), r.go cs)
    | '$' => some (some (.edge r.flags.dollar), r.go cs)
    | '\\' => (Escape.read? cs).map fun e => (some (ofEscape r.flags e.1), r.go e.2)
    | c => if isRepetition [c] then none else some (some (ofEscape r.flags (.char c)), r.go cs)

/-- Read a group, or letters that set flags, behind the opening bracket. -/
def readGroup? (fuel : Nat) (r : Reading) : Option (Option Expr × Reading) :=
  match fuel with
  | 0 => none
  | fuel + 1 =>
    match r.rest with
    | '?' :: 'P' :: '<' :: cs => readNamed? fuel (r.go cs)
    | '?' :: '<' :: cs => readNamed? fuel (r.go cs)
    | '?' :: cs => do
      let (seen, flags, cs) ← readFlags? [] r.flags cs
      match cs with
      | ':' :: cs => readInside? fuel id r.flags { r with rest := cs, flags }
      | _ :: cs => if seen.isEmpty then none else some (none, { r with rest := cs, flags })
      | [] => none
    | _ => readNumbered? fuel none r

/-- Read a group behind the bracket in front of its name. -/
def readNamed? (fuel : Nat) (r : Reading) : Option (Option Expr × Reading) :=
  match fuel with
  | 0 => none
  | fuel + 1 =>
    let name := r.rest.takeWhile (· != '>')
    if isGroupName name && !r.names.contains (some name) then
      readNumbered? fuel (some name) (r.go (r.rest.drop (name.length + 1)))
    else none

/-- Read a group that gets the next number, behind its name. -/
def readNumbered? (fuel : Nat) (name : Option (List Char)) (r : Reading) :
    Option (Option Expr × Reading) :=
  match fuel with
  | 0 => none
  | fuel + 1 =>
    let names := r.names ++ [name]
    readInside? fuel (.group names.length) r.flags { r with names }

/-- Read the inside of a group and its closing bracket. Behind it the outer flags hold again. -/
def readInside? (fuel : Nat) (wrap : Expr → Expr) (outer : Flags) (r : Reading) :
    Option (Option Expr × Reading) :=
  match fuel with
  | 0 => none
  | fuel + 1 => do
    let (e, r) ← readAlternatives? fuel r
    match r.rest with
    | ')' :: cs => return (some (wrap e), { r with rest := cs, flags := outer })
    | _ => none

end

end Expr

/-- Read the text of an expression, with the names of its groups. -/
def readExpr? (t : List Char) : Option (Expr × GroupNames) :=
  match Expr.readAlternatives? (6 * t.length + 6) { rest := t } with
  | some (e, r) => if r.rest.isEmpty then some (e, r.names) else none
  | none => none

end ModalEdit
