import ModalEdit.Toml.Moment
import ModalEdit.Toml.Quoted
import ModalEdit.Toml.Section

/-!
# The text of a configuration

`read?` reads the text of a configuration. Each pair `key = value` and each header stands on a line
of its own, which a comment may end. Arrays and tables written as values may run over lines, and a
comma may follow the last element. The result is nothing if any part of the text is at fault, or if
values or paths lead too deep.
-/

namespace ModalEdit.Toml

/-- Skip spaces and tabs. -/
def skipSpace (cs : List Char) : List Char := cs.dropWhile isSpace

/-- Skip spaces, line breaks and comments. -/
def skipTrivia (inComment : Bool) : List Char → Option (List Char)
  | '\n' :: rest => skipTrivia false rest
  | '\r' :: '\n' :: rest => skipTrivia false rest
  | c :: rest =>
    if inComment then if isPlain c then skipTrivia true rest else none
    else if isSpace c then skipTrivia false rest
    else if c = '#' then skipTrivia true rest
    else some (c :: rest)
  | [] => some []

/-- Nothing but spaces and a comment stand before the end of the line. -/
def atLineEnd (cs : List Char) : Bool :=
  let cs := skipSpace cs
  cs.isEmpty || cs.head? == some '#' || atLineBreak cs

/-- The character may stand in a key without quotes. -/
def isKeyChar (c : Char) : Bool := c.isAlphanum || c == '_' || c == '-'

/-- Read a step of a path. -/
def readKey? (cs : List Char) : Option (String × List Char) :=
  match readLineString cs with
  | some (s, rest) => some (String.ofList s, rest)
  | none =>
    let key := cs.takeWhile isKeyChar
    if key.isEmpty then none else some (String.ofList key, cs.dropWhile isKeyChar)

/-- How deep arrays and tables may be nested, and how many steps a path may have. -/
def deepest : Nat := 80

/-- Read the steps of a path: those up to the last one, and the last one. Dots between the steps may
have spaces around them. -/
def readSteps? (fuel : Nat) (cs : List Char) : Option (List String × String × List Char) :=
  match fuel with
  | 0 => none
  | fuel + 1 => do
    let (key, rest) ← readKey? cs
    match skipSpace rest with
    | '.' :: rest =>
      let (path, last, rest) ← readSteps? fuel (skipSpace rest)
      return (key :: path, last, rest)
    | rest => return ([], key, rest)

/-- Read a path of at most `deepest` steps. -/
def readPath? (fuel : Nat) (cs : List Char) : Option (List String × String × List Char) :=
  (readSteps? fuel cs).filter fun r => decide (r.1.length < deepest)

/-- The character may stand in a value without quotes or brackets. -/
def isWordChar (c : Char) : Bool := isKeyChar c || c == '+' || c == '.' || c == ':'

/-- Split a word off the front of a text. A date and a time with one space between them are one
word. -/
def splitWord (cs : List Char) : List Char × List Char :=
  let word := cs.takeWhile isWordChar
  match cs.dropWhile isWordChar with
  | ' ' :: c :: rest =>
    if c.isDigit ∧ (takeDate? word).any (fun r => r.2.isEmpty) then
      (word ++ ' ' :: (c :: rest).takeWhile isWordChar, (c :: rest).dropWhile isWordChar)
    else (word, ' ' :: c :: rest)
  | rest => (word, rest)

/-- Skip what may stand around the equals sign of a pair. In a table that is a value line breaks and
comments may stand there too. -/
def skipAroundSign (inValue : Bool) (cs : List Char) : Option (List Char) :=
  if inValue then skipTrivia false cs else some (skipSpace cs)

/-- The value of a word. -/
def readWord? (word : List Char) : Option Value :=
  if word = "true".toList then some (.boolean true)
  else if word = "false".toList then some (.boolean false)
  else
    ((readInteger? word).map .integer).or
      (((readFloat? word).map .float).or ((Datetime.read? word).map .datetime))

mutual

/-- Read a value in which arrays and tables are at most `depth` deep. -/
def readValue? (fuel depth : Nat) (cs : List Char) : Option (Value × List Char) :=
  match fuel with
  | 0 => none
  | fuel + 1 =>
    match cs with
    | '[' :: rest => do
      if depth = 0 then none
      let (vs, rest) ← readElements? fuel (depth - 1) rest
      return (.array vs, rest)
    | '\x7b' :: rest => do
      if depth = 0 then none
      let (ps, rest) ← readPairs? fuel (depth - 1) rest
      let t ← tableOfPairs? ps
      return (.table t, rest)
    | c :: rest =>
      if c = '"' ∨ c = '\'' then
        (readString (c :: rest)).map fun r => (.string (String.ofList r.1), r.2)
      else
        let (word, rest) := splitWord (c :: rest)
        (readWord? word).map (·, rest)
    | [] => none

/-- Read the elements of an array and its closing bracket. -/
def readElements? (fuel depth : Nat) (cs : List Char) : Option (List Value × List Char) :=
  match fuel with
  | 0 => none
  | fuel + 1 => do
    match ← skipTrivia false cs with
    | ']' :: rest => return ([], rest)
    | cs =>
      let (v, rest) ← readValue? fuel depth cs
      match ← skipTrivia false rest with
      | ',' :: rest =>
        let (vs, rest) ← readElements? fuel depth rest
        return (v :: vs, rest)
      | ']' :: rest => return ([v], rest)
      | _ => none

/-- Read the pairs of a table that is a value, and its closing brace. -/
def readPairs? (fuel depth : Nat) (cs : List Char) : Option (List Pair × List Char) :=
  match fuel with
  | 0 => none
  | fuel + 1 => do
    match ← skipTrivia false cs with
    | '\x7d' :: rest => return ([], rest)
    | cs =>
      let (p, rest) ← readPair? fuel depth true cs
      match ← skipTrivia false rest with
      | ',' :: rest =>
        let (ps, rest) ← readPairs? fuel depth rest
        return (p :: ps, rest)
      | '\x7d' :: rest => return ([p], rest)
      | _ => none

/-- Read a pair, which may stand in a table that is a value. -/
def readPair? (fuel depth : Nat) (inValue : Bool) (cs : List Char) : Option (Pair × List Char) :=
  match fuel with
  | 0 => none
  | fuel + 1 => do
    let (path, key, rest) ← readPath? fuel cs
    match ← skipAroundSign inValue rest with
    | '=' :: rest =>
      let rest ← skipAroundSign inValue rest
      let (value, rest) ← readValue? fuel depth rest
      return (⟨path, key, value⟩, rest)
    | _ => none

end

/-- Read a header. -/
def readHeader? (fuel : Nat) (cs : List Char) : Option (Header × List Char) :=
  match cs with
  | '[' :: '[' :: rest => do
    let (path, key, rest) ← readPath? fuel (skipSpace rest)
    match rest with
    | ']' :: ']' :: rest => return (⟨path, key, true⟩, rest)
    | _ => none
  | '[' :: rest => do
    let (path, key, rest) ← readPath? fuel (skipSpace rest)
    match rest with
    | ']' :: rest => return (⟨path, key, false⟩, rest)
    | _ => none
  | _ => none

/-- Read the lines of a configuration: the pairs before the next header, and the sections from
there. -/
def readLines? (fuel : Nat) (cs : List Char) : Option (List Pair × List (Header × List Pair)) :=
  match fuel with
  | 0 => none
  | fuel + 1 => do
    match ← skipTrivia false cs with
    | [] => return ([], [])
    | '[' :: rest =>
      let (header, rest) ← readHeader? fuel ('[' :: rest)
      if !atLineEnd rest then none
      let (ps, sections) ← readLines? fuel rest
      return ([], (header, ps) :: sections)
    | cs =>
      let (p, rest) ← readPair? fuel deepest false cs
      if !atLineEnd rest then none
      let (ps, sections) ← readLines? fuel rest
      return (p :: ps, sections)

/-- Read a configuration. A byte order mark may stand in front. -/
def read? (text : List Char) : Option Table := do
  let text := if text.head? = some '\ufeff' then text.tail else text
  let (ps, sections) ← readLines? (2 * text.length + 2) text
  tableOfSections? ps sections

end ModalEdit.Toml
