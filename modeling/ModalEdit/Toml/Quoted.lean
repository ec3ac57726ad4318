import ModalEdit.Toml.Number

/-!
# Strings in a configuration

A basic string stands between double quotes and may hold escapes, which begin with a backslash. A
literal string stands between single quotes and has no escapes. Three quotes in place of one let the
string run over lines: a line break right behind the opening quotes is dropped, up to two quotes may
stand before the closing ones, and a backslash at the end of a line joins it to the next text.
-/

namespace ModalEdit.Toml

/-- The character may stand for itself in strings and comments: no control character but the tab. -/
def isPlain (c : Char) : Bool := c == '\t' || (' ' ≤ c && c != '\x7f')

/-- The character is a space or a tab. -/
def isSpace (c : Char) : Bool := c == ' ' || c == '\t'

/-- The text begins with a line break. -/
def atLineBreak : List Char → Bool
  | '\n' :: _ => true
  | '\r' :: '\n' :: _ => true
  | _ => false

/-- The character of a one-letter escape. -/
def escape? : Char → Option Char
  | 'b' => some '\x08'
  | 't' => some '\t'
  | 'n' => some '\n'
  | 'f' => some '\x0c'
  | 'r' => some '\r'
  | 'e' => some '\x1b'
  | '"' => some '"'
  | '\\' => some '\\'
  | _ => none

/-- Read an escape whose backslash has been read: the character and the rest. -/
def readEscape? (cs : List Char) : Option (Char × List Char) :=
  match cs with
  | 'x' :: rest => sized 2 rest
  | 'u' :: rest => sized 4 rest
  | 'U' :: rest => sized 8 rest
  | c :: rest => (escape? c).map (·, rest)
  | [] => none
where
  /-- The character of `n` hexadecimal digits. -/
  sized (n : Nat) (rest : List Char) : Option (Char × List Char) :=
    if rest.length < n then none else (charOfHex? (rest.take n)).map (·, rest.drop n)

/-- An escape uses up at least one character. -/
theorem length_readEscape? {cs rest : List Char} {c : Char} (h : readEscape? cs = some (c, rest)) :
    rest.length < cs.length := by
  have sized {n : Nat} {r : List Char} (hs : readEscape?.sized n r = some (c, rest)) :
      rest.length ≤ r.length := by
    unfold readEscape?.sized at hs
    split at hs
    · cases hs
    · simp only [Option.map_eq_some_iff, Prod.mk.injEq] at hs
      obtain ⟨_, _, _, rfl⟩ := hs
      simp only [List.length_drop]; omega
  unfold readEscape? at h
  split at h
  · have := sized h; simp only [List.length_cons]; omega
  · have := sized h; simp only [List.length_cons]; omega
  · have := sized h; simp only [List.length_cons]; omega
  · simp only [Option.map_eq_some_iff, Prod.mk.injEq] at h
    obtain ⟨_, _, _, rfl⟩ := h
    simp
  · cases h

/-- Read the inside of a basic string on one line, and its closing quote. -/
def readBasic (cs : List Char) : Option (List Char × List Char) :=
  match cs with
  | [] => none
  | '"' :: rest => some ([], rest)
  | '\\' :: rest =>
    match _h : readEscape? rest with
    | some (c, rest') => (readBasic rest').map fun r => (c :: r.1, r.2)
    | none => none
  | c :: rest => if isPlain c then (readBasic rest).map fun r => (c :: r.1, r.2) else none
termination_by cs.length
decreasing_by
  · have := length_readEscape? _h; simp_wf; omega
  · simp_wf

/-- Read the inside of a literal string on one line, and its closing quote. -/
def readLiteral : List Char → Option (List Char × List Char)
  | [] => none
  | c :: rest =>
    if c = '\'' then some ([], rest)
    else if isPlain c then (readLiteral rest).map fun r => (c :: r.1, r.2)
    else none

/-- Split the closing quotes off a text, if it begins with at least three: the quotes that still
belong to the string, at most two, and the rest. -/
def closing? (quote : Char) (cs : List Char) : Option (List Char × List Char) :=
  let n := (cs.takeWhile (· == quote)).length
  if n < 3 then none
  else
    let inside := min (n - 3) 2
    some (List.replicate inside quote, cs.drop (inside + 3))

/-- Read the inside of a literal string of several lines, and its closing quotes. -/
def readLiteralLines : List Char → Option (List Char × List Char)
  | [] => none
  | c :: rest =>
    match closing? '\'' (c :: rest) with
    | some r => some r
    | none =>
      if isPlain c || atLineBreak (c :: rest) then
        (readLiteralLines rest).map fun r => (c :: r.1, r.2)
      else none

/-- Drop the blanks and line breaks at the front of a text. -/
def dropSpace : List Char → List Char
  | '\n' :: rest => dropSpace rest
  | '\r' :: '\n' :: rest => dropSpace rest
  | c :: rest => if isSpace c then dropSpace rest else c :: rest
  | [] => []

theorem length_dropSpace (cs : List Char) : (dropSpace cs).length ≤ cs.length := by
  fun_induction dropSpace cs <;> simp_all <;> omega

/-- Read the inside of a basic string of several lines, and its closing quotes. -/
def readBasicLines (cs : List Char) : Option (List Char × List Char) :=
  match cs with
  | [] => none
  | '\\' :: rest =>
    if atLineBreak (rest.dropWhile isSpace) then readBasicLines (dropSpace rest)
    else
      match _h : readEscape? rest with
      | some (c, rest') => (readBasicLines rest').map fun r => (c :: r.1, r.2)
      | none => none
  | c :: rest =>
    match closing? '"' (c :: rest) with
    | some r => some r
    | none =>
      if isPlain c || atLineBreak (c :: rest) then
        (readBasicLines rest).map fun r => (c :: r.1, r.2)
      else none
termination_by cs.length
decreasing_by
  · have := length_dropSpace rest; simp_wf; omega
  · have := length_readEscape? _h; simp_wf; omega
  · simp_wf

/-- Drop a line break at the front of a text. -/
def dropLineBreak : List Char → List Char
  | '\n' :: rest => rest
  | '\r' :: '\n' :: rest => rest
  | rest => rest

/-- Read a string on one line. -/
def readLineString : List Char → Option (List Char × List Char)
  | '"' :: rest => readBasic rest
  | '\'' :: rest => readLiteral rest
  | _ => none

/-- Read a string of either kind. -/
def readString : List Char → Option (List Char × List Char)
  | '"' :: '"' :: '"' :: rest => readBasicLines (dropLineBreak rest)
  | '\'' :: '\'' :: '\'' :: rest => readLiteralLines (dropLineBreak rest)
  | rest => readLineString rest

end ModalEdit.Toml
