import ModalEdit.Unicode.Alphabetic
import ModalEdit.Unicode.CaseFold
import ModalEdit.Unicode.Mark
import ModalEdit.Unicode.Numeric
import ModalEdit.Unicode.WhiteSpace

/-!
# Sets of characters

The sets that a regular expression can name or build from others. `CharSet.has` decides membership.
-/

namespace ModalEdit

/-- A character that joins words: an underscore or a kind of tie. -/
def isConnector (c : Char) : Bool :=
  ['_', '\u203f', '\u2040', '\u2054', '\ufe33', '\ufe34', '\ufe4d', '\ufe4e', '\ufe4f',
    '\uff3f'].contains c

/-- A character that asks for its neighbours to be joined, or not to be. -/
def isJoiner (c : Char) : Bool := c == '\u200c' || c == '\u200d'

/-- A character of a word: letters, marks, decimal digits, connectors and joiners. -/
def isWordPart (c : Char) : Bool :=
  isLetter c || isMark c || isDecimal c || isConnector c || isJoiner c

/-- A set of characters. -/
inductive CharSet where
  /-- The characters of words. -/
  | word
  /-- Decimal digits. -/
  | digit
  /-- White space. -/
  | space
  /-- The characters from one to another. -/
  | range (lo hi : Char)
  /-- What is in one of the sets. -/
  | any (sets : List CharSet)
  /-- What is in both sets. -/
  | both (a b : CharSet)
  /-- What is not in the set. -/
  | not (set : CharSet)
  /-- What differs in case only from something in the set. -/
  | folded (set : CharSet)

namespace CharSet

mutual

/-- The character is in the set. -/
def has : CharSet → Char → Bool
  | word, c => isWordPart c
  | digit, c => isDecimal c
  | space, c => isBlank c
  | range lo hi, c => decide (lo ≤ c) && decide (c ≤ hi)
  | any sets, c => hasAny sets c
  | both a b, c => has a c && has b c
  | not set, c => !has set c
  | folded set, c => (caseVariants c).any (has set)

/-- The character is in one of the sets. -/
def hasAny : List CharSet → Char → Bool
  | [], _ => false
  | set :: sets, c => has set c || hasAny sets c

end

/-- The set of one character. -/
def one (c : Char) : CharSet := range c c

/-- Every character. -/
def all : CharSet := not (any [])

/-- What is in the first set only. -/
def minus (a b : CharSet) : CharSet := both a (not b)

/-- What is in one of the sets only. -/
def differ (a b : CharSet) : CharSet := any [minus a b, minus b a]

/-- The sets of ASCII characters that have a name. -/
def named? (name : List Char) : Option CharSet :=
  let lower := range 'a' 'z'
  let upper := range 'A' 'Z'
  let numeral := range '0' '9'
  [("alnum", any [numeral, upper, lower]), ("alpha", any [upper, lower]),
    ("ascii", range '\x00' '\x7f'), ("blank", any [one '\t', one ' ']),
    ("cntrl", any [range '\x00' '\x1f', one '\x7f']), ("digit", numeral), ("graph", range '!' '~'),
    ("lower", lower), ("print", range ' ' '~'),
    ("punct", any [range '!' '/', range ':' '@', range '[' '\x60', range '\x7b' '~']),
    ("space", any [range '\t' '\r', one ' ']), ("upper", upper),
    ("word", any [numeral, upper, lower, one '_']),
    ("xdigit", any [numeral, range 'A' 'F', range 'a' 'f'])].lookup (String.ofList name)

end CharSet

end ModalEdit
