/-!
# Keys

A key press is a character, a named key, or a key held together with modifiers. `Key.render` writes
a key the way scripts and bindings spell it: a character stands for itself, everything else is a
name in angle brackets, such as `<CR>` or `<C-r>`.
-/

namespace ModalEdit

/-- A key that types no character. -/
inductive NamedKey where
  | enter | esc | backspace | tab
  /-- A function key. -/
  | f (n : Nat)
  | up | down | left | right | home | endKey | pageUp | pageDown | insert | delete
deriving DecidableEq, Repr

/-- The name a key has inside angle brackets. -/
def NamedKey.name : NamedKey → List Char
  | enter => ['C', 'R']
  | esc => ['E', 's', 'c']
  | backspace => ['B', 'S']
  | tab => ['T', 'a', 'b']
  | f n => 'F' :: Nat.toDigits 10 n
  | up => ['U', 'p']
  | down => ['D', 'o', 'w', 'n']
  | left => ['L', 'e', 'f', 't']
  | right => ['R', 'i', 'g', 'h', 't']
  | home => ['H', 'o', 'm', 'e']
  | endKey => ['E', 'n', 'd']
  | pageUp => ['P', 'a', 'g', 'e', 'U', 'p']
  | pageDown => ['P', 'a', 'g', 'e', 'D', 'o', 'w', 'n']
  | insert => ['I', 'n', 's', 'e', 'r', 't']
  | delete => ['D', 'e', 'l']

/-- A key that is held down together with another. -/
inductive Modifier where
  | ctrl | alt | shift | metaKey | super
deriving DecidableEq, Repr

namespace Modifier

/-- All modifiers in the order in which they are written. -/
def all : List Modifier := [ctrl, alt, shift, metaKey, super]

/-- The letter that stands for a modifier. -/
def letter : Modifier → Char
  | ctrl => 'C'
  | alt => 'A'
  | shift => 'S'
  | metaKey => 'M'
  | super => 'D'

/-- The modifier that a letter of either case stands for. -/
def ofLetter? (c : Char) : Option Modifier := all.find? fun m => m.letter == c.toUpper

end Modifier

/-- A set of modifiers. -/
structure Mods where
  ctrl : Bool := false
  alt : Bool := false
  shift : Bool := false
  metaKey : Bool := false
  super : Bool := false
deriving DecidableEq, Repr

namespace Mods

/-- No modifier. -/
def none : Mods := {}

/-- The modifier is in the set. -/
def has (s : Mods) : Modifier → Bool
  | .ctrl => s.ctrl
  | .alt => s.alt
  | .shift => s.shift
  | .metaKey => s.metaKey
  | .super => s.super

/-- The set with one modifier more. -/
def insert (s : Mods) : Modifier → Mods
  | .ctrl => { s with ctrl := true }
  | .alt => { s with alt := true }
  | .shift => { s with shift := true }
  | .metaKey => { s with metaKey := true }
  | .super => { s with super := true }

/-- The set of the given modifiers. -/
def ofList (ms : List Modifier) : Mods := ms.foldl insert none

/-- The modifiers of the set in the order in which they are written. -/
def toList (s : Mods) : List Modifier := Modifier.all.filter s.has

/-- The letters of the modifiers, each with a dash. -/
def render (s : Mods) : List Char := s.toList.flatMap fun m => [m.letter, '-']

end Mods

/-- One key press. -/
inductive Key where
  /-- A key that types a character. -/
  | char (c : Char)
  /-- A key that types none. -/
  | named (k : NamedKey)
  /-- A key with modifiers held down. -/
  | chord (base : Key) (mods : Mods)
deriving DecidableEq, Repr

namespace Key

/-- The key with modifiers held down; without any it is the key alone. -/
def withMods (base : Key) (mods : Mods) : Key := if mods = .none then base else .chord base mods

/-- The escape key. -/
def esc : Key := .named .esc

/-- The character the key types. -/
def char? : Key → Option Char
  | .char c => some c
  | _ => none

/-- What a key is called inside angle brackets. -/
def body : Key → List Char
  | .char c => if c = '<' then ['l', 't'] else if c = ' ' then ['S', 'p', 'a', 'c', 'e'] else [c]
  | .named k => k.name
  | .chord base mods => mods.render ++ base.body

/-- A key as it is written. -/
def render : Key → List Char
  | .char c => if c = '<' ∨ c = ' ' then '<' :: (Key.char c).body ++ ['>'] else [c]
  | k => '<' :: k.body ++ ['>']

end Key

/-- A sequence of keys as it is written. -/
def renderKeys (ks : List Key) : List Char := ks.flatMap Key.render

@[simp] theorem renderKeys_nil : renderKeys [] = [] := rfl

@[simp] theorem renderKeys_cons (k : Key) (ks : List Key) :
    renderKeys (k :: ks) = k.render ++ renderKeys ks := rfl

theorem renderKeys_append (ks ls : List Key) :
    renderKeys (ks ++ ls) = renderKeys ks ++ renderKeys ls := List.flatMap_append

end ModalEdit
