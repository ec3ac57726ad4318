import ModalEdit.Action

/-!
# The keymap

All actions in the order in which they are tried. The user's bindings come first and so take their
keys from the built-in actions.
-/

namespace ModalEdit

/-- The actions in the order in which they are tried. -/
abbrev Keymap := List Action

namespace Keymap

/-- A command called by the key of a character. -/
def onChar (name : String) (modes : ModeSet) (c : Char) (command : Command) : Action :=
  .command name modes (.ofChar c) command

/-- An operator on the selections, called by the key of a character. -/
def onSelection (name : String) (c : Char) (kind : OperatorKind) : Action :=
  .onSelection name (.ofChar c) kind

/-- An operator and its text object, both called by the key of a character. -/
def shorthand (name : String) (c : Char) (kind : OperatorKind) (object : Char) : Action :=
  .shorthand name (.ofChar c) kind [.char object]

/-- Leaving a mode, typing, entering Insert mode and the small edits. -/
def edits : Keymap :=
  [.command "escape" .all (.literal [.esc]) .escape, .typing,
    onChar "insert" .onlyNormal 'i' (.insert .before),
    onChar "append" .onlyNormal 'a' (.insert .after),
    onChar "insert-line-start" .onlyNormal 'I' (.insert .lineStart),
    onChar "append-line-end" .onlyNormal 'A' (.insert .lineEnd),
    onChar "open-below" .onlyNormal 'o' (.openLine true),
    onChar "open-above" .onlyNormal 'O' (.openLine false),
    .command "replace-char" .onlyNormal (.placeholder (.after [.char 'r'] "char".toList))
      .replaceChar,
    onChar "join-lines" .onlyNormal 'J' .joinLines]

/-- The actions of the visual modes. -/
def visual : Keymap :=
  [onChar "visual-toggle" .normalAndVisual 'v' .toggleVisual,
    onChar "visual-line-toggle" .normalAndVisual 'V' .toggleVisualLine,
    onChar "visual-swap-ends" .anyVisual 'o' .swapEnds,
    onSelection "visual-delete" 'd' .delete, onSelection "visual-delete-x" 'x' .delete,
    onSelection "visual-yank" 'y' .yank, onSelection "visual-change" 'c' .change,
    onSelection "visual-substitute" 's' .change,
    onChar "visual-paste" .anyVisual 'p' (.pasteOver true),
    onChar "visual-paste-keep" .anyVisual 'P' (.pasteOver false), .selectObject]

/-- Paste and the operators of Normal mode. -/
def operators : Keymap :=
  [onChar "paste-after" .onlyNormal 'p' (.paste true),
    onChar "paste-before" .onlyNormal 'P' (.paste false),
    shorthand "delete-char" 'x' .delete 'l', shorthand "delete-char-before" 'X' .delete 'h',
    shorthand "delete-to-line-end" 'D' .delete '$', shorthand "change-to-line-end" 'C' .change '$',
    shorthand "substitute-char" 's' .change 'l', shorthand "substitute-line" 'S' .change 'c',
    shorthand "yank-line" 'Y' .yank 'y', .operator .delete, .operator .yank, .operator .change]

/-- All built-in actions. -/
def builtin : Keymap := edits ++ visual ++ operators ++ Motion.defaults.map .motion

/-- The built-in actions behind the user's bindings. -/
def withBindings (bs : List Binding) : Keymap := bs.map .bound ++ builtin

/-- The actions offered in a mode. -/
def forMode (k : Keymap) (m : Mode) : Keymap := k.filter fun a => a.modes.has m

end Keymap

end ModalEdit
