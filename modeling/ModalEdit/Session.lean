import ModalEdit.Key.Basic
import ModalEdit.Mode
import ModalEdit.Register
import ModalEdit.Walk.Find

/-!
# Sessions

What is remembered from one key to the next: the mode, the keys typed since the last command, the
registers and the last character search.
-/

namespace ModalEdit

/-- The state of an editing session. -/
structure Session where
  /-- What keys mean. -/
  mode : Mode := .normal
  /-- The keys typed since the last command. -/
  pending : List Key := []
  /-- What was last yanked or deleted. -/
  registers : Registers := {}
  /-- The last character search. -/
  lastFind : Option Find := none
deriving DecidableEq, Repr

end ModalEdit
