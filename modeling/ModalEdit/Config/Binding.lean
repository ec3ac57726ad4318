import ModalEdit.Key.Script
import ModalEdit.Mode
import ModalEdit.Toml.Value

/-!
# Bindings

A binding calls a command of the editor by keys. Bindings come from an array of tables in the
configuration. Each table is checked by itself: a faulty one is reported and left out, and takes no
other down with it.
-/

namespace ModalEdit

/-- Keys that call a command of the editor. -/
structure Binding where
  /-- The keys. -/
  keys : List Key
  /-- The modes in which the keys call the command. -/
  modes : ModeSet
  /-- The name of the command. -/
  command : String
  /-- What the command is called with. -/
  args : Option Toml.Value := none

/-- What is wrong with the bindings of a configuration. -/
inductive BindingError where
  /-- The bindings are no array. -/
  | notAnArray (found : String)
  /-- A binding is no table. -/
  | notATable (index : Nat)
  /-- A field is not there. -/
  | missingField (index : Nat) (field : String)
  /-- A field has a value of another kind. -/
  | wrongType (index : Nat) (field expected : String)
  /-- The keys are no key script. -/
  | keys (index : Nat) (e : KeyError)
  /-- No mode has this name. -/
  | unknownMode (index : Nat) (mode : String)
deriving DecidableEq, Repr

/-- The error in words. -/
def BindingError.message : BindingError → String
  | notAnArray found => s!"`bindings` must be an array of tables, found {found}"
  | notATable i => s!"binding #{i} is not a table"
  | missingField i field => s!"binding #{i} is missing `{field}`"
  | wrongType i field expected => s!"binding #{i}: `{field}` must be {expected}"
  | keys i e => s!"binding #{i} has an invalid key sequence: {e.message}"
  | unknownMode i mode => s!"binding #{i} names unknown mode `{mode}`"

namespace Binding

/-- The text of a field that must be a string. -/
def stringField (t : Toml.Table) (index : Nat) (field : String) : Except BindingError String :=
  match t.get? field with
  | none => .error (.missingField index field)
  | some v =>
    match v.string? with
    | some s => .ok s
    | none => .error (.wrongType index field "a string")

/-- The mode with the given name. -/
def readMode (index : Nat) (name : String) : Except BindingError Mode :=
  match Mode.ofName? name with
  | some m => .ok m
  | none => .error (.unknownMode index name)

/-- The modes named by the elements of an array. -/
def readModes (index : Nat) : List Toml.Value → Except BindingError (List Mode)
  | [] => .ok []
  | v :: vs =>
    match v.string? with
    | none => .error (.wrongType index "modes" "an array of strings")
    | some name => do
      let m ← readMode index name
      let ms ← readModes index vs
      return m :: ms

/-- The modes of a binding: Normal mode if nothing is said, else one name or an array of names. -/
def modesField (t : Toml.Table) (index : Nat) : Except BindingError ModeSet :=
  match t.get? "modes" with
  | none => .ok .onlyNormal
  | some (.string name) => (readMode index name).map fun m => .ofList [m]
  | some (.array names) => (readModes index names).map .ofList
  | some _ => .error (.wrongType index "modes" "a string or an array of strings")

/-- Read one binding. -/
def read (index : Nat) (v : Toml.Value) : Except BindingError Binding := do
  match v.table? with
  | none => throw (.notATable index)
  | some t =>
    let script ← stringField t index "keys"
    let keys ← (parseKeys script.toList).mapError (.keys index)
    let command ← stringField t index "command"
    let modes ← modesField t index
    return { keys, modes, command, args := t.get? "args" }

/-- Read the bindings of an array whose first element has the given index: the good ones and what is
wrong with the others, both in order. -/
def readFrom (index : Nat) : List Toml.Value → List Binding × List BindingError
  | [] => ([], [])
  | v :: vs =>
    let (good, bad) := readFrom (index + 1) vs
    match read index v with
    | .ok b => (b :: good, bad)
    | .error e => (good, e :: bad)

/-- Read the bindings of a configuration, which may have none. -/
def readAll (bindings : Option Toml.Value) : List Binding × List BindingError :=
  match bindings with
  | none => ([], [])
  | some v =>
    match v.array? with
    | some vs => readFrom 0 vs
    | none => ([], [.notAnArray v.kind])

end Binding

end ModalEdit
