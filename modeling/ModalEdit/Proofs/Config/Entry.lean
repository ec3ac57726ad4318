import Mathlib.Data.List.Forall2
import ModalEdit.Config.Binding
import ModalEdit.Proofs.Key.Canonical

/-!
# Which entries are bindings

An entry in the array of bindings describes one if it is a table with a script for the keys, the
name of a command, and nothing but names of modes where modes are named (`Binding.IsEntry`). These
entries are accepted and no others (`Binding.read_eq_ok_iff`, one lemma for each step of the check).
-/

namespace ModalEdit

section Except

variable {ε ε' α β : Type} {m : Except ε α}

theorem bind_eq_ok_iff {f : α → Except ε β} {b : β} :
    m >>= f = .ok b ↔ ∃ a, m = .ok a ∧ f a = .ok b := by
  refine ⟨exists_of_bind_eq_ok, ?_⟩
  rintro ⟨a, rfl, h⟩
  exact h

theorem map_eq_ok_iff {f : α → β} {b : β} : m.map f = .ok b ↔ ∃ a, m = .ok a ∧ b = f a := by
  cases m with
  | ok a => simp [Except.map, eq_comm]
  | error e => simp [Except.map]

theorem mapError_eq_ok_iff {f : ε → ε'} {a : α} : m.mapError f = .ok a ↔ m = .ok a := by
  cases m <;> simp [Except.mapError]

end Except

namespace Binding

/-- The value names the mode. -/
def NamesMode (v : Toml.Value) (m : Mode) : Prop :=
  ∃ name, v = .string name ∧ Mode.ofName? name = some m

/-- What an entry may say about the modes of its binding. -/
inductive NamesModes : Option Toml.Value → ModeSet → Prop
  /-- If nothing is said, the mode is Normal mode. -/
  | missing : NamesModes none .onlyNormal
  /-- The name of one mode. -/
  | one {v : Toml.Value} {m : Mode} (h : NamesMode v m) : NamesModes (some v) (.ofList [m])
  /-- An array of names. -/
  | many {names : List Toml.Value} {ms : List Mode} (h : List.Forall₂ NamesMode names ms) :
    NamesModes (some (.array names)) (.ofList ms)

/-- The table says what the binding is. Entries with other keys are not looked at. -/
structure Describes (t : Toml.Table) (b : Binding) : Prop where
  /-- The keys are written as a script. -/
  keys : ∃ script, t.get? "keys" = some (.string script) ∧ parseKeys script.toList = .ok b.keys
  /-- The command is named. -/
  command : t.get? "command" = some (.string b.command)
  /-- The modes are named, or left out. -/
  modes : NamesModes (t.get? "modes") b.modes
  /-- The arguments are whatever is given. -/
  args : b.args = t.get? "args"

/-- The value is a table that says what the binding is. -/
def IsEntry (v : Toml.Value) (b : Binding) : Prop := ∃ t, v = .table t ∧ Describes t b

variable {i : Nat}

theorem string?_eq_some_iff {v : Toml.Value} {s : String} : v.string? = some s ↔ v = .string s := by
  cases v <;> simp [Toml.Value.string?]

theorem stringField_eq_ok_iff {t : Toml.Table} {field s : String} :
    stringField t i field = .ok s ↔ t.get? field = some (.string s) := by
  unfold stringField
  cases t.get? field with
  | none => simp
  | some v =>
    dsimp only
    rw [Option.some.injEq, ← string?_eq_some_iff]
    cases v.string? <;> simp

theorem readMode_eq_ok_iff {name : String} {m : Mode} :
    readMode i name = .ok m ↔ NamesMode (.string name) m := by
  have hname : NamesMode (.string name) m ↔ Mode.ofName? name = some m := by simp [NamesMode]
  rw [hname, readMode]
  cases Mode.ofName? name <;> simp

theorem readModes_eq_ok_iff {names : List Toml.Value} {ms : List Mode} :
    readModes i names = .ok ms ↔ List.Forall₂ NamesMode names ms := by
  induction names generalizing ms with
  | nil => simp [readModes, eq_comm]
  | cons v names ih =>
    rw [List.forall₂_cons_left_iff, readModes]
    cases hname : v.string? with
    | none =>
      refine iff_of_false nofun ?_
      rintro ⟨m, ms, ⟨name, rfl, -⟩, -⟩
      cases hname
    | some name =>
      obtain rfl := string?_eq_some_iff.1 hname
      simp only [bind_eq_ok_iff, readMode_eq_ok_iff, ih]
      constructor
      · rintro ⟨m, hm, ms, hms, heq⟩
        cases heq
        exact ⟨m, ms, hm, hms, rfl⟩
      · rintro ⟨m, ms, hm, hms, rfl⟩
        exact ⟨m, hm, ms, hms, rfl⟩

theorem modesField_eq_ok_iff {t : Toml.Table} {s : ModeSet} :
    modesField t i = .ok s ↔ NamesModes (t.get? "modes") s := by
  unfold modesField
  generalize t.get? "modes" = said
  constructor
  · intro h
    split at h
    · cases h
      exact .missing
    · obtain ⟨m, hm, rfl⟩ := map_eq_ok_iff.1 h
      exact .one (readMode_eq_ok_iff.1 hm)
    · obtain ⟨ms, hms, rfl⟩ := map_eq_ok_iff.1 h
      exact .many (readModes_eq_ok_iff.1 hms)
    · cases h
  · intro h
    cases h with
    | missing => rfl
    | one h =>
      obtain ⟨name, rfl, hname⟩ := h
      exact map_eq_ok_iff.2 ⟨_, readMode_eq_ok_iff.2 ⟨name, rfl, hname⟩, rfl⟩
    | many h => exact map_eq_ok_iff.2 ⟨_, readModes_eq_ok_iff.2 h, rfl⟩

/-- **Which entries are accepted**, and as what. -/
theorem read_eq_ok_iff {v : Toml.Value} {b : Binding} : read i v = .ok b ↔ IsEntry v b := by
  cases v with
  | table t =>
    simp only [read, Toml.Value.table?, bind_eq_ok_iff, stringField_eq_ok_iff, mapError_eq_ok_iff,
      modesField_eq_ok_iff]
    constructor
    · rintro ⟨script, hscript, keys, hkeys, command, hcommand, modes, hmodes, heq⟩
      cases heq
      exact ⟨t, rfl, ⟨script, hscript, hkeys⟩, hcommand, hmodes, rfl⟩
    · rintro ⟨t', heq, ⟨script, hscript, hkeys⟩, hcommand, hmodes, hargs⟩
      cases heq
      refine ⟨script, hscript, b.keys, hkeys, b.command, hcommand, b.modes, hmodes, ?_⟩
      rw [← hargs]
      rfl
  | _ =>
    refine iff_of_false nofun ?_
    rintro ⟨t, heq, -⟩
    cases heq

end Binding

end ModalEdit
