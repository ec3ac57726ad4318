import Mathlib.Data.List.Infix
import ModalEdit.Register

/-!
# All entries in one

Entries of whole lines are stored with their final line feed. `Registers.joined?` takes one line
feed off each of them, puts one between two of them, and gives the outcome the final line feed it
lacks. What it lacks is read off the last character: when the last line of the last entry is empty,
the line feed that ends the line before it is taken for the final one, and the empty line is lost.

`Registers.joined_ofLines` says that this is the only loss: the joined entry holds all lines unless
they end in an empty line behind another one, and then exactly that empty line is missing.
-/

namespace ModalEdit

variable {t : Text}

theorem dropBreak_append_newline (t : Text) : dropBreak (t ++ ['\n']) = t := by
  simp [dropBreak]

namespace RegisterEntry

@[simp] theorem text_charwise (t : Text) : (charwise t).text = t := by simp [charwise, make]

@[simp] theorem linewise_charwise (t : Text) : (charwise t).linewise = false := rfl

theorem make_append_newline (t : Text) : make (t ++ ['\n']) true = ⟨t ++ ['\n'], true⟩ := by
  simp [make]

/-- Whole lines are their body and the line feed that ends it. -/
theorem text_ofLines (t : Text) : (ofLines t).text = (ofLines t).body ++ ['\n'] := by
  unfold ofLines
  by_cases hlast : t.getLast? = some '\n'
  · obtain ⟨ys, rfl⟩ := List.getLast?_eq_some_iff.1 hlast
    rw [make_append_newline, body, if_pos rfl, dropBreak_append_newline]
  · have hmake : make t true = ⟨t ++ ['\n'], true⟩ := by simp [make, hlast]
    rw [hmake, body, if_pos rfl, dropBreak_append_newline]

end RegisterEntry

/-- Lines joined by line feeds and ended by one are the lines each ended by one. -/
theorem intercalate_append_newline {ls : List Text} (h : ls ≠ []) :
    ['\n'].intercalate ls ++ ['\n'] = (ls.map (· ++ ['\n'])).flatten := by
  induction ls with
  | nil => exact absurd rfl h
  | cons l ls ih =>
    match ls with
    | [] => simp
    | l' :: ls =>
      have hrest := ih (List.cons_ne_nil _ _)
      rw [List.intercalate_cons_cons, List.map_cons, List.flatten_cons, ← hrest]
      simp only [List.append_assoc]

/-- A text ends in two line feeds if it ends in one with the last one taken off. -/
theorem two_newlines_suffix_iff :
    ['\n', '\n'] <:+ t ++ ['\n'] ↔ t.getLast? = some '\n' := by
  rw [List.getLast?_eq_some_iff]
  constructor
  · rintro ⟨ys, h⟩
    have hcons : t ++ ['\n'] = (ys ++ ['\n']) ++ ['\n'] := by
      rw [← h]
      simp
    exact ⟨ys, List.append_cancel_right hcons⟩
  · rintro ⟨ys, rfl⟩
    exact ⟨ys, by simp⟩

namespace Registers

variable {r : Registers}

/-- All texts of entries of whole lines, one after the other, are the joined bodies and a final
line feed. -/
theorem flatten_texts (hne : r.entries ≠ []) (h : ∀ e ∈ r.entries, ∃ t, e = .ofLines t) :
    (r.entries.map (·.text)).flatten =
      ['\n'].intercalate (r.entries.map (·.body)) ++ ['\n'] := by
  rw [intercalate_append_newline (by simpa using hne), List.map_map]
  congr 1
  refine List.map_congr_left fun e he => ?_
  obtain ⟨t, rfl⟩ := h e he
  exact RegisterEntry.text_ofLines t

theorem joined?_of_ne_nil (hne : r.entries ≠ []) :
    r.joined? = some (.make (['\n'].intercalate (r.entries.map (·.body)))
      (r.entries.all (·.linewise))) := by
  rw [joined?, if_neg (by simpa using hne)]

/-- With another number of cursors than entries every cursor gets all entries in one. -/
theorem forCursors_of_joined {e : RegisterEntry} (h : r.joined? = some e) {n : Nat}
    (hn : n ≠ r.entries.length) : r.forCursors n = List.replicate n e := by
  rw [forCursors, if_neg (Ne.symm hn), h]

/-- The text that the store has put on the clipboard is its own. -/
theorem isForeign_noteWritten (r : Registers) (text : Text) :
    (r.noteWritten text).isForeign text = false := by
  simp [isForeign, noteWritten]

/-- One entry each for as many cursors as there are entries. -/
theorem forCursors_length (r : Registers) : r.forCursors r.entries.length = r.entries :=
  if_pos rfl

/-- **Entries of whole lines in one**: whole lines again, and all of them unless they end in an
empty line behind another one. Then exactly that line is missing, from the clipboard and at every
cursor. -/
theorem joined_ofLines (r : Registers) (hne : r.entries ≠ [])
    (h : ∀ e ∈ r.entries, ∃ t, e = .ofLines t) :
    let all := (r.entries.map (·.text)).flatten
    ∃ e, r.joined? = some e ∧ e.linewise = true ∧ r.clipboardText = e.text ∧
      (∀ n, n ≠ r.entries.length → r.forCursors n = List.replicate n e) ∧
        (e.text = all ↔ ¬ ['\n', '\n'] <:+ all) ∧
          (['\n', '\n'] <:+ all → e.text ++ ['\n'] = all) := by
  intro all
  have hall : all = _ := flatten_texts hne h
  have hlinewise : r.entries.all (·.linewise) = true := by
    refine List.all_eq_true.2 fun e he => ?_
    obtain ⟨t, rfl⟩ := h e he
    rfl
  have hjoined := joined?_of_ne_nil hne
  rw [hlinewise] at hjoined
  generalize ['\n'].intercalate (r.entries.map (·.body)) = inner at hall hjoined
  refine ⟨_, hjoined, rfl, by rw [clipboardText, hjoined]; rfl,
    fun n hn => forCursors_of_joined hjoined hn, ?_⟩
  rw [hall, two_newlines_suffix_iff]
  -- The final line feed is put in if and only if the joined bodies do not end in one.
  by_cases hlast : inner.getLast? = some '\n'
  · simp [RegisterEntry.make, hlast]
  · simp [RegisterEntry.make, hlast]

/-- Two lines that are not empty. -/
theorem joined_ofLines_two :
    let r := store [.ofLines ['a'], .ofLines ['b']]
    r.entries ≠ [] ∧ (∀ e ∈ r.entries, ∃ t, e = .ofLines t) ∧
      r.joined? = some (.ofLines ['a', '\n', 'b']) ∧
        r.clipboardText = (r.entries.map (·.text)).flatten := by
  intro r
  have hne : r.entries ≠ [] := by decide
  have hlines : ∀ e ∈ r.entries, ∃ t, e = .ofLines t := by
    simp only [r, store, List.forall_mem_cons]
    exact ⟨⟨_, rfl⟩, ⟨_, rfl⟩, nofun⟩
  obtain ⟨e, hjoined, -, hclip, -, htext, -⟩ := joined_ofLines r hne hlines
  refine ⟨hne, hlines, by decide, ?_⟩
  rw [hclip]
  exact htext.2 (by decide)

/-- A line and an empty one. All entries in one are the first line alone. -/
theorem not_joined_empty_line :
    let r := store [.ofLines ['a'], .ofLines []]
    r.entries ≠ [] ∧ (∀ e ∈ r.entries, e.linewise = true) ∧
      (r.entries.map (·.text)).flatten = ['a', '\n', '\n'] ∧
        (¬ ∃ e, r.joined? = some e ∧ e.text = (r.entries.map (·.text)).flatten) ∧
          r.clipboardText = ['a', '\n'] ∧ r.forCursors 1 = [⟨['a', '\n'], true⟩] := by
  intro r
  have hjoined : r.joined? = some ⟨['a', '\n'], true⟩ := by decide
  refine ⟨by decide, by decide, by decide, ?_, by decide, by decide⟩
  rintro ⟨e, he, htext⟩
  rw [hjoined] at he
  cases he
  exact absurd htext (by decide)

end Registers

end ModalEdit
