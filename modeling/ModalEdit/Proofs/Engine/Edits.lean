import ModalEdit.Proofs.Command.Lines
import ModalEdit.Proofs.Command.Replace
import ModalEdit.Proofs.Engine.RoundTrip
import ModalEdit.Proofs.Pattern.KeyByKey

/-!
# The small edits of Normal mode, key by key

The key that joins lines only concerns white space (`Engine.handleKey_joinLines`). The keys that
open lines put one new line below or above each line with a cursor (`Engine.handleKey_openLine`).
The key that replaces characters waits for the character, and then replaces exactly the characters
under the cursors (`Engine.handleKeys_replaceChar`); it keeps the selections unless some cursors
stand on a character and others do not.
-/

namespace ModalEdit.Engine

variable {e : Engine} {ed : Editor} {d : Document} {ps : List Position} {c : Char}

/-- Without pending keys there is nothing to drop. -/
theorem withSession_of_pending (hpending : e.session.pending = []) :
    e.withSession { e.session with pending := [] } = e := by
  rw [← hpending]
  rfl

/-! ### Joining lines -/

/-- **The key that joins lines only concerns white space.** It runs whatever the selections are,
keeps what is not white space in its order, and takes one line away for every line with a cursor but
the last one. The language of the document has no comment token, or an empty one. -/
theorem handleKey_joinLines (e : Engine) (ed : Editor) (d : Document)
    (hkeymap : e.keymap = .builtin) (hmode : e.session.mode = .normal)
    (hpending : e.session.pending = []) (hdoc : ed.document = some d)
    (hreadonly : ed.readonly = false) (hd : d.LineFeedsOnly)
    (hcomment : (ed.language.bind e.settings.comment?).getD [] = []) :
    ∃ ed' after, e.handleKey ed (.char 'J') = (.executed "join-lines", e, ed') ∧
      ed'.document = some after ∧ after.LineFeedsOnly ∧
      after.text.filter (fun c => !isBlank c) = d.text.filter (fun c => !isBlank c) ∧
      after.lineCount +
        ((ed.selections.map (State.lineOf d)).eraseDups.filter (· < d.lastLine)).length =
          d.lineCount := by
  have howns : Keymap.Owns (.char 'J') (Keymap.onChar "join-lines" .onlyNormal 'J' .joinLines) :=
    List.mem_of_getElem? (i := 8) rfl
  obtain ⟨s', ⟨hsession, after, hafter⟩, hkey⟩ := handleKey_onChar howns ⟨hkeymap, hmode, hdoc⟩
    hpending (Step.ends_joinLines (s := e.state ed) hdoc hreadonly hd hcomment)
  have hengine : e.withSession { s'.session with pending := [] } = e := by
    rw [hsession]
    exact withSession_of_pending hpending
  rw [hengine] at hkey
  exact ⟨_, after, hkey, hafter⟩

/-- Two lines one after the other, the second one blank, and the last line: three lines become
one. -/
theorem handleKey_joinLines_blank :
    let d := Document.ofText "a \n\t\n b\nc".toList
    let ed := Editor.ofDocument d [⟨1, 0⟩, ⟨3, 0⟩, ⟨0, 2⟩, ⟨0, 0⟩]
    let e : Engine := {}
    d.LineFeedsOnly ∧ d.lineCount = 4 ∧
      ((ed.selections.map (State.lineOf d)).eraseDups.filter (· < d.lastLine)).length = 2 ∧
      d.text.filter (fun c => !isBlank c) = "abc".toList ∧
      ∃ ed' after, e.handleKey ed (.char 'J') = (.executed "join-lines", e, ed') ∧
        ed'.document = some after ∧ after.LineFeedsOnly ∧
        after.text.filter (fun c => !isBlank c) = d.text.filter (fun c => !isBlank c) ∧
        after.lineCount +
          ((ed.selections.map (State.lineOf d)).eraseDups.filter (· < d.lastLine)).length =
            d.lineCount := by
  intro d ed e
  have hd : d.LineFeedsOnly := by decide
  exact ⟨hd, by decide, by decide, by decide,
    handleKey_joinLines e ed d rfl rfl rfl rfl rfl hd rfl⟩

/-! ### Opening lines -/

/-- The key that opens lines below or above. -/
def openKey (below : Bool) : Key := .char (if below then 'o' else 'O')

/-- What it is reported as. -/
def openName (below : Bool) : String := if below then "open-below" else "open-above"

/-- **The keys that open lines** put one new line, with the blanks and tabs at the front of the
line, right below or right above each line with a cursor, however many cursors are on it, and leave
a cursor at the end of each new line, in Insert mode (`State.OpensLines`). -/
theorem handleKey_openLine (e : Engine) (ed : Editor) (d : Document) (below : Bool)
    (hkeymap : e.keymap = .builtin) (hmode : e.session.mode = .normal)
    (hpending : e.session.pending = []) (hdoc : ed.document = some d)
    (hreadonly : ed.readonly = false) (hd : d.LineFeedsOnly) :
    ∃ e' ed', e.handleKey ed (openKey below) = (.executed (openName below), e', ed') ∧
      (e.state ed).OpensLines d below (e'.state ed') := by
  have howns : Keymap.Owns (openKey below) (Keymap.onChar (openName below) .onlyNormal
      (if below then 'o' else 'O') (.openLine below)) := by
    cases below with
    | true => exact List.mem_of_getElem? (i := 5) rfl
    | false => exact List.mem_of_getElem? (i := 6) rfl
  obtain ⟨s', hopens, hkey⟩ := handleKey_onChar howns ⟨hkeymap, hmode, hdoc⟩ hpending
    (Step.ends_openLine (s := e.state ed) below hdoc hreadonly hd)
  exact ⟨_, _, hkey, hopens⟩

/-- Two cursors on the last line and one on the first, which is indented. -/
theorem handleKey_openLine_above :
    let d := Document.ofText " \ta\nb".toList
    let ed := Editor.ofDocument d [⟨1, 1⟩, ⟨0, 0⟩, ⟨1, 0⟩]
    let e : Engine := {}
    d.LineFeedsOnly ∧
      d.spliced false ((e.state ed).openedAt d) d.lineCount =
        [" \t".toList, " \ta".toList, [], "b".toList] ∧
      (ed.selections.map (State.lineOf d)).eraseDups = [1, 0] ∧
      ∃ e' ed', e.handleKey ed (.char 'O') = (.executed "open-above", e', ed') ∧
        (e.state ed).OpensLines d false (e'.state ed') := by
  intro d ed e
  have hd : d.LineFeedsOnly := by decide
  exact ⟨hd, by decide, by decide, handleKey_openLine e ed d false rfl rfl rfl rfl rfl hd⟩

/-! ### Replacing characters -/

/-- The keys that replace characters do what the command does, and leave the engine as it was. -/
theorem handleKeys_replaces (he : e.InNormalMode ed d) (hpending : e.session.pending = [])
    (hreadonly : ed.readonly = false) (hps : d.Distinct ps)
    (hsel : ed.selections = ps.map .cursor) (hc : ¬ isLineBreak c) :
    ∃ ed', e.handleKeys ed [.char 'r', .char c] = ([.pending, .executed "replace-char"], e, ed') ∧
      (e.state ed).ReplacesChars d ps c (e.state ed') := by
  have howns : Keymap.Owns (.char 'r') (.command "replace-char" .onlyNormal
      (.placeholder (.after [.char 'r'] "char".toList)) .replaceChar) :=
    List.mem_of_getElem? (i := 7) rfl
  let waiting : Engine := e.withSession { e.session with pending := [.char 'r'] }
  have hfirst : e.handleKey ed (.char 'r') = (.pending, waiting, ed) := by
    refine handleKey_waits howns he (by rw [hpending, List.nil_append]) ?_
    have hpartly : (Pattern.placeholder (.after [.char 'r'] "char".toList)).parse [.char 'r'] =
        .partly := Placeholder.parse_after_singleton (by decide)
    simp only [Action.answer, hpartly]
    rfl
  have hwaiting : waiting.InNormalMode ed d := ⟨he.keymap, he.mode, he.document⟩
  have hne : c ≠ '\n' := by
    rintro rfl
    exact hc (by decide)
  have hparse := Placeholder.parse_after_chars "char".toList 'r' c
  rw [if_pos hne] at hparse
  have htyped : waiting.session.pending ++ [.char c] = [.char 'r', .char c] := rfl
  obtain ⟨s', ⟨hdoc', hsession, hclipboard, hsels⟩, hsecond⟩ :=
    handleKey_command howns hwaiting htyped hparse
      (Step.ends_replaceChar (s := waiting.state ed) he.document hreadonly hps hsel hc)
  have hengine : waiting.withSession { s'.session with pending := [] } = e := by
    rw [hsession]
    exact withSession_of_pending hpending
  rw [hengine] at hsecond
  refine ⟨s'.editor, ?_, hdoc', rfl, hclipboard, hsels⟩
  simp only [handleKeys, hfirst, hsecond]

/-- **Replacing characters keeps all cursors or only those on a character.** At different cursors,
the keys replace exactly the characters under them. Nothing else in the document and nothing in the
engine or on the clipboard changes (`State.ReplacesChars`). The selections stay if and only if all
cursors stand on a character or none does. -/
theorem handleKeys_replaceChar (e : Engine) (ed : Editor) (d : Document) (ps : List Position)
    (c : Char) (hkeymap : e.keymap = .builtin) (hmode : e.session.mode = .normal)
    (hpending : e.session.pending = []) (hdoc : ed.document = some d)
    (hreadonly : ed.readonly = false) (hps : d.Distinct ps)
    (hsel : ed.selections = ps.map .cursor) (hc : ¬ isLineBreak c) :
    ∃ ed', e.handleKeys ed [.char 'r', .char c] = ([.pending, .executed "replace-char"], e, ed') ∧
      (e.state ed).ReplacesChars d ps c (e.state ed') ∧
      (ed'.selections = ed.selections ↔
        (∀ p ∈ ps, p.col < d.lineLen p.line) ∨ ∀ p ∈ ps, p.col = d.lineLen p.line) := by
  obtain ⟨ed', hkeys, hreplaces⟩ :=
    handleKeys_replaces ⟨hkeymap, hmode, hdoc⟩ hpending hreadonly hps hsel hc
  refine ⟨ed', hkeys, hreplaces, ?_⟩
  have hsels : ed'.selections = if d.onChars ps = [] then ed.selections
      else (d.onChars ps).map .cursor := hreplaces.2.2.2
  have hall : d.onChars ps = ps ↔ ∀ p ∈ ps, p.col < d.lineLen p.line := by
    simp [Document.onChars]
  have hnone : d.onChars ps = [] ↔ ∀ p ∈ ps, p.col = d.lineLen p.line := by
    simp only [Document.onChars, List.filter_eq_nil_iff, decide_eq_true_eq]
    refine forall₂_congr fun p hp => ?_
    have := (hps.inBounds p hp).2
    omega
  rw [← hall, ← hnone, hsels]
  split
  · rename_i hnil
    exact iff_of_true rfl (.inr hnil)
  · rename_i hsome
    rw [hsel, or_iff_left hsome]
    exact List.map_inj_right fun p q heq => congrArg Selection.active heq

/-- Two characters of a line, the second one first. -/
theorem handleKeys_replaceChar_kept :
    let d := Document.ofText "ab\n".toList
    let ps : List Position := [⟨0, 1⟩, ⟨0, 0⟩]
    let ed := Editor.ofDocument d ps
    let e : Engine := {}
    d.Distinct ps ∧ d.overwritten ps 'x' = ["xx".toList, []] ∧
      ∃ ed', e.handleKeys ed [.char 'r', .char 'x'] =
          ([.pending, .executed "replace-char"], e, ed') ∧
        (e.state ed).ReplacesChars d ps 'x' (e.state ed') ∧
        (ed'.selections = ed.selections ↔
          (∀ p ∈ ps, p.col < d.lineLen p.line) ∨ ∀ p ∈ ps, p.col = d.lineLen p.line) := by
  intro d ps ed e
  have hps : d.Distinct ps := ⟨by decide, by decide, by decide⟩
  exact ⟨hps, by decide,
    handleKeys_replaceChar e ed d ps 'x' rfl rfl rfl rfl rfl hps rfl (by decide)⟩

/-- Of a cursor on a character and one on an empty line only the first is left. -/
theorem not_handleKeys_replaceChar :
    let d := Document.ofText "a\n".toList
    let ps : List Position := [⟨0, 0⟩, ⟨1, 0⟩]
    let ed := Editor.ofDocument d ps
    let e : Engine := {}
    d.Distinct ps ∧ ed.selections = [.cursor ⟨0, 0⟩, .cursor ⟨1, 0⟩] ∧
      ∃ ed', e.handleKeys ed [.char 'r', .char 'x'] =
          ([.pending, .executed "replace-char"], e, ed') ∧
        ed'.selections = [.cursor ⟨0, 0⟩] := by
  intro d ps ed e
  have hps : d.Distinct ps := ⟨by decide, by decide, by decide⟩
  have he : e.InNormalMode ed d := ⟨rfl, rfl, rfl⟩
  have hx : ¬ isLineBreak 'x' := by decide
  obtain ⟨ed', hkeys, hreplaces⟩ := handleKeys_replaces he rfl rfl hps rfl hx
  exact ⟨hps, rfl, ed', hkeys, hreplaces.2.2.2⟩

end ModalEdit.Engine
