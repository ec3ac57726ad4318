import ModalEdit.Proofs.Engine.VisualOperator
import ModalEdit.Proofs.Operator.Orderly

/-!
# Shorthands

A shorthand is one key that stands for an operator and its object (`Keymap.shorthands`). Its object
is found wherever the cursors are, and its ranges take no line break unless they are only yanked, so
the operator never fails (`TextObject.exists_ranges_of_shorthand`). The keys of the operator and the
object lead to the same engine and editor, although the first of the two waits
(`Engine.handleKeys_shorthand`).
-/

namespace ModalEdit

variable {d : Document} {u : Purpose} {kind : OperatorKind} {name : String} {c object : Char}

/-! ### Objects that are found everywhere -/

/-- A walk that stays in its line and leaves out the character at the far end stands for a piece of
characters. -/
theorem Walk.isPiece_span {w : Walk} {s : Surroundings} {key : Option Key} {p : Position}
    {a : Arrival} (hw : w.isLinewise = false) (hchanges : w.changesLine = false)
    (ha : w.take? d s key p = some a) (hinclusive : a.inclusive = false) :
    d.IsPiece (w.span d u p a) := by
  have hline : (d.clamp a.target).line = (d.clamp p).line := by
    have htarget := line_of_take? hw hchanges ha hinclusive
    rw [Document.line_clamp (htarget ▸ (d.inBounds_clamp p).line_le), htarget]
  have hspan : w.span d u p a = .between (d.clamp p) (d.clamp a.target) := by
    have hcross : ¬ (Range.between (d.clamp p) (d.clamp a.target)).start.line <
        (Range.between (d.clamp p) (d.clamp a.target)).stop.line := by
      unfold Range.between
      split <;> simp [hline]
    rw [span_eq_walkedSpan hw hchanges, Document.walkedSpan]
    simp only [hinclusive, hcross, and_false, Bool.false_eq_true, ↓reduceIte]
  rw [hspan]
  exact Document.isPiece_between (d.inBounds_clamp p) (d.inBounds_clamp a.target)

namespace TextObject

/-- Such a walk finds a piece of characters at every position if it leads somewhere from there. -/
theorem exists_pieces_walked (name : String) (c : Char) {w : Walk} (hw : w.isLinewise = false)
    (hchanges : w.changesLine = false)
    (htake : ∀ p, ∃ target, w.take? d u.surroundings none p = some { target }) :
    ∃ range : Position → Range, ∀ p,
      (walked (.onChar name c w)).compute d u p [.char c] = .some { range := range p } [] ∧
        d.IsPiece (range p) := by
  choose target htarget using htake
  refine ⟨fun p => w.span d u p { target := target p }, fun p => ⟨?_, ?_⟩⟩
  · simp only [compute, Motion.onChar, Pattern.parse_ofChar, Found.ofMatch, Option.map_none,
      htarget, Option.map_some]
  · exact Walk.isPiece_span hw hchanges (htarget p) rfl

/-- The line of the cursor is found at every position. -/
theorem exists_lines_wholeLine (kind : OperatorKind) (d : Document) (u : Purpose) :
    ∃ range : Position → Range, ∀ p,
      (wholeLine kind).compute d u p [kind.key] = .some { range := range p } [] ∧
        d.IsSpan (kind != .change) (range p) := by
  refine ⟨fun p => d.linesSpan (d.clamp p).line (d.clamp p).line (kind != .change), fun p =>
    ⟨?_, Document.isSpan_linesSpan _ _ _⟩⟩
  simp only [compute, wholeLine, Pattern.parse, Pattern.parseLiteral, ↓reduceIte, Found.ofMatch]

end TextObject

/-! ### The table -/

namespace Keymap

/-- What each shorthand is reported as, its key, its operator and the key of its object. -/
def shorthands : List (String × Char × OperatorKind × Char) :=
  [("delete-char", 'x', .delete, 'l'), ("delete-char-before", 'X', .delete, 'h'),
    ("delete-to-line-end", 'D', .delete, '$'), ("change-to-line-end", 'C', .change, '$'),
    ("substitute-char", 's', .change, 'l'), ("substitute-line", 'S', .change, 'c'),
    ("yank-line", 'Y', .yank, 'y')]

/-- They are the ones among the built-in actions. -/
theorem owns_shorthand (h : (name, c, kind, object) ∈ shorthands) :
    Owns (.char c) (shorthand name c kind object) := by
  have htable : shorthands.map (fun x => (Key.char x.2.1, shorthand x.1 x.2.1 x.2.2.1 x.2.2.2)) =
      ((normalKeys.zip (beforeMotions.forMode .normal)).drop 13).take 7 := rfl
  have hmem := List.mem_map_of_mem
    (f := fun x => (Key.char x.2.1, shorthand x.1 x.2.1 x.2.2.1 x.2.2.2)) h
  rw [htable] at hmem
  exact List.mem_of_mem_drop (List.mem_of_mem_take hmem)

end Keymap

/-- **The object of a shorthand is found wherever the cursor is**, and no range that is removed
takes a line break. -/
theorem TextObject.exists_ranges_of_shorthand (h : (name, c, kind, object) ∈ Keymap.shorthands)
    (d : Document) (u : Purpose) :
    ∃ o ∈ behind kind, ∃ range : Position → Range, ∀ p,
      o.compute d u p [.char object] = .some { range := range p } [] ∧
        (kind = .yank ∨ d.IsSpan false (range p)) := by
  have hwalked {name : String} {w : Walk} (hm : Motion.onChar name object w ∈ Motion.defaults)
      (hw : w.isLinewise = false) (hchanges : w.changesLine = false)
      (htake : ∀ p, ∃ target, w.take? d u.surroundings none p = some { target }) :
      ∃ o ∈ behind kind, ∃ range : Position → Range, ∀ p,
        o.compute d u p [.char object] = .some { range := range p } [] ∧
          (kind = .yank ∨ d.IsSpan false (range p)) := by
    obtain ⟨range, hrange⟩ := exists_pieces_walked name object hw hchanges htake
    exact ⟨_, walked_mem_behind _ hm, range, fun p => ⟨(hrange p).1, .inr (.chars (hrange p).2)⟩⟩
  simp only [Keymap.shorthands, List.mem_cons, List.not_mem_nil, or_false, Prod.mk.injEq] at h
  rcases h with ⟨-, -, rfl, rfl⟩ | ⟨-, -, rfl, rfl⟩ | ⟨-, -, rfl, rfl⟩ | ⟨-, -, rfl, rfl⟩ |
    ⟨-, -, rfl, rfl⟩ | ⟨-, -, rfl, rfl⟩ | ⟨-, -, rfl, rfl⟩
  · exact hwalked (List.mem_of_getElem? (i := 1) rfl) rfl rfl fun p => ⟨_, rfl⟩
  · exact hwalked (List.mem_of_getElem? (i := 0) rfl) rfl rfl fun p => ⟨_, rfl⟩
  · exact hwalked (List.mem_of_getElem? (i := 11) rfl) rfl rfl fun p => ⟨_, rfl⟩
  · exact hwalked (List.mem_of_getElem? (i := 11) rfl) rfl rfl fun p => ⟨_, rfl⟩
  · exact hwalked (List.mem_of_getElem? (i := 1) rfl) rfl rfl fun p => ⟨_, rfl⟩
  · obtain ⟨range, hrange⟩ := exists_lines_wholeLine .change d u
    exact ⟨_, List.mem_cons_self, range, fun p => ⟨(hrange p).1, .inr (hrange p).2⟩⟩
  · obtain ⟨range, hrange⟩ := exists_lines_wholeLine .yank d u
    exact ⟨_, List.mem_cons_self, range, fun p => ⟨(hrange p).1, .inl rfl⟩⟩

/-! ### Key by key -/

namespace Engine

variable {e : Engine} {ed : Editor}

/-- **The key of a shorthand** runs the operator on what the object finds at the cursors. -/
theorem handleKey_shorthand (howns : Keymap.Owns (.char c) (Keymap.shorthand name c kind object))
    (he : e.InNormalMode ed d) (hpending : e.session.pending = []) (hne : ed.selections ≠ [])
    {o : TextObject} (ho : o ∈ TextObject.behind kind) {found : Selection → ObjectRange}
    (hfound : ∀ sel ∈ ed.selections,
      o.compute d ⟨some kind, e.session.lastFind⟩ sel.active [.char object] = .some (found sel) [])
    (hnoFind : ∀ sel ∈ ed.selections, (found sel).find = none)
    {t : State} (happly : kind.apply e.settings.placement d
      (ed.selections.map fun sel => (sel, some (found sel).range)) false (e.state ed) = .ok () t) :
    e.handleKey ed (.char c) =
      (.executed name, e.withSession { t.session with pending := [] }, t.editor) := by
  have htyped : e.session.pending ++ [.char c] = [.char c] := by
    rw [hpending, List.nil_append]
  have hcompose : (kind.compose e.settings d [.char object]).Ends (e.state ed)
      (fun r s' => r = .executed ∧ s' = t) fun _ _ => False := by
    refine OperatorKind.ends_compose_of_found (s := e.state ed) ho hne hfound
      ((Step.ends_of_ok happly).2 ?_)
    have hfind : (e.state ed).selections.findSome? (fun sel => (found sel).find) = none :=
      List.findSome?_eq_none_iff.2 hnoFind
    rw [hfind]
    rfl
  have hanswer : ((Keymap.shorthand name c kind object).answer e.settings [.char c]).Ends
      (e.state ed) (fun r s' => r = .executed ∧ s' = t) fun _ _ => False := by
    simp only [Keymap.shorthand, Action.answer, Pattern.parse_ofChar]
    refine (Step.ends_withDocument_of_some he.document).2 ?_
    rw [Step.ends_bind]
    refine hcompose.mono (fun r s' hr => ?_) fun _ _ h => h
    obtain ⟨rfl, rfl⟩ := hr
    exact ⟨rfl, rfl⟩
  obtain ⟨s', rfl, hkey⟩ := handleKey_runs howns he htyped hanswer
  exact hkey

/-- **A shorthand is its operator and object**: for every text, placement and session of Normal mode
without pending keys, and any number of cursors, but at least one. The key of the shorthand and the
two keys it stands for lead to the same engine and editor. -/
theorem handleKeys_shorthand (e : Engine) (ed : Editor) (d : Document) (name : String) (c : Char)
    (kind : OperatorKind) (object : Char)
    (hmem : (name, c, kind, object) ∈ Keymap.shorthands) (hkeymap : e.keymap = .builtin)
    (hmode : e.session.mode = .normal) (hpending : e.session.pending = [])
    (hdoc : ed.document = some d) (hreadonly : ed.readonly = false) (hne : ed.selections ≠ []) :
    let short := e.handleKeys ed [.char c]
    let long := e.handleKeys ed [kind.key, .char object]
    short.1 = [.executed name] ∧ long.1 = [.pending, .executed ("operator-" ++ kind.name)] ∧
      short.2 = long.2 := by
  intro short long
  have he : e.InNormalMode ed d := ⟨hkeymap, hmode, hdoc⟩
  obtain ⟨o, ho, range, hrange⟩ :=
    TextObject.exists_ranges_of_shorthand hmem d ⟨some kind, e.session.lastFind⟩
  let found (sel : Selection) : ObjectRange := { range := range sel.active }
  have hspans : kind = .yank ∨ ∀ r ∈ (ed.selections.map fun sel =>
      ((sel, some (found sel).range) : Target)).filterMap (·.2), d.IsSpan false r := by
    refine or_iff_not_imp_left.2 fun hkind => ?_
    rw [OperatorKind.filterMap_map_some ed.selections (fun sel => sel) fun sel => (found sel).range]
    exact List.forall_mem_map.2 fun sel _ => (hrange sel.active).2.resolve_left hkind
  obtain ⟨_, t, happly, -⟩ := (kind.ends_apply_of_spans (s := e.state ed) e.settings.placement
    false hdoc hreadonly hspans).exists_ok
  have hfound : ∀ sel ∈ ed.selections,
      o.compute d ⟨some kind, e.session.lastFind⟩ sel.active [.char object] =
        .some (found sel) [] := fun sel _ => (hrange sel.active).1
  have hshort := handleKey_shorthand (Keymap.owns_shorthand hmem) he hpending hne ho hfound
    (fun _ _ => rfl) happly
  have hlong : long = _ := handleKeys_operator_apply he hpending hne ho hfound (fun _ _ => rfl)
    happly
  have hkeys : short = ([.executed name], e.withSession { t.session with pending := [] },
      t.editor) := by
    simp only [short, handleKeys, hshort]
  rw [hkeys, hlong]
  exact ⟨rfl, rfl, rfl⟩

/-- Two cursors, one of them on an empty line, and a search that is remembered. -/
theorem handleKeys_shorthand_emptyLine :
    let d := Document.ofText "ab\n\ncd".toList
    let ed := Editor.ofDocument d [⟨1, 0⟩, ⟨0, 1⟩]
    let e : Engine := { session := { lastFind := some ⟨'a', .further, .after⟩ } }
    ("change-to-line-end", 'C', .change, '$') ∈ Keymap.shorthands ∧ ed.selections ≠ [] ∧
    (e.handleKeys ed [.char 'C']).1 = [.executed "change-to-line-end"] ∧
    (e.handleKeys ed [.char 'c', .char '$']).1 = [.pending, .executed "operator-change"] ∧
    (e.handleKeys ed [.char 'C']).2 = (e.handleKeys ed [.char 'c', .char '$']).2 := by
  intro d ed e
  have hmem : ("change-to-line-end", 'C', .change, '$') ∈ Keymap.shorthands := by decide
  have hne : ed.selections ≠ [] := by decide
  exact ⟨hmem, hne, handleKeys_shorthand e ed d "change-to-line-end" 'C' .change '$' hmem rfl rfl
    rfl rfl rfl hne⟩

end Engine

end ModalEdit
