import Mathlib.Data.List.Forall2
import ModalEdit.Proofs.Command.Typing
import ModalEdit.Proofs.Engine.Run

/-!
# Typing key by key

In Insert mode every key that types a character is a batch of its own, which moves all cursors. One
such key, and one backspace after it, are told by `Step.type_text` and `Step.type_deleteBefore`.
Since text that is put in piece by piece is the same as the whole text put in at once, a run of such
keys is one batch (`Engine.handleKeys_types`), and as many backspaces undo it, from the last
character to the first (`Engine.handleKeys_erases`).
-/

namespace ModalEdit

/-- The character that a key types, if it types one: the character of the key unless it is a line
break, a line feed or a tab. -/
def Key.typedChar? : Key → Option Char
  | .char c => if isLineBreak c then none else some c
  | .named .enter => some '\n'
  | .named .tab => some '\t'
  | _ => none

theorem Key.typed?_of_typedChar? {k : Key} {c : Char} (h : k.typedChar? = some c) :
    k.typed? = some (.text [c]) ∧ (isLineBreak c → c = '\n') := by
  cases k with
  | char c' =>
    have h : (if isLineBreak c' then none else some c') = some c := h
    by_cases hbreak : isLineBreak c'
    · rw [if_pos hbreak] at h
      cases h
    · rw [if_neg hbreak] at h
      obtain rfl := Option.some.inj h
      exact ⟨rfl, fun hc => absurd hc hbreak⟩
  | named n =>
    cases n with
    | enter =>
      obtain rfl := Option.some.inj h
      exact ⟨rfl, fun _ => rfl⟩
    | tab =>
      have htab : ¬ isLineBreak '\t' := by decide
      obtain rfl := Option.some.inj h
      exact ⟨rfl, fun hc => absurd hc htab⟩
    | _ => cases h
  | chord base mods => cases h

/-- The text `t` has been put in at the positions `ps` of a document, which have come to be `qs`. -/
structure Document.HasTyped (d : Document) (ps : List Position) (t : Text) (after : Document)
    (qs : List Position) : Prop where
  /-- The text is the old one with `t` in it at the offset of each position. -/
  text : after.text = weave (atEach (ps.map d.offsetOf) t) 0 d.text
  /-- One batch that puts `t` in at each position leads there, and its texts end at the new ones. -/
  batch : ∃ plan, d.edit (ps.map (Edit.insert · t)) = .ok (after, plan) ∧
    (List.range ps.length).map plan.endOf? = qs.map fun q => some (after.offsetOf q)
  /-- Each position is right behind its copy of `t`, and behind those at the positions before it. -/
  behind : List.Forall₂ (fun p q => after.InBounds q ∧
    after.offsetOf q = pushed (ps.map d.offsetOf) t.length (d.offsetOf p) ∧
      ∃ start, after.offsetOf q = start + t.length ∧ cut after.text start (start + t.length) = t)
    ps qs

namespace Document.Distinct

variable {d : Document} {ps : List Position}

theorem hasTyped (h : d.Distinct ps) (t : Text) :
    d.HasTyped ps t (d.withCopies ps t) (ps.map (d.pushedTo ps t)) where
  text := rfl
  batch := by
    refine ⟨_, h.edit_inserts t, List.ext_getElem? fun i => ?_⟩
    rw [List.map_map, List.getElem?_map, List.getElem?_map]
    cases hi : ps[i]? with
    | none =>
      have hlen : ps.length ≤ i := List.getElem?_eq_none_iff.1 hi
      rw [List.getElem?_eq_none (by simpa using hlen)]
      rfl
    | some p =>
      obtain ⟨hlt, -⟩ := List.getElem?_eq_some_iff.1 hi
      rw [List.getElem?_range hlt, Option.map_some, Option.map_some, h.endOf?_inserts t hi,
        Function.comp_apply, h.offsetOf_pushedTo t (List.mem_of_getElem? hi)]
  behind := by
    refine List.forall₂_map_right_iff.2 (List.forall₂_same.2 fun p hp => ?_)
    obtain ⟨start, hstart, -, hcut⟩ := h.exists_copy t hp
    have hoffset := h.offsetOf_pushedTo t hp
    exact ⟨inBounds_positionAt _, hoffset, start, hoffset.trans hstart, hcut⟩

end Document.Distinct

namespace Engine

/-- Keys are offered to the built-in actions of Insert mode, and the cursors are at the positions
`ps` of the document `d`. -/
structure InInsertMode (e : Engine) (ed : Editor) (d : Document) (ps : List Position) : Prop where
  /-- The actions are the built-in ones. -/
  keymap : e.keymap = .builtin
  /-- The mode is Insert mode. -/
  mode : e.session.mode = .insert
  /-- No keys are pending. -/
  pending : e.session.pending = []
  /-- The document is open. -/
  document : ed.document = some d
  /-- Edits are not refused. -/
  writable : ed.readonly = false
  /-- The cursors are at the positions. -/
  selections : ed.selections = ps.map .cursor

variable {e : Engine} {ed : Editor} {d after : Document} {ps qs : List Position} {key : Key}
  {t : Typed}

/-- A key that types runs the action that types. -/
theorem offer_typing (settings : Settings) {s s' : State} (htyped : key.typed? = some t)
    (hdoc : s.editor.document = some d) (htype : Step.type d t s = .ok () s') :
    (Keymap.builtin.forMode .insert).offer settings [key] false s =
      .ok (.executed "insert-text") s' := by
  have hforMode : Keymap.builtin.forMode .insert =
      [.command "escape" .all (.literal [.esc]) .escape, .typing] := rfl
  have hescape : (Action.command "escape" .all (.literal [.esc]) .escape).answer settings [key] s =
      .ok .noMatch s := by
    have hne : Key.esc ≠ key := by
      rintro rfl
      cases htyped
    simp only [Action.answer, Pattern.parse, Pattern.parseLiteral, hne, ↓reduceIte]
    rfl
  have htyping : Action.typing.answer settings [key] s = .ok .executed s' := by
    simp only [Action.answer, htyped, Step.withDocument]
    rw [Step.get_bind, hdoc]
    dsimp only
    rw [Step.bind_of_ok htype]
    rfl
  rw [hforMode, Keymap.offer, Step.bind_of_ok hescape]
  dsimp only
  rw [Keymap.offer, Step.bind_of_ok htyping]
  rfl

/-- **One key that types**: the engine stays as it is. -/
theorem handleKey_types (he : e.InInsertMode ed d ps) (htyped : key.typed? = some t)
    (hqs : qs.Nodup)
    (htype : Step.type d t (e.state ed) = .ok () (((e.state ed).edited after).setCursors qs)) :
    ∃ ed', e.handleKey ed key = (.executed "insert-text", e, ed') ∧
      e.InInsertMode ed' after qs := by
  let s' := ((e.state ed).edited after).setCursors qs
  have hoffer : (Keymap.builtin.forMode .insert).offer e.settings [key] false ⟨ed, e.session⟩ =
      .ok (.executed "insert-text") s' := offer_typing e.settings htyped he.document htype
  have hsession : e.withSession { e.session with pending := [] } = e := by
    rw [← he.pending]
    rfl
  have hnone : ed.document.isNone = false := by
    rw [he.document]
    rfl
  have hsels : s'.selections = qs.map .cursor := by
    rw [State.selections_setCursors, eraseDups_eq_self hqs]
  refine ⟨s'.editor, ?_, he.keymap, he.mode, he.pending, rfl, he.writable, hsels⟩
  simp only [handleKey, hnone, Bool.false_eq_true, ↓reduceIte, he.keymap, he.mode, he.pending,
    List.nil_append, hoffer]
  exact congrArg (fun e' => (KeyOutcome.executed "insert-text", e', s'.editor)) hsession

/-! ### Runs of keys -/

/-- **A run of keys that type characters** puts all of them in at every cursor. -/
theorem handleKeys_types {keys : List Key} {t : Text} (h : d.Distinct ps)
    (he : e.InInsertMode ed d ps) (hkeys : keys.map Key.typedChar? = t.map some) :
    ∃ ed', e.handleKeys ed keys =
        (List.replicate keys.length (.executed "insert-text"), e, ed') ∧
      e.InInsertMode ed' (d.withCopies ps t) (ps.map (d.pushedTo ps t)) := by
  induction keys generalizing ed d ps t with
  | nil =>
    obtain rfl : t = [] := by simpa using hkeys.symm
    rw [Document.withCopies_nil, h.map_pushedTo_nil]
    exact ⟨ed, rfl, he⟩
  | cons key keys ih =>
    match t, hkeys with
    | c :: t, hkeys =>
      obtain ⟨hkey, hkeys⟩ := List.cons.inj hkeys
      obtain ⟨htyped, hc⟩ := Key.typed?_of_typedChar? hkey
      obtain ⟨ed₁, hfirst, he₁⟩ := handleKey_types he htyped (h.typed hc).nodup
        (Step.type_text h [c] he.document he.writable he.selections)
      obtain ⟨ed', hrest, he'⟩ := ih (h.typed hc) he₁ hkeys
      rw [h.withCopies_withCopies [c] t, h.map_pushedTo_pushedTo [c] t] at he'
      refine ⟨ed', ?_, he'⟩
      simp only [handleKeys, hfirst, hrest]
      rfl

/-- **As many backspaces** take them all out again, the last one first. -/
theorem handleKeys_erases {t : Text} (h : d.Distinct ps) (ht : ∀ c ∈ t, isLineBreak c → c = '\n')
    (he : e.InInsertMode ed (d.withCopies ps t) (ps.map (d.pushedTo ps t))) :
    ∃ ed', e.handleKeys ed (List.replicate t.length (.named .backspace)) =
        (List.replicate t.length (.executed "insert-text"), e, ed') ∧
      e.InInsertMode ed' d ps := by
  induction t using List.reverseRecOn generalizing ed with
  | nil =>
    rw [Document.withCopies_nil, h.map_pushedTo_nil] at he
    exact ⟨ed, rfl, he⟩
  | append_singleton t c ih =>
    have ht' : ∀ b ∈ t, isLineBreak b → b = '\n' := fun b hb =>
      ht b (List.mem_append_left _ hb)
    have hc : isLineBreak c → c = '\n' := ht c (by simp)
    -- the last character has been put in behind the others
    have h' := h.withCopies ht'
    rw [← h.withCopies_withCopies t [c], ← h.map_pushedTo_pushedTo t [c]] at he
    have hkey : (Key.named .backspace).typed? = some .deleteBefore := rfl
    obtain ⟨ed₁, hfirst, he₁⟩ := handleKey_types he hkey h'.nodup
      (Step.type_deleteBefore h' hc he.document he.writable he.selections)
    obtain ⟨ed', hrest, he'⟩ := ih ht' he₁
    refine ⟨ed', ?_, he'⟩
    rw [List.length_append, List.length_singleton, List.replicate_succ, List.replicate_succ]
    simp only [handleKeys, hfirst, hrest]

/-- **Typing key by key is one batch**, and backspace takes it back. In Insert mode let there be
cursors at different positions, in any order, of a document whose only breaks are line feeds. Typing
characters, line feeds and tabs key by key leads to the text and the cursors of one batch that puts
all of them in at every cursor; as many backspaces lead back to the document and the cursors. -/
theorem handleKeys_typed (e : Engine) (ed : Editor) (d : Document) (ps : List Position)
    (keys : List Key) (t : Text) (hkeymap : e.keymap = .builtin) (hmode : e.session.mode = .insert)
    (hpending : e.session.pending = []) (hdoc : ed.document = some d)
    (hreadonly : ed.readonly = false) (hsels : ed.selections = ps.map .cursor)
    (hps : d.Distinct ps) (hkeys : keys.map Key.typedChar? = t.map some) :
    let executed := List.replicate keys.length (KeyOutcome.executed "insert-text")
    ∃ after qs ed₁ ed₂, d.HasTyped ps t after qs ∧
      e.handleKeys ed keys = (executed, e, ed₁) ∧
      ed₁.document = some after ∧ ed₁.selections = qs.map .cursor ∧
      e.handleKeys ed₁ (List.replicate keys.length (.named .backspace)) = (executed, e, ed₂) ∧
      ed₂.document = some d ∧ ed₂.selections = ed.selections := by
  intro executed
  have hlength : keys.length = t.length := by simpa using congrArg List.length hkeys
  have ht : ∀ c ∈ t, isLineBreak c → c = '\n' := by
    intro c hc
    have hmem : some c ∈ keys.map Key.typedChar? := hkeys ▸ List.mem_map_of_mem hc
    obtain ⟨k, -, hk⟩ := List.mem_map.1 hmem
    exact (Key.typed?_of_typedChar? hk).2
  obtain ⟨ed₁, htyped, he₁⟩ :=
    handleKeys_types hps ⟨hkeymap, hmode, hpending, hdoc, hreadonly, hsels⟩ hkeys
  obtain ⟨ed₂, herased, he₂⟩ := handleKeys_erases hps ht he₁
  rw [← hlength] at herased
  exact ⟨_, _, ed₁, ed₂, hps.hasTyped t, htyped, he₁.document, he₁.selections, herased,
    he₂.document, he₂.selections.trans hsels.symm⟩

/-- Three cursors, two of them on one line and in no order: a character, a line feed and a tab are
typed and taken back. -/
theorem handleKeys_typed_lines :
    let d := Document.ofText "ab\ncd".toList
    let ps : List Position := [⟨1, 1⟩, ⟨0, 2⟩, ⟨0, 0⟩]
    let ed := Editor.ofDocument d ps
    let e : Engine := { session := { mode := .insert } }
    let keys : List Key := [.char 'x', .named .enter, .named .tab]
    d.Distinct ps ∧ keys.map Key.typedChar? = "x\n\t".toList.map some ∧
      ∃ ed₁ ed₂, (e.handleKeys ed keys).2.2 = ed₁ ∧ ed₁.text = "x\n\tabx\n\t\ncx\n\td".toList ∧
        (e.handleKeys ed₁ (List.replicate 3 (.named .backspace))).2.2 = ed₂ ∧
        ed₂.text = "ab\ncd".toList ∧ ed₂.selections = ps.map .cursor := by
  intro d ps ed e keys
  have hps : d.Distinct ps := ⟨by decide, by decide, by decide⟩
  have hkeys : keys.map Key.typedChar? = "x\n\t".toList.map some := by decide
  obtain ⟨after, qs, ed₁, ed₂, htyped, hkeys₁, hdoc₁, -, hkeys₂, hdoc₂, hsels₂⟩ :=
    handleKeys_typed e ed d ps keys "x\n\t".toList rfl rfl rfl rfl rfl rfl hps hkeys
  refine ⟨hps, hkeys, ed₁, ed₂, by rw [hkeys₁], ?_, congrArg (·.2.2) hkeys₂, ?_, hsels₂⟩
  · rw [Editor.text, hdoc₁, Option.map_some, Option.getD_some, htyped.text]
    decide +kernel
  · rw [Editor.text, hdoc₂]
    rfl

end Engine

end ModalEdit
