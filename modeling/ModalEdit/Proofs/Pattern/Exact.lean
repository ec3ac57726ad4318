import ModalEdit.Config.Binding
import ModalEdit.Keymap
import ModalEdit.Proofs.Key.Canonical
import ModalEdit.Proofs.Span.Called

/-!
# Patterns that match exactly what they take

A full match may leave keys behind it. A pattern is exact if the keys that it takes, which are one
or more, match in full by themselves and with the same key captured (`Pattern.Exact`). Fixed keys
are exact, and so are the key of a character and one more.

The patterns of all text objects are exact (`TextObject.exact_behind`), and so are those of all
built-in actions and of the bindings that a configuration can have (`Keymap.exact_withBindings`).
-/

namespace ModalEdit

/-- A full match takes one key or more, and they match in full by themselves, with the same key
captured. -/
def Pattern.Exact (p : Pattern) : Prop :=
  ∀ keys captured rest, p.parse keys = .full captured rest →
    ∃ taken, taken ≠ [] ∧ keys = taken ++ rest ∧ p.parse taken = .full captured []

namespace Pattern

/-- Fixed keys match in full by themselves. -/
theorem parseLiteral_append (ks rest : List Key) :
    parseLiteral ks (ks ++ rest) = .full none rest := by
  induction ks with
  | nil => rfl
  | cons k ks ih => rw [List.cons_append, parseLiteral, if_pos rfl, ih]

theorem exact_literal {ks : List Key} (hne : ks ≠ []) : (literal ks).Exact := by
  intro keys captured rest h
  obtain rfl : keys = ks ++ rest := parseLiteral_eq_full h
  rw [parse, parseLiteral_append] at h
  cases h
  have hself := parseLiteral_append ks []
  rw [List.append_nil] at hself
  exact ⟨ks, hne, rfl, hself⟩

theorem exact_ofChar (c : Char) : (ofChar c).Exact := exact_literal (List.cons_ne_nil _ _)

/-- The key of a character and one more are exact. -/
theorem exact_after {c : Char} (hc : IsPlain c) (var : List Char) :
    (placeholder (.after [.char c] var)).Exact := by
  intro keys captured rest h
  obtain ⟨k, rest', rfl⟩ := Placeholder.exists_of_isFull_parse_after hc (by rw [h]; rfl)
  obtain ⟨rfl, htaken⟩ := Placeholder.parse_after_append hc h
  exact ⟨[.char c, k], List.cons_ne_nil _ _, rfl, htaken⟩

end Pattern

/-! ### Text objects and motions -/

/-- **The keys of a text object are exact.** -/
theorem TextObject.exact_behind {kind : OperatorKind} {o : TextObject} (ho : o ∈ behind kind) :
    o.pattern.Exact := by
  rcases exists_fixedKeys_or_search ho with ⟨ks, hks⟩ | ⟨c, hc⟩
  · rw [pattern_of_fixedKeys? hks]
    refine Pattern.exact_literal fun hnil => ?_
    have hlen := (fixedKeys_spec ho hks).1
    simp [hnil] at hlen
  · obtain ⟨hplain, hpattern⟩ := pattern_of_mem_searches hc
    rw [hpattern]
    exact Pattern.exact_after hplain _

theorem TextObject.exact_structures {o : TextObject} (ho : o ∈ structures) : o.pattern.Exact :=
  @exact_behind .delete o (List.mem_cons_of_mem _ (List.mem_append_left _ ho))

theorem Motion.exact_defaults {m : Motion} (hm : m ∈ defaults) : m.pattern.Exact :=
  TextObject.exact_behind (TextObject.walked_mem_behind .delete hm)

/-! ### Bindings -/

/-- **A binding that can be read has a key.** -/
theorem Binding.keys_ne_nil {index : Nat} {v : Toml.Value} {b : Binding}
    (h : Binding.read index v = .ok b) : b.keys ≠ [] := by
  unfold Binding.read at h
  split at h
  · cases h
  · rename_i t _
    cases hscript : stringField t index "keys" with
    | error e =>
      rw [hscript] at h
      cases h
    | ok script =>
      rw [hscript] at h
      cases hkeys : parseKeys script.toList with
      | error e => simp [hkeys, Except.mapError, bind, Except.bind] at h
      | ok keys =>
        simp only [hkeys, Except.mapError, bind, Except.bind] at h
        split at h
        · cases h
        · split at h
          · cases h
          · cases h
            exact (canonical_of_parseKeys hkeys).2

/-! ### Actions -/

/-- All patterns by which keys call the action are exact. -/
def Action.Exact : Action → Prop
  | command _ _ pattern _ | onSelection _ pattern _ | shorthand _ pattern _ _ => pattern.Exact
  | motion m => m.pattern.Exact
  | bound b => (Pattern.literal b.keys).Exact
  | typing | selectObject | operator _ => True

/-- **All actions are exact** if the bindings of the user have keys. -/
theorem Keymap.exact_withBindings {bs : List Binding} (hbs : ∀ b ∈ bs, b.keys ≠ []) :
    ∀ a ∈ withBindings bs, a.Exact := by
  have hreplace (var : List Char) : (Pattern.placeholder (.after [.char 'r'] var)).Exact :=
    Pattern.exact_after (by decide) var
  have hesc : (Pattern.literal [.esc]).Exact := Pattern.exact_literal (List.cons_ne_nil _ _)
  simp only [withBindings, builtin, edits, visual, operators, onChar, onSelection, shorthand,
    List.forall_mem_append, List.forall_mem_map, List.forall_mem_cons, Action.Exact]
  refine ⟨fun b hb => Pattern.exact_literal (hbs b hb), ⟨⟨?_, ?_⟩, ?_⟩,
    fun m => Motion.exact_defaults⟩
  all_goals simp [hesc, hreplace, Pattern.exact_ofChar]

end ModalEdit
