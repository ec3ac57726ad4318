import ModalEdit.Proofs.Key.RoundTrip

/-!
# What the expressions of a placeholder match

The expression for the full match is a fixed text and behind it the expression for one key. The
fixed text matches in at most one way (`Expr.run_literal_append`, `Expr.run_literal_eq_nil`). In
front of a canonical key the expression for one key prefers to take the whole key
(`Expr.capture?_render`), but it passes over a line feed (`Expr.capture?_lineFeed`) and stops short
in the key of the closing bracket with modifiers (`Expr.capture?_heldBracket`).

The expression for the beginnings of a match is a choice of fixed texts between the start and the
end of the text (`Expr.matchesIn_atStart`, `Expr.mem_run_oneOf`, `Expr.run_literal_atEnd_ne_nil`).
-/

namespace ModalEdit

namespace Expr

variable {n : Nat} {before : Option Char} {t : List Char} {captured : Option (List Char)}

/-! ### Fixed texts -/

/-- A fixed text takes itself. -/
theorem run_literal_append (w : List Char) (n : Nat) (before : Option Char) (t : List Char)
    (captured : Option (List Char)) : ∃ before',
      run (literal w) ⟨n, before, w ++ t, captured⟩ = [⟨n + w.length, before', t, captured⟩] := by
  induction w generalizing n before with
  | nil => exact ⟨before, rfl⟩
  | cons c w ih =>
    obtain ⟨before', hrun⟩ := ih (n + 1) (some c)
    refine ⟨before', ?_⟩
    change (run (char c) ⟨n, before, c :: (w ++ t), captured⟩).flatMap (run (literal w)) = _
    rw [run_char_self, List.flatMap_singleton, hrun, List.length_cons, Nat.add_assoc,
      Nat.add_comm 1]

/-- A fixed text takes nothing else. -/
theorem run_literal_eq_nil {w : List Char} (h : ¬ w <+: t) :
    run (literal w) ⟨n, before, t, captured⟩ = [] := by
  induction w generalizing n before t with
  | nil => exact absurd List.nil_prefix h
  | cons c w ih =>
    cases t with
    | nil => rfl
    | cons x t =>
      change (run (char c) ⟨n, before, x :: t, captured⟩).flatMap (run (literal w)) = []
      by_cases hx : x = c
      · subst hx
        rw [run_char_self, List.flatMap_singleton]
        exact ih fun hfront => h ((List.prefix_cons_inj _).2 hfront)
      · rw [run_char_of_ne hx, List.flatMap_nil]

/-! ### Whole texts -/

theorem run_atEnd (s : Place) : run atEnd s = if s.rest = [] then [s] else [] := by
  rw [atEnd, run]
  cases s.rest <;> rfl

/-- A fixed text in front of the end is the whole text. -/
theorem run_literal_atEnd_ne_nil (n : Nat) (before : Option Char)
    (captured : Option (List Char)) {w : List Char} :
    run (.seq (literal w) atEnd) ⟨n, before, t, captured⟩ ≠ [] ↔ t = w := by
  rw [run]
  by_cases hfront : w <+: t
  · obtain ⟨u, rfl⟩ := hfront
    obtain ⟨before', hrun⟩ := run_literal_append w n before u captured
    simp [hrun, run_atEnd]
  · rw [run_literal_eq_nil hfront, List.flatMap_nil]
    simp only [ne_eq, not_true_eq_false, false_iff]
    rintro rfl
    exact hfront (List.prefix_refl _)

/-- A choice ends where one of the expressions does. -/
theorem mem_run_oneOf {es : List Expr} {s s' : Place} :
    s' ∈ run (oneOf es) s ↔ ∃ e ∈ es, s' ∈ run e s := by
  fun_induction oneOf es with
  | case1 =>
    have hnone : run (.one (.any [])) s = [] := by
      rw [run]
      split <;> simp [CharSet.has, CharSet.hasAny]
    simp [hnone]
  | case2 e => simp
  | case3 e es hne ih =>
    rw [run, List.mem_append, ih, List.exists_mem_cons_iff]

/-- An expression for the start of the text is tried nowhere else. -/
theorem matchesIn_atStart (e : Expr) (t : List Char) :
    (seq atStart e).matchesIn t = true ↔ run e ⟨0, none, t, none⟩ ≠ [] := by
  simp only [matchesIn, List.any_eq_true, List.mem_range, Bool.not_eq_true',
    List.isEmpty_eq_false_iff]
  constructor
  · rintro ⟨i, hi, hrun⟩
    cases i with
    | zero => simpa [run, atStart, Edge.holds] using hrun
    | succ i =>
      -- There is a character before this place.
      refine absurd ?_ hrun
      have hlast : (t.take (i + 1)).getLast? ≠ none := by
        simp only [ne_eq, List.getLast?_eq_none_iff, List.take_eq_nil_iff]
        rintro (h | rfl)
        · cases h
        · exact absurd hi (by simp)
      obtain ⟨c, hc⟩ := Option.ne_none_iff_exists'.1 hlast
      simp [run, atStart, Edge.holds, hc]
  · intro hrun
    exact ⟨0, Nat.succ_pos _, by simpa [run, atStart, Edge.holds] using hrun⟩

/-! ### The expression for one key -/

theorem has_inBrackets (c : Char) : inBrackets.has c = true ↔ c ≠ '<' ∧ c ≠ '>' := by
  simp [inBrackets, CharSet.has, CharSet.hasAny, CharSet.has_one]

theorem onceOrMore_closing (fuel : Nat) :
    onceOrMore (run (.one inBrackets)) true fuel ⟨n, before, '>' :: t, captured⟩ = [] := by
  cases fuel with
  | zero => rfl
  | succ fuel => rw [onceOrMore, run_one_cons, if_neg (by decide), List.flatMap_nil]

/-- What is in brackets is taken up to the closing one. -/
theorem onceOrMore_inBrackets {x : List Char} (hne : x ≠ []) (hx : ∀ c ∈ x, c ≠ '<' ∧ c ≠ '>')
    {fuel : Nat} (hfuel : x.length < fuel) :
    (onceOrMore (run (.one inBrackets)) true fuel ⟨n, before, x ++ '>' :: t, captured⟩).flatMap
      (run (char '>')) = [⟨n + x.length + 1, some '>', t, captured⟩] := by
  induction x generalizing n before fuel with
  | nil => exact absurd rfl hne
  | cons c x ih =>
    obtain ⟨fuel, rfl⟩ := Nat.exists_eq_succ_of_ne_zero (Nat.ne_of_gt (Nat.zero_lt_of_lt hfuel))
    obtain ⟨hc, hx⟩ := List.forall_mem_cons.1 hx
    rw [onceOrMore, List.cons_append, run_one_cons, if_pos ((has_inBrackets c).2 hc),
      List.flatMap_singleton, if_neg (by simp), prefer, if_pos rfl, List.flatMap_append,
      List.flatMap_singleton]
    cases x with
    | nil => rw [List.nil_append, onceOrMore_closing, List.flatMap_nil, run_char_self]; rfl
    | cons c' x =>
      have hstop : run (char '>') ⟨n + 1, some c, c' :: x ++ '>' :: t, captured⟩ = [] :=
        run_char_of_ne (hx c' List.mem_cons_self).2 _ _ _ _
      have hlength : n + 1 + (c' :: x).length + 1 = n + (c :: c' :: x).length + 1 := by
        simp only [List.length_cons]
        omega
      rw [ih (List.cons_ne_nil _ _) hx (Nat.lt_of_succ_lt_succ hfuel), hstop, List.append_nil,
        hlength]

/-- **A group without brackets inside is taken as a whole**, if it can be. -/
theorem head?_run_keyExpr_group {x : List Char} (hne : x ≠ [])
    (hx : ∀ c ∈ x, c ≠ '<' ∧ c ≠ '>') :
    (run keyExpr ⟨n, before, '<' :: (x ++ '>' :: t), captured⟩).head? =
      some ⟨n + (x.length + 2), some '>', t, captured⟩ := by
  have hlength : x.length < (x ++ '>' :: t).length + 1 := by
    rw [List.length_append]
    omega
  rw [run_keyExpr, run_char_self, List.flatMap_singleton,
    onceOrMore_inBrackets hne hx hlength, List.singleton_append, List.head?_cons, Nat.add_assoc,
    Nat.add_assoc, Nat.add_comm 1]

/-- A character that opens no group is taken alone, unless it is a line feed. -/
theorem run_keyExpr_char {c : Char} (hc : c ≠ '<') :
    run keyExpr ⟨n, before, c :: t, captured⟩ =
      if c = '\n' then [] else [⟨n + 1, some c, t, captured⟩] := by
  rw [run_keyExpr, run_char_of_ne hc, List.flatMap_nil, List.nil_append, dot, run_one_cons]
  simp [CharSet.has, CharSet.has_one]

/-- The text that the group for one key prefers to take, with the number of characters before its
end. -/
def capture? (n : Nat) (before : Option Char) (t : List Char) : Option (Nat × List Char) :=
  (run (.group 1 keyExpr) ⟨n, before, t, none⟩).head?.bind fun s => s.captured.map (s.done, ·)

theorem capture?_of_head? {s : Place} {x : List Char}
    (h : (run keyExpr ⟨n, before, t, none⟩).head? = some s) (hdone : s.done = n + x.length)
    (hfront : x <+: t) : capture? n before t = some (n + x.length, x) := by
  rw [capture?, run, List.head?_map, h, Option.map_some, Option.bind_some]
  simp only [↓reduceIte, Option.map_some, hdone, Nat.add_sub_cancel_left]
  rw [← List.prefix_iff_eq_take.1 hfront]

theorem capture?_of_nil (h : run keyExpr ⟨n, before, t, none⟩ = []) :
    capture? n before t = none := by
  rw [capture?, run, h]
  rfl

/-- Without a text there is no key. -/
theorem capture?_nil (n : Nat) (before : Option Char) : capture? n before [] = none :=
  capture?_of_nil (by simp [keyExpr, run, char, dot])

/-- A line feed is passed over. -/
theorem capture?_lineFeed (n : Nat) (before : Option Char) (t : List Char) :
    capture? n before ('\n' :: t) = none :=
  capture?_of_nil (by rw [run_keyExpr_char (by decide), if_pos rfl])

/-- Of the key of the closing bracket with modifiers the last bracket is left over. -/
theorem capture?_heldBracket {mods : Mods} (hmods : mods ≠ .none) (n : Nat) (before : Option Char)
    (t : List Char) :
    capture? n before ('<' :: (mods.render ++ '>' :: t)) =
      some (n + (mods.render.length + 2), '<' :: (mods.render ++ ['>'])) := by
  have hfree : ∀ c ∈ mods.render, c ≠ '<' ∧ c ≠ '>' := fun c hc =>
    ⟨fun h => mods.not_mem_render (.inl h) hc, fun h => mods.not_mem_render (.inr h) hc⟩
  have hlength : ('<' :: (mods.render ++ ['>'])).length = mods.render.length + 2 := by simp
  rw [← hlength]
  refine capture?_of_head? (head?_run_keyExpr_group (Mods.render_ne_nil hmods) hfree)
    (by rw [hlength]) ⟨t, by simp⟩

end Expr

/-! ### Keys that can be captured -/

/-- The expression for one key takes the key as a whole. It leaves out a line feed, and in the key
of the closing bracket with modifiers it ends with the first bracket. -/
def Key.IsCapturable : Key → Prop
  | char c => c ≠ '\n'
  | named _ => True
  | chord base _ => base ≠ .char '>'

instance : DecidablePred Key.IsCapturable
  | .char _ => inferInstanceAs (Decidable (_ ≠ _))
  | .named _ => .isTrue trivial
  | .chord .. => inferInstanceAs (Decidable (_ ≠ _))

/-- **A key that can be captured is captured whole.** -/
theorem Expr.capture?_render {k : Key} (hk : k.Canonical) (hcapturable : k.IsCapturable) (n : Nat)
    (before : Option Char) (t : List Char) :
    capture? n before (k.render ++ t) = some (n + k.render.length, k.render) := by
  rcases hk.writing_cases with ⟨c, rfl, hc, hrender⟩ | ⟨hrender, hfree⟩ | ⟨mods, -, rfl, -⟩
  · have hrun : run keyExpr ⟨n, before, c :: t, none⟩ = [⟨n + 1, some c, t, none⟩] := by
      rw [run_keyExpr_char hc.1, if_neg hcapturable]
    rw [hrender]
    exact capture?_of_head? (by rw [List.singleton_append, hrun]; rfl) rfl ⟨t, rfl⟩
  · have hlength : k.render.length = k.body.length + 2 := by simp [hrender]
    have hhead : (run keyExpr ⟨n, before, '<' :: (k.body ++ '>' :: t), none⟩).head? =
        some ⟨n + (k.body.length + 2), some '>', t, none⟩ :=
      head?_run_keyExpr_group hk.body_ne_nil hfree
    refine capture?_of_head? (s := ⟨n + (k.body.length + 2), some '>', t, none⟩) ?_
      (by rw [hlength]) ⟨t, rfl⟩
    rw [hrender]
    simpa using hhead
  · exact absurd rfl hcapturable

end ModalEdit
