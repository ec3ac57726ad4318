import Mathlib.Order.Defs.Unbundled
import ModalEdit.Text.Position

/-!
# The nearest place

What is nearest to a place is said for a strict order of places, so that one statement serves both
directions: with `<` it is the least place behind, with `>` the greatest one before (`IsNearest`).

A list whose elements follow each other in the order is searched from its front
(`isNearest_find?`). Where places are listed line by line it is enough to search the rest of a line
and then to take the first place in the lines that follow (`find?_linewise`).
-/

namespace ModalEdit

section

variable {α : Type} (r : α → α → Prop)

/-- The nearest place with `P` of those that follow `a` in the order, or none if there is no such
place. -/
def IsNearest (P : α → Prop) (a : α) : Option α → Prop
  | some b => P b ∧ r a b ∧ ∀ c, P c → r a c → c = b ∨ r b c
  | none => ∀ c, P c → ¬ r a c

variable {r} {P : α → Prop} {a b : α} {l : List α}

/-- There is one nearest place at most. -/
theorem IsNearest.unique [IsStrictTotalOrder α r] {o o' : Option α} (h : IsNearest r P a o)
    (h' : IsNearest r P a o') : o = o' := by
  cases o with
  | none =>
    cases o' with
    | none => rfl
    | some b' => exact absurd h'.2.1 (h b' h'.1)
  | some b =>
    cases o' with
    | none => exact absurd h.2.1 (h' b h.1)
    | some b' =>
      rcases h.2.2 b' h'.1 h'.2.1 with rfl | hb
      · rfl
      rcases h'.2.2 b h.1 h.2.1 with rfl | hb'
      · rfl
      · exact absurd hb' (asymm_of r hb)

/-- The order of the places may be read off another one. -/
theorem IsNearest.map {β : Type} {s : β → β → Prop} {Q : β → Prop} {f : α → β} {o : Option α}
    (h : IsNearest r P a o) (hbehind : ∀ x, P x → r a x → s (f a) (f x) ∧ Q (f x))
    (hmono : ∀ x y, P x → P y → r x y → s (f x) (f y))
    (hfrom : ∀ y, Q y → s (f a) y → ∃ x, P x ∧ r a x ∧ f x = y) :
    IsNearest s Q (f a) (o.map f) := by
  cases o with
  | none =>
    intro y hy hay
    obtain ⟨x, hx, hax, rfl⟩ := hfrom y hy hay
    exact h x hx hax
  | some b =>
    obtain ⟨hb, hab, hleast⟩ := h
    refine ⟨(hbehind b hb hab).2, (hbehind b hb hab).1, fun y hy hay => ?_⟩
    obtain ⟨x, hx, hax, rfl⟩ := hfrom y hy hay
    exact (hleast x hx hax).imp (congrArg f) (hmono b x hb hx)

/-- From the nearest place the way back leads to where it began, if that was such a place too. -/
theorem IsNearest.reversed [IsStrictTotalOrder α r] (h : IsNearest r P a (some b)) (ha : P a) :
    IsNearest (fun x y => r y x) P b (some a) := by
  obtain ⟨-, hab, hleast⟩ := h
  refine ⟨ha, hab, fun c hc hcb => ?_⟩
  rcases trichotomous_of r a c with hac | rfl | hca
  · -- Nothing lies between the two.
    rcases hleast c hc hac with rfl | hbc
    · exact absurd hcb (irrefl_of r _)
    · exact absurd hcb (asymm_of r hbc)
  · exact .inl rfl
  · exact .inr hca

/-- Among elements that follow each other the first of those that count is the nearest. -/
theorem isNearest_find? {keep : α → Bool} (hl : l.Pairwise r)
    (hkeep : ∀ b, b ∈ l ∧ keep b = true ↔ P b ∧ r a b) : IsNearest r P a (l.find? keep) := by
  cases hfind : l.find? keep with
  | none =>
    intro c hc hac
    obtain ⟨hmem, hkept⟩ := (hkeep c).2 ⟨hc, hac⟩
    exact List.find?_eq_none.1 hfind c hmem hkept
  | some b =>
    obtain ⟨hb, before, after, rfl, hbefore⟩ := List.find?_eq_some_iff_append.1 hfind
    obtain ⟨hPb, hab⟩ := (hkeep b).1 ⟨by simp, hb⟩
    refine ⟨hPb, hab, fun c hc hac => ?_⟩
    obtain ⟨hmem, hkept⟩ := (hkeep c).2 ⟨hc, hac⟩
    rcases List.mem_append.1 hmem with hmem | hmem
    · exact absurd hkept (by simpa using hbefore c hmem)
    · rcases List.mem_cons.1 hmem with rfl | hmem
      · exact .inl rfl
      · exact .inr ((List.pairwise_cons.1 (List.pairwise_append.1 hl).2.1).1 c hmem)

end

/-! ### Line by line -/

namespace Position

/-- An order of lines, and in a line of columns. -/
def Linewise (r : Nat → Nat → Prop) (p q : Position) : Prop :=
  r p.line q.line ∨ p.line = q.line ∧ r p.col q.col

instance (r : Nat → Nat → Prop) [DecidableRel r] : DecidableRel (Linewise r) :=
  fun p q => inferInstanceAs (Decidable (r p.line q.line ∨ p.line = q.line ∧ r p.col q.col))

theorem linewise_gt : Linewise (· > ·) = (· > ·) := by
  funext p q
  simp only [Linewise, gt_iff_lt, lt_def, eq_comm]

end Position

/-- The places with the given columns in a line. -/
def atColumns (cols : Nat → List Nat) (i : Nat) : List Position := (cols i).map (⟨i, ·⟩)

variable {r : Nat → Nat → Prop} {cols : Nat → List Nat} {ls : List Nat} {p : Position}
  {P : Position → Prop}

theorem mem_flatMap_atColumns : p ∈ ls.flatMap (atColumns cols) ↔
    p.line ∈ ls ∧ p.col ∈ cols p.line := by
  simp only [List.mem_flatMap, atColumns, List.mem_map]
  constructor
  · rintro ⟨i, hi, c, hc, rfl⟩
    exact ⟨hi, hc⟩
  · exact fun ⟨hi, hc⟩ => ⟨p.line, hi, p.col, hc, rfl⟩

theorem pairwise_flatMap_atColumns (hls : ls.Pairwise r) (hcols : ∀ i ∈ ls, (cols i).Pairwise r) :
    (ls.flatMap (atColumns cols)).Pairwise (Position.Linewise r) := by
  refine List.pairwise_flatMap.2 ⟨fun i hi => List.pairwise_map.2 ?_, hls.imp fun {i j} hij => ?_⟩
  · exact (hcols i hi).imp fun h => .inr ⟨rfl, h⟩
  · simp only [atColumns, List.mem_map]
    rintro _ ⟨c, -, rfl⟩ _ ⟨c', -, rfl⟩
    exact .inl hij

/-- **The first place behind `p`**, of those in its line and in the lines that follow, is the first
one behind its column, or else the first one in these lines. -/
theorem find?_linewise [DecidableRel r] [Std.Irrefl r] (hls : ∀ i ∈ ls, r p.line i) :
    ((p.line :: ls).flatMap (atColumns cols)).find? (fun q => decide (p.Linewise r q)) =
      (((cols p.line).find? fun c => decide (r p.col c)).map (⟨p.line, ·⟩)).or
        (ls.findSome? fun i => (cols i).head?.map (⟨i, ·⟩)) := by
  have hcol : (fun q => decide (p.Linewise r q)) ∘ (⟨p.line, ·⟩) =
      fun c => decide (r p.col c) := by
    funext c
    simp [Position.Linewise, Std.Irrefl.irrefl]
  have hline : (atColumns cols p.line).find? (fun q => decide (p.Linewise r q)) =
      ((cols p.line).find? fun c => decide (r p.col c)).map (⟨p.line, ·⟩) := by
    rw [atColumns, List.find?_map, hcol]
  have hrest : (ls.flatMap (atColumns cols)).find? (fun q => decide (p.Linewise r q)) =
      ls.findSome? fun i => (cols i).head?.map (⟨i, ·⟩) := by
    -- In the lines that follow every place is behind `p`.
    rw [← List.head?_filter, List.filter_eq_self.2 fun q hq =>
      decide_eq_true (.inl (hls q.line (mem_flatMap_atColumns.1 hq).1)), List.head?_flatMap]
    simp only [atColumns, List.head?_map]
  rw [List.flatMap_cons, List.find?_append, hline, hrest]

/-- **The nearest place**, where the columns of the places behind `p` are listed line by line. -/
theorem isNearest_linewise [DecidableRel r] [Std.Irrefl r] (cols : Nat → List Nat)
    (hls : (p.line :: ls).Pairwise r)
    (hcols : ∀ i ∈ p.line :: ls, (cols i).Pairwise r)
    (hP : ∀ q, p.Linewise r q → (q.line ∈ p.line :: ls ∧ q.col ∈ cols q.line ↔ P q)) :
    IsNearest (Position.Linewise r) P p
      ((((cols p.line).find? fun c => decide (r p.col c)).map (⟨p.line, ·⟩)).or
        (ls.findSome? fun i => (cols i).head?.map (⟨i, ·⟩))) := by
  rw [← find?_linewise (List.pairwise_cons.1 hls).1]
  refine isNearest_find? (pairwise_flatMap_atColumns hls hcols) fun q => ?_
  rw [decide_eq_true_iff, and_congr_left_iff, mem_flatMap_atColumns]
  exact hP q

end ModalEdit
