import Mathlib.Data.Nat.Basic
import Mathlib.Order.RelClasses
import ModalEdit.Placement
import ModalEdit.Proofs.Walk.Bounds
import ModalEdit.Proofs.Walk.Nearest

/-!
# Searching back

A search that ends on the character found leads to the nearest one on its side of the cursor
(`Document.isNearest_find?`). Once the cursor stands on such a character, the search on the other
side leads back to where it came from (`Document.find?_reversed`).
-/

namespace ModalEdit

/-- A column lies on the side searched from another. -/
def FindDirection.Leads : FindDirection → Nat → Nat → Prop
  | .after => (· < ·)
  | .before => (· > ·)

namespace FindDirection

instance (dir : FindDirection) : IsStrictTotalOrder Nat dir.Leads := by
  cases dir with
  | after => exact inferInstanceAs (IsStrictTotalOrder Nat (· < ·))
  | before => exact inferInstanceAs (IsStrictTotalOrder Nat (· > ·))

theorem leads_reversed (dir : FindDirection) :
    dir.reversed.Leads = fun i j => dir.Leads j i := by
  cases dir <;> rfl

theorem mem_columns (dir : FindDirection) {i col len : Nat} (h : col ≤ len) :
    i ∈ dir.columns col len 1 ↔ dir.Leads col i ∧ i < len := by
  cases dir with
  | after =>
    simp only [columns, List.mem_range'_1, Leads]
    omega
  | before =>
    simp only [columns, List.mem_reverse, List.mem_range, Leads]
    omega

theorem pairwise_columns (dir : FindDirection) (col len skip : Nat) :
    (dir.columns col len skip).Pairwise dir.Leads := by
  cases dir with
  | after => exact List.pairwise_lt_range'
  | before => exact List.pairwise_reverse.2 List.pairwise_lt_range

end FindDirection

namespace Document

variable {d : Document} {f : Find} {again again' : Bool} {p q : Position}

/-- **Where a search leads**: to the nearest character that is looked for. -/
theorem isNearest_find?_further (hf : f.distance = .further) (again : Bool) (p : Position) :
    ∃ o, IsNearest f.direction.Leads
        (fun i => (d.content (d.clamp p).line)[i]? = some f.target) (d.clamp p).col o ∧
      d.find? f again p = o.map (⟨(d.clamp p).line, ·⟩) := by
  have hskip : ¬ (f.distance = .nearer ∧ again = true) := by
    rw [hf]
    exact fun h => nomatch h.1
  have hlanding : f.landing = id := by
    funext i
    rw [Find.landing, hf]
    rfl
  refine ⟨_, ?_, by rw [find?, if_neg hskip, hlanding]; rfl⟩
  refine isNearest_find? (f.direction.pairwise_columns _ _ 1) fun i => ?_
  have hmem := f.direction.mem_columns (i := i) (d.inBounds_clamp p).2
  rw [beq_iff_eq, and_comm, and_congr_right_iff]
  exact fun hi => hmem.trans (and_iff_left (List.getElem?_eq_some_iff.1 hi).1)

/-- The cursor stands on the character looked for. -/
structure IsOn (d : Document) (f : Find) (p : Position) : Prop where
  line_lt : p.line < d.lineCount
  char : d.charAt? p = some f.target

theorem IsOn.col_lt (h : d.IsOn f p) : p.col < d.lineLen p.line :=
  (List.getElem?_eq_some_iff.1 h.char).1

theorem IsOn.inBounds (h : d.IsOn f p) : d.InBounds p := ⟨h.line_lt, Nat.le_of_lt h.col_lt⟩

/-- A resting cursor may stay there. -/
theorem IsOn.placement_clamp (h : d.IsOn f p) (pl : Placement) : pl.clamp d p = p := by
  have hcol : p.col ≤ pl.maxCol (d.lineLen p.line) := by
    have := h.col_lt
    cases pl <;> simp only [Placement.maxCol] <;> omega
  simp only [Placement.clamp, d.clamp_of_inBounds h.inBounds, Nat.min_eq_left hcol]

theorem isOn_of_find? (hf : f.distance = .further) (h : d.find? f again p = some q) :
    d.IsOn f q := by
  obtain ⟨o, hnearest, hfind⟩ := d.isNearest_find?_further hf again p
  obtain ⟨i, rfl, rfl⟩ := Option.map_eq_some_iff.1 (hfind.symm.trans h)
  exact ⟨d.clamp_line_lt p, hnearest.1⟩

/-- **The search on the other side leads back.** -/
theorem find?_reversed (hf : f.distance = .further) (hp : d.IsOn f p)
    (h : d.find? f again p = some q) : d.find? f.reversed again' q = some p := by
  have hq := isOn_of_find? hf h
  obtain ⟨o, hnearest, hfind⟩ := d.isNearest_find?_further hf again p
  obtain ⟨o', hback, hfind'⟩ := d.isNearest_find?_further (f := f.reversed) hf again' q
  rw [d.clamp_of_inBounds hp.inBounds] at hnearest hfind
  rw [d.clamp_of_inBounds hq.inBounds] at hback hfind'
  obtain ⟨i, rfl, rfl⟩ := Option.map_eq_some_iff.1 (hfind.symm.trans h)
  have hreversed := hnearest.reversed hp.char
  rw [← FindDirection.leads_reversed] at hreversed
  rw [hfind', hback.unique hreversed]
  rfl

end Document

end ModalEdit
