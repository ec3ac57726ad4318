import ModalEdit.Proofs.Text.Coordinates
import ModalEdit.Text.Run

/-!
# Where runs lie

The runs of a line follow each other without a gap, from its first column to its end (`Tile`,
`tile_runsFrom`). So a run holds at least one character and ends within its line, the next one does
not begin before that, and every column belongs to a run.
-/

namespace ModalEdit

/-- The runs hold at least one character each and follow each other without a gap, from column `a`
to column `b`. -/
def Tile : List Run → Nat → Nat → Prop
  | [], a, b => a = b
  | r :: rs, a, b => r.start = a ∧ r.start < r.stop ∧ Tile rs r.stop b

namespace Tile

variable {rs : List Run} {r : Run} {a b i : Nat}

theorem le (h : Tile rs a b) : a ≤ b := by
  induction rs generalizing a with
  | nil => exact Nat.le_of_eq h
  | cons r rs ih =>
    obtain ⟨rfl, hlt, hrest⟩ := h
    exact Nat.le_trans (Nat.le_of_lt hlt) (ih hrest)

theorem lt_of_cons (h : Tile (r :: rs) a b) : a < b := by
  obtain ⟨rfl, hlt, hrest⟩ := h
  exact Nat.lt_of_lt_of_le hlt hrest.le

theorem bounds (h : Tile rs a b) (hr : r ∈ rs) : a ≤ r.start ∧ r.start < r.stop ∧ r.stop ≤ b := by
  induction rs generalizing a with
  | nil => cases hr
  | cons q rs ih =>
    obtain ⟨rfl, hlt, hrest⟩ := h
    rcases List.mem_cons.1 hr with rfl | hr
    · exact ⟨Nat.le_refl _, hlt, hrest.le⟩
    · have := ih hrest hr
      omega

/-- Of two runs the first ends before the second begins. -/
theorem pairwise (h : Tile rs a b) : rs.Pairwise fun r q => r.stop ≤ q.start := by
  induction rs generalizing a with
  | nil => exact .nil
  | cons r rs ih =>
    obtain ⟨-, -, hrest⟩ := h
    exact List.pairwise_cons.2 ⟨fun q hq => (hrest.bounds hq).1, ih hrest⟩

/-- Every column belongs to a run. -/
theorem exists_mem (h : Tile rs a b) (ha : a ≤ i) (hb : i < b) :
    ∃ r ∈ rs, r.start ≤ i ∧ i < r.stop := by
  induction rs generalizing a with
  | nil => exact absurd h (Nat.ne_of_lt (Nat.lt_of_le_of_lt ha hb))
  | cons r rs ih =>
    obtain ⟨rfl, -, hrest⟩ := h
    rcases Nat.lt_or_ge i r.stop with hi | hi
    · exact ⟨r, List.mem_cons_self, ha, hi⟩
    · obtain ⟨q, hq, hmem⟩ := ih hrest hi
      exact ⟨q, List.mem_cons_of_mem r hq, hmem⟩

end Tile

/-- **The runs of a line have no gaps.** -/
theorem tile_runsFrom (kind : WordKind) (i : Nat) (line : Text) :
    Tile (runsFrom kind i line) i (i + line.length) := by
  induction line generalizing i with
  | nil => rfl
  | cons c cs ih =>
    have hrest := ih (i + 1)
    rw [Nat.add_right_comm] at hrest
    rw [runsFrom, List.length_cons, ← Nat.add_assoc]
    unfold consRun
    split
    · rename_i hnil
      rw [hnil] at hrest
      exact ⟨rfl, Nat.lt_succ_self i, hrest⟩
    · rename_i r rs hcons
      rw [hcons] at hrest
      split
      · -- The first run begins one column earlier, but ends where it ended.
        obtain ⟨hstart, hlt, hrest⟩ := hrest
        exact ⟨rfl, by dsimp only; omega, hrest⟩
      · exact ⟨rfl, Nat.lt_succ_self i, hrest⟩

theorem tile_runs (kind : WordKind) (line : Text) : Tile (runs kind line) 0 line.length := by
  rw [← Nat.zero_add line.length]
  exact tile_runsFrom kind 0 line

theorem runsFrom_bounds {kind : WordKind} {i : Nat} {line : Text} {r : Run}
    (h : r ∈ runsFrom kind i line) : i ≤ r.start ∧ r.start < r.stop ∧ r.stop ≤ i + line.length :=
  (tile_runsFrom kind i line).bounds h

/-- Of two runs the first ends before the second begins. -/
theorem pairwise_runsFrom (kind : WordKind) (i : Nat) (line : Text) :
    (runsFrom kind i line).Pairwise fun r q => r.stop ≤ q.start :=
  (tile_runsFrom kind i line).pairwise

theorem runs_stop_le {kind : WordKind} {line : Text} {i j : Nat} {r q : Run}
    (hr : (runs kind line)[i]? = some r) (hq : (runs kind line)[j]? = some q) (h : i < j) :
    r.stop ≤ q.start := by
  obtain ⟨hi, rfl⟩ := List.getElem?_eq_some_iff.1 hr
  obtain ⟨hj, rfl⟩ := List.getElem?_eq_some_iff.1 hq
  exact List.pairwise_iff_getElem.1 (pairwise_runsFrom kind 0 line) i j hi hj h

theorem runs_bounds {kind : WordKind} {line : Text} {r : Run} (h : r ∈ runs kind line) :
    r.start < r.stop ∧ r.stop ≤ line.length := by
  have := runsFrom_bounds h
  omega

namespace Document

variable {d : Document}

theorem words_bounds {kind : WordKind} {i : Nat} {r : Run} (h : r ∈ d.words kind i) :
    r.start < r.stop ∧ r.stop ≤ d.lineLen i :=
  runs_bounds ((List.mem_filter.1 h).1)

theorem inBounds_run_start {kind : WordKind} {i : Nat} {r : Run} (hi : i < d.lineCount)
    (h : r ∈ d.words kind i) : d.InBounds ⟨i, r.start⟩ := by
  have := words_bounds h
  exact ⟨hi, by dsimp only; omega⟩

theorem inBounds_run_last {kind : WordKind} {i : Nat} {r : Run} (hi : i < d.lineCount)
    (h : r ∈ d.words kind i) : d.InBounds ⟨i, r.stop - 1⟩ := by
  have := words_bounds h
  exact ⟨hi, by dsimp only; omega⟩

end Document

end ModalEdit
