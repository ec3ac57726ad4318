import Mathlib.Data.List.Sort
import ModalEdit.Proofs.Text.Words

/-!
# The only way to cut a line into runs

Runs that follow each other without a gap, from the first column of a line to its end, each of
characters of its own class and with another class than the one before, are a tokenization of the
line (`IsTokenization`). Each of them is then as long as it can be, and since two longest runs that
share a column are the same, a line has only one tokenization: its runs (`isTokenization_iff`).

Which characters are blank does not depend on the kind of words, so the blank runs of a line do not
either (`filter_blank_runs`).
-/

namespace ModalEdit

/-- The runs cover the line, each is of one class, and neighbours are of different classes. -/
structure IsTokenization (kind : WordKind) (chars : Text) (rs : List Run) : Prop where
  /-- They hold characters, follow each other without a gap and cover the columns of the line. -/
  tile : Tile rs 0 chars.length
  /-- All characters of a run are of its class. -/
  cls : ∀ r ∈ rs, ∀ i, r.start ≤ i → i < r.stop → classAt? kind chars i = some r.cls
  /-- Neighbouring runs are of different classes. -/
  differ : (rs.map Run.cls).IsChain (· ≠ ·)

variable {kind : WordKind} {chars : Text} {rs qs : List Run} {r q : Run} {a b i : Nat}

/-! ### Runs without gaps -/

/-- Longest runs without gaps are determined by where they begin and end. -/
theorem Tile.eq_of_isMaximal (hr : Tile rs a b) (hq : Tile qs a b)
    (hrs : ∀ r ∈ rs, r.IsMaximal kind chars) (hqs : ∀ q ∈ qs, q.IsMaximal kind chars) :
    rs = qs := by
  induction rs generalizing qs a with
  | nil =>
    cases qs with
    | nil => rfl
    | cons q qs => exact absurd hr (Nat.ne_of_lt hq.lt_of_cons)
  | cons r rs ih =>
    cases qs with
    | nil => exact absurd hq (Nat.ne_of_lt hr.lt_of_cons)
    | cons q qs =>
      obtain ⟨rfl, hlt, hrest⟩ := hr
      obtain ⟨hstart, hlt', hrest'⟩ := hq
      rw [List.forall_mem_cons] at hrs hqs
      -- Both lists begin with the run that holds the first column.
      obtain rfl : q = r :=
        hrs.1.unique hqs.1 (Nat.le_refl _) hlt (Nat.le_of_eq hstart) (hstart ▸ hlt')
      rw [ih hrest hrest' hrs.2 hqs.2]

/-! ### Tokenizations -/

theorem isTokenization_runs (kind : WordKind) (chars : Text) :
    IsTokenization kind chars (runs kind chars) :=
  ⟨tile_runs kind chars, fun _ hr => cls_of_mem_runs hr, isChain_cls_runsFrom kind 0 chars⟩

theorem IsTokenization.isMaximal (h : IsTokenization kind chars rs) :
    ∀ r ∈ rs, r.IsMaximal kind chars :=
  h.tile.isMaximal h.cls h.differ fun _ _ i hi => absurd hi (Nat.succ_ne_zero i)

/-- **A line has one tokenization**: its runs. -/
theorem isTokenization_iff : IsTokenization kind chars rs ↔ rs = runs kind chars := by
  constructor
  · intro h
    exact h.tile.eq_of_isMaximal (isTokenization_runs kind chars).tile h.isMaximal
      fun r hr => mem_runs_iff.1 hr
  · rintro rfl
    exact isTokenization_runs kind chars

/-! ### Blank runs -/

theorem classify_eq_blank_iff {c : Char} : classify kind c = .blank ↔ isBlank c = true := by
  unfold classify
  split
  · simp [*]
  · split <;> simp [*]

/-- Which columns are blank does not depend on the kind of words. -/
theorem classAt?_eq_blank_iff (kind kind' : WordKind) :
    classAt? kind chars i = some .blank ↔ classAt? kind' chars i = some .blank := by
  simp only [classAt?, Option.map_eq_some_iff, classify_eq_blank_iff]

theorem Run.IsMaximal.of_blank (kind' : WordKind) (h : r.IsMaximal kind chars)
    (hblank : r.cls = .blank) : r.IsMaximal kind' chars := by
  obtain ⟨hlt, hcls, hbefore, hbehind⟩ := h
  simp only [hblank, ne_eq, classAt?_eq_blank_iff kind kind'] at hcls hbefore hbehind
  exact ⟨hlt, by rwa [hblank], by rwa [hblank], by rwa [hblank]⟩

theorem pairwise_start_runs (kind : WordKind) (chars : Text) :
    (runs kind chars).Pairwise fun r q => r.start < q.start := by
  refine (pairwise_runsFrom kind 0 chars).imp_of_mem fun hr _ h => ?_
  have := runs_bounds hr
  omega

/-- **The blank runs of a line** are the same for both kinds of words. -/
theorem filter_blank_runs (kind kind' : WordKind) (chars : Text) :
    (runs kind chars).filter (·.cls == .blank) = (runs kind' chars).filter (·.cls == .blank) := by
  have : Std.Irrefl fun r q : Run => r.start < q.start := ⟨fun r => Nat.lt_irrefl r.start⟩
  have : Std.Antisymm fun r q : Run => r.start < q.start :=
    ⟨fun _ _ h h' => absurd h' (Nat.lt_asymm h)⟩
  refine ((pairwise_start_runs kind chars).filter _).eq_of_mem_iff
    ((pairwise_start_runs kind' chars).filter _) fun r => ?_
  simp only [List.mem_filter, mem_runs_iff, beq_iff_eq]
  exact ⟨fun ⟨h, hblank⟩ => ⟨h.of_blank kind' hblank, hblank⟩,
    fun ⟨h, hblank⟩ => ⟨h.of_blank kind hblank, hblank⟩⟩

/-- **The runs of a line.** They hold at least one character each and follow each other without a
gap from the first column of the line to its end, all characters of a run are of its class, and
neighbours are of different classes. No other list of runs is like this. The blank runs are the same
for both kinds of words. -/
theorem runs_tokenize (chars : Text) :
    (∀ (kind : WordKind) (rs : List Run), IsTokenization kind chars rs ↔ rs = runs kind chars) ∧
      (runs .big chars).filter (·.cls == .blank) = (runs .small chars).filter (·.cls == .blank) :=
  ⟨fun _ _ => isTokenization_iff, filter_blank_runs .big .small chars⟩

/-- Words, punctuation and blanks. -/
example : runs .small "a.b  c".toList = [⟨0, 1, .word⟩, ⟨1, 2, .punct⟩, ⟨2, 3, .word⟩,
    ⟨3, 5, .blank⟩, ⟨5, 6, .word⟩] := by decide

end ModalEdit
