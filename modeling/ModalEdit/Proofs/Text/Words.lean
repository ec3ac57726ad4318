import Mathlib.Data.List.Chain
import ModalEdit.Proofs.Text.Run

/-!
# Which runs a line has

A run of a line is as long as characters of one class make it: neither the character before it nor
the one behind it is of its class (`Run.IsMaximal`). The runs that a line is cut into are exactly
these (`mem_runs_iff`): they cover the line, and two of them that share a column are the same.
-/

namespace ModalEdit

/-- The class of the character in a column. -/
def classAt? (kind : WordKind) (chars : Text) (i : Nat) : Option CharClass :=
  chars[i]?.map (classify kind)

/-- The run holds neighbouring characters of its class, and no more of them stand next to it. -/
structure Run.IsMaximal (kind : WordKind) (chars : Text) (r : Run) : Prop where
  /-- It holds a character. -/
  start_lt : r.start < r.stop
  /-- All its characters are of its class. -/
  cls : ∀ i, r.start ≤ i → i < r.stop → classAt? kind chars i = some r.cls
  /-- The one before it is not. -/
  before : ∀ i, i + 1 = r.start → classAt? kind chars i ≠ some r.cls
  /-- The one behind it is not. -/
  behind : classAt? kind chars r.stop ≠ some r.cls

variable {kind : WordKind} {chars : Text} {r q : Run} {i : Nat}

/-! ### The runs that a line is cut into -/

/-- All characters of a run are of its class. -/
theorem cls_of_mem_runsFrom {j : Nat} (h : r ∈ runsFrom kind i chars) (hstart : r.start ≤ i + j)
    (hstop : i + j < r.stop) : classAt? kind chars j = some r.cls := by
  induction chars generalizing i j r with
  | nil => cases h
  | cons c cs ih =>
    have htile := tile_runsFrom kind (i + 1) cs
    have hlater {q : Run} (hq : q ∈ runsFrom kind (i + 1) cs) (hstart : q.start ≤ i + j)
        (hstop : i + j < q.stop) : classAt? kind (c :: cs) j = some q.cls := by
      have := htile.bounds hq
      obtain ⟨j, rfl⟩ := Nat.exists_eq_add_one.2 (show 0 < j by omega)
      exact ih hq (by omega) (by omega)
    rw [runsFrom] at h
    unfold consRun at h
    split at h
    · obtain rfl := List.mem_singleton.1 h
      obtain rfl : j = 0 := by dsimp only at hstop; omega
      rfl
    · rename_i q qs hcons
      rw [hcons] at htile hlater
      split at h
      · rename_i hcls
        rcases List.mem_cons.1 h with rfl | hr
        · -- The first run has become longer by the first character.
          cases j with
          | zero => exact congrArg some hcls.symm
          | succ j => exact @hlater q List.mem_cons_self (by have := htile.1; omega) hstop
        · exact hlater (List.mem_cons_of_mem q hr) hstart hstop
      · rcases List.mem_cons.1 h with rfl | hr
        · obtain rfl : j = 0 := by dsimp only at hstop; omega
          rfl
        · exact hlater hr hstart hstop

theorem cls_of_mem_runs (h : r ∈ runs kind chars) (i : Nat) (hstart : r.start ≤ i)
    (hstop : i < r.stop) : classAt? kind chars i = some r.cls :=
  cls_of_mem_runsFrom h (by omega) (by omega)

/-- Neighbouring runs are of different classes. -/
theorem isChain_cls_runsFrom (kind : WordKind) (i : Nat) (chars : Text) :
    ((runsFrom kind i chars).map Run.cls).IsChain (· ≠ ·) := by
  induction chars generalizing i with
  | nil => exact .nil
  | cons c cs ih =>
    have hrest := ih (i + 1)
    rw [runsFrom]
    unfold consRun
    split
    · exact .singleton _
    · rename_i r rs hcons
      rw [hcons] at hrest
      split
      · exact hrest
      · rename_i hne
        exact List.isChain_cons_cons.2 ⟨Ne.symm hne, hrest⟩

/-- **Runs without gaps are as long as they can be** if neighbours are of different classes and the
character before the first run is of another class as well. -/
theorem Tile.isMaximal {rs : List Run} (h : Tile rs i chars.length)
    (hcls : ∀ r ∈ rs, ∀ i, r.start ≤ i → i < r.stop → classAt? kind chars i = some r.cls)
    (hdiffer : (rs.map Run.cls).IsChain (· ≠ ·))
    (hbefore : ∀ r ∈ rs.head?, ∀ j, j + 1 = i → classAt? kind chars j ≠ some r.cls) :
    ∀ r ∈ rs, r.IsMaximal kind chars := by
  induction rs generalizing i with
  | nil => exact fun r hr => absurd hr List.not_mem_nil
  | cons r rs ih =>
    obtain ⟨rfl, hlt, hrest⟩ := h
    obtain ⟨hr, hcls⟩ := List.forall_mem_cons.1 hcls
    have hbehind : classAt? kind chars r.stop ≠ some r.cls := by
      cases rs with
      | nil =>
        rw [classAt?, List.getElem?_eq_none (Nat.le_of_eq hrest.symm)]
        exact (Option.some_ne_none _).symm
      | cons q qs =>
        obtain ⟨hstart, hlt', -⟩ := hrest
        rw [hcls q List.mem_cons_self r.stop (Nat.le_of_eq hstart) (hstart ▸ hlt')]
        exact fun heq => (List.isChain_cons_cons.1 hdiffer).1 (Option.some.inj heq).symm
    refine List.forall_mem_cons.2 ⟨⟨hlt, hr, hbefore r rfl, hbehind⟩, ?_⟩
    refine ih hrest hcls (List.isChain_of_isChain_cons hdiffer) fun q hq j hj => ?_
    obtain ⟨qs, rfl⟩ := List.head?_eq_some_iff.1 hq
    rw [hr j (by omega) (by omega)]
    exact fun heq => (List.isChain_cons_cons.1 hdiffer).1 (Option.some.inj heq)

/-! ### Runs that share a column -/

namespace Run.IsMaximal

theorem stop_le_length (h : r.IsMaximal kind chars) : r.stop ≤ chars.length := by
  have hlast := h.cls (r.stop - 1) (by have := h.start_lt; omega) (by have := h.start_lt; omega)
  obtain ⟨c, hc, -⟩ := Option.map_eq_some_iff.1 hlast
  have := (List.getElem?_eq_some_iff.1 hc).1
  omega

/-- Of two runs of one class that share a column neither ends behind the other. -/
theorem stop_le (hr : r.IsMaximal kind chars) (hq : q.IsMaximal kind chars)
    (hcls : q.cls = r.cls) (hle : q.start ≤ r.stop) : q.stop ≤ r.stop := by
  refine Nat.le_of_not_lt fun hlt => hr.behind ?_
  exact hcls ▸ hq.cls r.stop hle hlt

/-- And neither begins before the other. -/
theorem start_le (hr : r.IsMaximal kind chars) (hq : q.IsMaximal kind chars)
    (hcls : q.cls = r.cls) (hle : r.start ≤ q.stop) : r.start ≤ q.start := by
  refine Nat.le_of_not_lt fun hlt => hr.before (r.start - 1) (by omega) ?_
  exact hcls ▸ hq.cls (r.start - 1) (by omega) (by omega)

/-- **Two runs that share a column are the same.** -/
theorem unique (hr : r.IsMaximal kind chars) (hq : q.IsMaximal kind chars) (hri : r.start ≤ i)
    (hir : i < r.stop) (hqi : q.start ≤ i) (hiq : i < q.stop) : q = r := by
  have hcls : q.cls = r.cls := Option.some.inj ((hq.cls i hqi hiq).symm.trans (hr.cls i hri hir))
  have hstart : q.start = r.start := Nat.le_antisymm
    (hq.start_le hr hcls.symm (by omega)) (hr.start_le hq hcls (by omega))
  have hstop : q.stop = r.stop := Nat.le_antisymm
    (hr.stop_le hq hcls (by omega)) (hq.stop_le hr hcls.symm (by omega))
  obtain ⟨a, b, x⟩ := q
  obtain ⟨a', b', x'⟩ := r
  rw [Run.mk.injEq]
  exact ⟨hstart, hstop, hcls⟩

end Run.IsMaximal

/-- **A line is cut into its longest pieces of one class.** -/
theorem mem_runs_iff : r ∈ runs kind chars ↔ r.IsMaximal kind chars := by
  have htile := tile_runs kind chars
  have hmaximal : ∀ r ∈ runs kind chars, r.IsMaximal kind chars :=
    htile.isMaximal (fun _ hr => cls_of_mem_runs hr) (isChain_cls_runsFrom kind 0 chars)
      fun _ _ j hj => absurd hj (Nat.succ_ne_zero j)
  refine ⟨hmaximal r, fun h => ?_⟩
  have hstart : r.start < chars.length := Nat.lt_of_lt_of_le h.start_lt h.stop_le_length
  obtain ⟨q, hq, hle, hlt⟩ := htile.exists_mem (Nat.zero_le _) hstart
  obtain rfl := h.unique (hmaximal q hq) (Nat.le_refl _) h.start_lt hle hlt
  exact hq

namespace Document

/-- The words of a line are its runs that are not blank. -/
theorem mem_words_iff {d : Document} :
    r ∈ d.words kind i ↔ r.IsMaximal kind (d.content i) ∧ r.cls ≠ .blank := by
  simp [words, mem_runs_iff]

end Document

end ModalEdit
