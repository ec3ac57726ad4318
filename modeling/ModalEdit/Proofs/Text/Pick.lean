import ModalEdit.Proofs.Text.Rebuild

/-!
# Characters picked by their offsets

`pick` keeps the characters of a text at chosen offsets. A batch that only deletes leaves the
characters that none of its edits covers (`rebuild_of_deletions`), and what it takes out, put
together, are the characters that one of them covers (`flatten_cuts`).
-/

namespace ModalEdit

/-- The characters of a text whose offset `p` picks. The first character has the offset `k`. -/
def pick (p : Nat → Bool) (k : Nat) : Text → Text
  | [] => []
  | c :: cs => if p k then c :: pick p (k + 1) cs else pick p (k + 1) cs

/-- The offset lies in the piece that one of the edits replaces. -/
def covered (es : List OffsetEdit) (o : Nat) : Bool :=
  es.any fun e => decide (e.start ≤ o) && decide (o < e.stop)

variable {t : Text} {p q : Nat → Bool} {k pos : Nat} {es : List OffsetEdit}

theorem pick_append (p : Nat → Bool) (k : Nat) (s t : Text) :
    pick p k (s ++ t) = pick p k s ++ pick p (k + s.length) t := by
  induction s generalizing k with
  | nil => rfl
  | cons c s ih =>
    rw [List.cons_append, pick, pick, ih, List.length_cons, Nat.add_right_comm, Nat.add_assoc k]
    split <;> rfl

theorem pick_congr (h : ∀ o, k ≤ o → o < k + t.length → p o = q o) : pick p k t = pick q k t := by
  induction t generalizing k with
  | nil => rfl
  | cons c t ih =>
    rw [List.length_cons] at h
    rw [pick, pick, h k (by omega) (by omega), ih fun o hle hlt => h o (by omega) (by omega)]

theorem pick_true (k : Nat) (t : Text) : pick (fun _ => true) k t = t := by
  induction t generalizing k with
  | nil => rfl
  | cons c t ih => rw [pick, if_pos rfl, ih]

theorem pick_false (k : Nat) (t : Text) : pick (fun _ => false) k t = [] := by
  induction t generalizing k with
  | nil => rfl
  | cons c t ih => rw [pick, if_neg Bool.false_ne_true, ih]

/-- Where nothing is picked all is left. -/
theorem pick_not_of_pick_eq_nil (h : pick p k t = []) : pick (fun o => !p o) k t = t := by
  induction t generalizing k with
  | nil => rfl
  | cons c t ih =>
    rw [pick] at h ⊢
    by_cases hc : p k = true
    · rw [if_pos hc] at h
      cases h
    · rw [if_neg hc] at h
      rw [if_pos (by simpa using hc), ih h]

/-- What is picked behind an offset, in three parts. -/
theorem pick_drop {start stop : Nat} (hstart : pos ≤ start) (hle : start ≤ stop)
    (hstop : stop ≤ t.length) :
    pick p pos (t.drop pos) =
      pick p pos (cut t pos start) ++ pick p start (cut t start stop) ++
        pick p stop (t.drop stop) := by
  rw [← cut_append_drop hstart, pick_append, length_cut (by omega), ← cut_append_drop hle,
    pick_append, length_cut hstop, Nat.add_sub_cancel' hstart, Nat.add_sub_cancel' hle,
    List.append_assoc]

/-! ### Edits in sequence -/

/-- Nothing in front of the edits is covered. -/
theorem InSequence.not_covered {size o : Nat} (h : InSequence size pos es) (ho : o < pos) :
    covered es o = false := by
  refine List.any_eq_false.2 fun e he => ?_
  have := h.le_start e he
  simp only [Bool.and_eq_true, decide_eq_true_eq]
  omega

theorem covered_cons (e : OffsetEdit) (es : List OffsetEdit) (o : Nat) :
    covered (e :: es) o = (decide (e.start ≤ o) && decide (o < e.stop) || covered es o) := rfl

/-- What the edits cover, told apart by the first one: nothing in front of it, all of its piece, and
behind it what the others cover. -/
theorem InSequence.covered_cases {size o : Nat} {e : OffsetEdit} (h : InSequence size e.stop es) :
    (o < e.start → e.start ≤ e.stop → covered (e :: es) o = false) ∧
      (e.start ≤ o → o < e.stop → covered (e :: es) o = true) ∧
        (e.stop ≤ o → covered (e :: es) o = covered es o) := by
  rw [covered_cons]
  refine ⟨fun hlt hle => ?_, fun hle hlt => ?_, fun hle => ?_⟩
  · rw [h.not_covered (by omega)]
    simp [Nat.not_le_of_lt hlt]
  · simp [hle, hlt]
  · simp [Nat.not_lt_of_le hle]

/-- **Deletions leave what they do not cover.** -/
theorem rebuild_of_deletions (h : InSequence t.length pos es) (hdel : ∀ e ∈ es, e.text = []) :
    rebuild t pos es = pick (fun o => !covered es o) pos (t.drop pos) := by
  induction es generalizing pos with
  | nil => exact (pick_true pos _).symm
  | cons e es ih =>
    obtain ⟨hstart, hle, hrest⟩ := h
    obtain ⟨he, hdel⟩ := List.forall_mem_cons.1 hdel
    have hstop := hrest.le_size
    have hfront : pick (fun o => !covered (e :: es) o) pos (cut t pos e.start) =
        cut t pos e.start := by
      rw [pick_congr fun o hpos hlt => ?_, pick_true]
      rw [length_cut (by omega)] at hlt
      rw [hrest.covered_cases.1 (by omega) hle, Bool.not_false]
    have hpiece : pick (fun o => !covered (e :: es) o) e.start (cut t e.start e.stop) = [] := by
      rw [pick_congr fun o hpos hlt => ?_, pick_false]
      rw [length_cut hstop] at hlt
      rw [hrest.covered_cases.2.1 hpos (by omega), Bool.not_true]
    have hbehind : pick (fun o => !covered (e :: es) o) e.stop (t.drop e.stop) =
        rebuild t e.stop es := by
      rw [ih hrest hdel]
      refine pick_congr fun o hpos _ => ?_
      rw [hrest.covered_cases.2.2 hpos]
    rw [pick_drop hstart hle hstop, hfront, hpiece, hbehind, rebuild, he]

/-- **What edits take out are the characters they cover.** -/
theorem flatten_cuts (h : InSequence t.length pos es) :
    (es.map fun e => cut t e.start e.stop).flatten = pick (covered es) pos (t.drop pos) := by
  induction es generalizing pos with
  | nil => exact (pick_false pos _).symm
  | cons e es ih =>
    obtain ⟨hstart, hle, hrest⟩ := h
    have hstop := hrest.le_size
    have hfront : pick (covered (e :: es)) pos (cut t pos e.start) = [] := by
      rw [pick_congr fun o hpos hlt => ?_, pick_false]
      rw [length_cut (by omega)] at hlt
      exact hrest.covered_cases.1 (by omega) hle
    have hpiece : pick (covered (e :: es)) e.start (cut t e.start e.stop) =
        cut t e.start e.stop := by
      rw [pick_congr fun o hpos hlt => ?_, pick_true]
      rw [length_cut hstop] at hlt
      exact hrest.covered_cases.2.1 hpos (by omega)
    have hbehind : pick (covered (e :: es)) e.stop (t.drop e.stop) =
        pick (covered es) e.stop (t.drop e.stop) :=
      pick_congr fun o hpos _ => hrest.covered_cases.2.2 hpos
    rw [pick_drop hstart hle hstop, hfront, hpiece, hbehind, ← ih hrest, List.nil_append,
      List.map_cons, List.flatten_cons]

end ModalEdit
