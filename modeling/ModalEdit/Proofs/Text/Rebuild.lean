import Mathlib.Algebra.Ring.Int.Defs
import ModalEdit.Proofs.Step

/-!
# What a batch makes of a text

`Plan.apply` makes the edits of a batch from the last to the first, each on what the later ones have
left. The outcome can be told from the old text alone: `rebuild` walks through the old text once,
copies what lies between two edits and puts the text of each edit in the place of its piece
(`foldr_splice`). Where the text of an edit lies in the new text is what `Plan.placed` computes from
running totals (`exists_parts_of_mem_placed`, `placed_eq_shift`).

A batch is undone by the batch that puts the old pieces back at the places in the new text
(`rebuild_undoing`).

`Document.edit_rebuilds` puts this together for every batch that is accepted.
-/

namespace ModalEdit

/-- The part of a text between two offsets. -/
def cut (t : Text) (start stop : Nat) : Text := (t.drop start).take (stop - start)

/-- The text behind the offset `pos` with the edits made, all offsets those of the old text. -/
def rebuild (t : Text) (pos : Nat) : List OffsetEdit → Text
  | [] => t.drop pos
  | e :: es => cut t pos e.start ++ e.text ++ rebuild t e.stop es

/-- The edits lie between the offsets `pos` and `size` one behind the other. -/
def InSequence (size : Nat) (pos : Nat) : List OffsetEdit → Prop
  | [] => pos ≤ size
  | e :: es => pos ≤ e.start ∧ e.start ≤ e.stop ∧ InSequence size e.stop es

/-- By how much edits move the text behind them. -/
def shift (es : List OffsetEdit) : ℤ :=
  (es.map fun e => (e.text.length : ℤ) - (e.stop - e.start : ℕ)).sum

/-- The edits that take back edits with known places in the new text: each puts the piece of the old
text back. -/
def undoing (t : Text) (placed : List (OffsetEdit × Nat)) : List OffsetEdit :=
  placed.map fun (e, o) => ⟨o, o + e.text.length, cut t e.start e.stop, e.index⟩

variable {t pre : Text} {pos start stop size : Nat} {e : OffsetEdit} {es : List OffsetEdit}

/-! ### Cutting a text -/

theorem length_cut (hstop : stop ≤ t.length) : (cut t start stop).length = stop - start := by
  rw [cut, List.length_take, List.length_drop]
  omega

theorem cut_append_drop (h : start ≤ stop) : cut t start stop ++ t.drop stop = t.drop start := by
  have hdrop : t.drop stop = (t.drop start).drop (stop - start) := by
    rw [List.drop_drop]
    congr 1
    omega
  rw [cut, hdrop, List.take_append_drop]

theorem take_append_cut (h : start ≤ stop) : t.take start ++ cut t start stop = t.take stop := by
  rw [cut, ← List.take_add]
  congr 1
  omega

theorem cut_append_cut {mid : Nat} (h : start ≤ mid) (h' : mid ≤ stop) :
    cut t start mid ++ cut t mid stop = cut t start stop := by
  have hsum : stop - start = (mid - start) + (stop - mid) := by omega
  have hmid : start + (mid - start) = mid := by omega
  rw [cut, cut, cut, hsum, List.take_add, List.drop_drop, hmid]

/-- What has been put between two texts can be cut out again. -/
theorem cut_append (front mid back : Text) {stop : Nat} (h : stop = front.length + mid.length) :
    cut (front ++ mid ++ back) front.length stop = mid := by
  rw [h, cut, List.append_assoc, List.drop_left, Nat.add_sub_cancel_left, List.take_left]

/-! ### Edits in sequence -/

theorem InSequence.le_size (h : InSequence size pos es) : pos ≤ size := by
  induction es generalizing pos with
  | nil => exact h
  | cons e es ih =>
    obtain ⟨hstart, hle, hrest⟩ := h
    have := ih hrest
    omega

theorem InSequence.le_start {size : Nat} (h : InSequence size pos es) :
    ∀ e ∈ es, pos ≤ e.start := by
  induction es generalizing pos with
  | nil => simp
  | cons e es ih =>
    obtain ⟨hstart, hle, hrest⟩ := h
    refine List.forall_mem_cons.2 ⟨hstart, fun f hf => ?_⟩
    have := ih hrest f hf
    omega

theorem InSequence.stop_le_size (h : InSequence size pos es) : ∀ e ∈ es, e.stop ≤ size := by
  induction es generalizing pos with
  | nil => simp
  | cons e es ih => exact List.forall_mem_cons.2 ⟨h.2.2.le_size, ih h.2.2⟩

/-- Edits without overlaps are in sequence. -/
theorem inSequence_of_pairwise (hpos : pos ≤ size) (hfirst : ∀ e ∈ es, pos ≤ e.start)
    (hbounds : ∀ e ∈ es, e.start ≤ e.stop ∧ e.stop ≤ size)
    (hapart : es.Pairwise fun e f => e.stop ≤ f.start) : InSequence size pos es := by
  induction es generalizing pos with
  | nil => exact hpos
  | cons e es ih =>
    obtain ⟨he, hrest⟩ := List.forall_mem_cons.1 hbounds
    obtain ⟨hnext, hapart⟩ := List.pairwise_cons.1 hapart
    exact ⟨hfirst e List.mem_cons_self, he.1, ih he.2 hnext hrest hapart⟩

/-- **The edits made from the last to the first rebuild the text.** -/
theorem foldr_splice (h : InSequence t.length pos es) :
    es.foldr (fun e t => splice t e) t = t.take pos ++ rebuild t pos es := by
  induction es generalizing pos with
  | nil => exact (List.take_append_drop pos t).symm
  | cons e es ih =>
    obtain ⟨hstart, hle, hrest⟩ := h
    have hstop := hrest.le_size
    have hlen : (t.take e.stop).length = e.stop := List.length_take_of_le hstop
    -- The later edits have left everything before the end of this one as it was.
    have htake : (t.take e.stop ++ rebuild t e.stop es).take e.start = t.take e.start := by
      rw [List.take_append_of_le_length (by omega), List.take_take, Nat.min_eq_left hle]
    have hdrop : (t.take e.stop ++ rebuild t e.stop es).drop e.stop = rebuild t e.stop es := by
      rw [List.drop_append_of_le_length (by omega), List.drop_of_length_le (by omega),
        List.nil_append]
    rw [List.foldr_cons, ih hrest, splice, htake, hdrop, rebuild, ← take_append_cut hstart]
    simp only [List.append_assoc]

/-- The places of the edits in their batch do not matter for the text. -/
theorem rebuild_congr {es' : List OffsetEdit}
    (h : es.map OffsetEdit.parts = es'.map OffsetEdit.parts) :
    rebuild t pos es = rebuild t pos es' := by
  induction es generalizing pos es' with
  | nil =>
    obtain rfl : es' = [] := by simpa using h.symm
    rfl
  | cons e es ih =>
    match es' with
    | [] => simp at h
    | e' :: es' =>
      obtain ⟨hparts, h⟩ := List.cons.inj h
      simp only [OffsetEdit.parts, Prod.mk.injEq] at hparts
      obtain ⟨hstart, hstop, htext⟩ := hparts
      rw [rebuild, rebuild, hstart, hstop, htext, ih h]

/-- Nothing comes from elsewhere. -/
theorem mem_rebuild {c : Char} (h : c ∈ rebuild t pos es) : c ∈ t ∨ ∃ e ∈ es, c ∈ e.text := by
  induction es generalizing pos with
  | nil => exact .inl (List.mem_of_mem_drop h)
  | cons e es ih =>
    rcases List.mem_append.1 h with h | h
    · rcases List.mem_append.1 h with h | h
      · exact .inl (List.mem_of_mem_drop (List.mem_of_mem_take h))
      · exact .inr ⟨e, List.mem_cons_self, h⟩
    · refine (ih h).imp_right fun ⟨f, hf, hc⟩ => ⟨f, List.mem_cons_of_mem _ hf, hc⟩

/-- **Nothing is lost**: the new text and the pieces of the edits hold the same characters, each as
often, as the old text and what the edits put there. -/
theorem perm_rebuild (h : InSequence t.length pos es) :
    (rebuild t pos es ++ es.flatMap fun e => cut t e.start e.stop).Perm
      (t.drop pos ++ es.flatMap (·.text)) := by
  induction es generalizing pos with
  | nil => exact .refl _
  | cons e es ih =>
    obtain ⟨hstart, hle, hrest⟩ := h
    have hdrop : t.drop pos = cut t pos e.start ++ (cut t e.start e.stop ++ t.drop e.stop) := by
      rw [cut_append_drop hle, cut_append_drop hstart]
    refine List.perm_iff_count.2 fun c => ?_
    have hbehind := (ih hrest).count_eq c
    simp only [rebuild, hdrop, List.flatMap_cons, List.count_append] at hbehind ⊢
    omega

/-- **Characters that no edit takes out or puts in** stay as they are. -/
theorem filter_rebuild {p : Char → Bool} (h : InSequence t.length pos es)
    (hsame : ∀ e ∈ es, e.text.filter p = (cut t e.start e.stop).filter p) :
    (rebuild t pos es).filter p = (t.drop pos).filter p := by
  induction es generalizing pos with
  | nil => rfl
  | cons e es ih =>
    obtain ⟨hstart, hle, hrest⟩ := h
    obtain ⟨he, hsame⟩ := List.forall_mem_cons.1 hsame
    rw [rebuild, List.filter_append, List.filter_append, he, ih hrest hsame, List.append_assoc,
      ← List.filter_append, cut_append_drop hle, ← List.filter_append, cut_append_drop hstart]

/-! ### Places in the new text -/

/-- The running totals behind an edit fit what it has made of the text up to its end. -/
theorem length_append_cut (pre : Text) {added removed : Nat}
    (h : InSequence t.length pos (e :: es)) (hpre : pre.length + removed = pos + added) :
    (pre ++ (cut t pos e.start ++ e.text)).length + (removed + (e.stop - e.start)) =
      e.stop + (added + e.text.length) := by
  obtain ⟨hstart, hle, hrest⟩ := h
  rw [List.length_append, List.length_append, length_cut (Nat.le_trans hle hrest.le_size)]
  omega

/-- Where the running totals put the text of an edit it stands in the new text. `pre` is what the
edits before have made of the text up to `pos`. -/
theorem exists_parts_of_mem_placed (pre : Text) {added removed o : Nat}
    (h : InSequence t.length pos es) (hpre : pre.length + removed = pos + added)
    (he : (e, o) ∈ Plan.placed added removed es) :
    ∃ front back, pre ++ rebuild t pos es = front ++ e.text ++ back ∧ front.length = o := by
  induction es generalizing pos pre added removed with
  | nil => cases he
  | cons f es ih =>
    have hpre' := length_append_cut pre h hpre
    obtain ⟨hstart, hle, hrest⟩ := h
    rcases List.mem_cons.1 he with heq | he
    · cases heq
      refine ⟨pre ++ cut t pos e.start, rebuild t e.stop es, by simp [rebuild], ?_⟩
      rw [List.length_append, length_cut (Nat.le_trans hle hrest.le_size)]
      omega
    · obtain ⟨front, back, hparts, hfront⟩ := ih _ hrest hpre' he
      refine ⟨front, back, ?_, hfront⟩
      rw [← hparts, rebuild, List.append_assoc pre]

/-- **The running totals never go below zero**: the place of an edit is where it was in the old text
moved by what all edits before it add and remove. -/
theorem placed_eq_shift {added removed : Nat} (h : InSequence size pos es)
    (htotal : removed ≤ pos + added) {k o : Nat}
    (he : (Plan.placed added removed es)[k]? = some (e, o)) :
    (o : ℤ) = e.start + added - removed + shift (es.take k) := by
  induction es generalizing pos added removed k with
  | nil => simp [Plan.placed] at he
  | cons f es ih =>
    obtain ⟨hstart, hle, hrest⟩ := h
    cases k with
    | zero =>
      simp only [Plan.placed, List.getElem?_cons_zero, Option.some.injEq, Prod.mk.injEq] at he
      obtain ⟨rfl, rfl⟩ := he
      simp only [List.take_zero, shift, List.map_nil, List.sum_nil]
      omega
    | succ k =>
      simp only [Plan.placed, List.getElem?_cons_succ] at he
      have := ih hrest (by omega) he
      rw [this, List.take_succ_cons, shift, shift, List.map_cons, List.sum_cons]
      push_cast
      omega

theorem le_of_mem_placed {added removed : Nat} (h : InSequence size pos es)
    (htotal : removed ≤ pos + added) :
    ∀ p ∈ Plan.placed added removed es, pos + added ≤ p.2 + removed := by
  induction es generalizing pos added removed with
  | nil => simp [Plan.placed]
  | cons e es ih =>
    obtain ⟨hstart, hle, hrest⟩ := h
    refine List.forall_mem_cons.2 ⟨by dsimp only; omega, fun p hp => ?_⟩
    have := ih hrest (by omega) p hp
    omega

/-- Behind edits with a gap between them places stay apart. -/
theorem pairwise_placed {added removed : Nat} (h : InSequence size pos es)
    (htotal : removed ≤ pos + added) (hgap : es.Pairwise fun e f => e.stop < f.start) :
    (Plan.placed added removed es).Pairwise fun p q => p.2 < q.2 := by
  induction es generalizing pos added removed with
  | nil => exact .nil
  | cons e es ih =>
    obtain ⟨hstart, hle, hrest⟩ := h
    obtain ⟨hnext, hgap⟩ := List.pairwise_cons.1 hgap
    refine List.pairwise_cons.2 ⟨fun p hp => ?_, ih hrest (by omega) hgap⟩
    have hbehind : InSequence size (e.stop + 1) es := by
      match es, hrest with
      | [], _ => cases hp
      | f :: es, hrest => exact ⟨hnext f List.mem_cons_self, hrest.2⟩
    have := le_of_mem_placed hbehind (by omega) p hp
    dsimp only
    omega

namespace Plan

variable {o p added removed : Nat}

theorem mem_of_mem_placed (he : (e, p) ∈ placed added removed es) : e ∈ es := by
  rw [← Document.map_fst_placed added removed es]
  exact List.mem_map_of_mem he

theorem follow_of_lt (h : o < e.start) :
    follow added removed (e :: es) o = o + added - removed := by
  rw [follow, if_pos h]

theorem follow_of_inside (hstart : e.start ≤ o) (hstop : o < e.stop) :
    follow added removed (e :: es) o = e.start + added - removed := by
  rw [follow, if_neg (Nat.not_lt.2 hstart), if_pos hstop]

theorem follow_of_le (hle : e.start ≤ e.stop) (hstop : e.stop ≤ o) :
    follow added removed (e :: es) o =
      follow (added + e.text.length) (removed + (e.stop - e.start)) es o := by
  rw [follow, if_neg (by omega), if_neg (by omega)]

/-- Offsets inside a piece are followed to the text in its place. -/
theorem follow_of_mem_placed (h : InSequence size pos es)
    (he : (e, p) ∈ placed added removed es) (hstart : e.start ≤ o) (hstop : o < e.stop) :
    follow added removed es o = p := by
  induction es generalizing pos added removed with
  | nil => cases he
  | cons f es ih =>
    obtain ⟨-, hle, hrest⟩ := h
    rcases List.mem_cons.1 he with heq | he
    · cases heq
      exact follow_of_inside hstart hstop
    · have hbehind := hrest.le_start e (mem_of_mem_placed he)
      rw [follow_of_le hle (Nat.le_trans hbehind hstart)]
      exact ih hrest he

end Plan

/-- When every piece holds something, following its start leads to the text in its place. -/
theorem placed_eq_map {added removed : Nat} (h : InSequence size pos es)
    (hne : ∀ e ∈ es, e.start < e.stop) :
    Plan.placed added removed es = es.map fun e => (e, Plan.follow added removed es e.start) := by
  have hplace : ∀ p ∈ Plan.placed added removed es,
      id p = (p.1, Plan.follow added removed es p.1.start) := fun p hp =>
    Prod.ext rfl (Plan.follow_of_mem_placed h hp (Nat.le_refl _)
      (hne p.1 (Plan.mem_of_mem_placed hp))).symm
  calc Plan.placed added removed es
      = (Plan.placed added removed es).map id := (List.map_id _).symm
    _ = (Plan.placed added removed es).map fun p =>
          (p.1, Plan.follow added removed es p.1.start) := List.map_congr_left hplace
    _ = ((Plan.placed added removed es).map (·.1)).map fun e =>
          (e, Plan.follow added removed es e.start) := by
          rw [List.map_map]
          rfl
    _ = es.map fun e => (e, Plan.follow added removed es e.start) := by
          rw [Document.map_fst_placed]

/-! ### Taking a batch back -/

theorem undoing_cons (o : Nat) (placed : List (OffsetEdit × Nat)) :
    undoing t ((e, o) :: placed) =
      ⟨o, o + e.text.length, cut t e.start e.stop, e.index⟩ :: undoing t placed := rfl

/-- **Putting the old pieces back restores the text.** -/
theorem rebuild_undoing (pre : Text) {added removed : Nat} (h : InSequence t.length pos es)
    (hpre : pre.length + removed = pos + added) :
    rebuild (pre ++ rebuild t pos es) pre.length (undoing t (Plan.placed added removed es)) =
      t.drop pos := by
  induction es generalizing pos pre added removed with
  | nil => exact List.drop_left
  | cons e es ih =>
    have hpre' := length_append_cut pre h hpre
    rw [← List.append_assoc] at hpre'
    obtain ⟨hstart, hle, hrest⟩ := h
    have hlen : (cut t pos e.start).length = e.start - pos :=
      length_cut (Nat.le_trans hle hrest.le_size)
    have hplace : e.start + added - removed = pre.length + (cut t pos e.start).length := by omega
    have htext : pre ++ rebuild t pos (e :: es) =
        pre ++ cut t pos e.start ++ e.text ++ rebuild t e.stop es := by
      simp only [rebuild, List.append_assoc]
    have hkept : cut (pre ++ cut t pos e.start ++ e.text ++ rebuild t e.stop es) pre.length
        (e.start + added - removed) = cut t pos e.start := by
      rw [List.append_assoc _ e.text]
      exact cut_append _ _ _ hplace
    have hbehind := ih _ hrest hpre'
    rw [List.length_append, List.length_append, ← hplace] at hbehind
    rw [htext, Plan.placed, undoing_cons, rebuild, hkept, hbehind, List.append_assoc,
      cut_append_drop hle, cut_append_drop hstart]

/-! ### Accepted batches -/

namespace Document

variable {d after : Document} {edits : List Edit} {plan : Plan}

/-- What a batch of edits makes of a document. -/
structure Rebuilds (d : Document) (edits : List Edit) (after : Document) (plan : Plan) : Prop where
  /-- The plan holds the edits of the batch and no others. -/
  perm : plan.edits.Perm (d.offsetEdits 0 edits)
  /-- The edits are in document order. Those that start at the same offset keep the order of the
  batch. -/
  ordered : plan.edits.Pairwise fun e f =>
    e.start < f.start ∨ e.start = f.start ∧ e.index < f.index
  /-- They lie in the old text one behind the other. -/
  sequence : InSequence d.size 0 plan.edits
  /-- In the new text the text of each edit has taken the place of its piece, and what lies between
  two edits has been kept. -/
  text : after.text = rebuild d.text 0 plan.edits
  /-- The plan says where in the new text the text of each edit of the batch is. It begins where the
  edit was in the old text, moved by the edits before it in the plan. -/
  placed : ∀ i e, edits[i]? = some e → ∃ k start stop,
    plan.edits[k]? = some ⟨d.offsetOf e.range.start, d.offsetOf e.range.stop, e.text, i⟩ ∧
      plan.startOf? i = some start ∧ plan.endOf? i = some stop ∧
        (start : ℤ) = d.offsetOf e.range.start + shift (plan.edits.take k) ∧
          start ≤ stop ∧ stop ≤ after.size ∧ cut after.text start stop = e.text

/-- The edits of a plan are in sequence. -/
theorem inSequence_of_plan (h : ∀ e ∈ edits, d.Fits e.range) (hplan : d.plan edits = .ok plan) :
    InSequence d.size 0 plan.edits := by
  obtain ⟨hapart, hbounds⟩ := pairwise_of_plan h hplan
  exact inSequence_of_pairwise (Nat.zero_le _) (fun _ _ => Nat.zero_le _) hbounds hapart

theorem text_of_edit (h : ∀ e ∈ edits, d.Fits e.range) (hedit : d.edit edits = .ok (after, plan)) :
    after.text = rebuild d.text 0 plan.edits := by
  obtain ⟨hplan, rfl⟩ := edit_eq_ok_iff.1 hedit
  rw [text_ofText, Plan.apply, foldr_splice (inSequence_of_plan h hplan), List.take_zero,
    List.nil_append]

/-- **An accepted batch rebuilds the text**, and one that is refused changes nothing. The ranges run
forward, as `Range.between` makes them. -/
theorem edit_rebuilds (hle : ∀ e ∈ edits, e.range.start ≤ e.range.stop) :
    (∀ after plan, d.edit edits = .ok (after, plan) → d.Rebuilds edits after plan) ∧
      ∀ s c s', Step.commit d edits s = .error c s' → s' = s := by
  constructor
  · intro after plan hedit
    obtain ⟨hplan, -⟩ := edit_eq_ok_iff.1 hedit
    obtain ⟨hin, -, hedits⟩ := plan_eq_ok_iff.1 hplan
    have hfits : ∀ e ∈ edits, d.Fits e.range := fun e he =>
      ⟨(hin e he).1, (hin e he).2, hle e he⟩
    have hseq := inSequence_of_plan hfits hplan
    have htext := text_of_edit hfits hedit
    refine ⟨hedits ▸ List.mergeSort_perm _ _, ordered_of_plan hplan, hseq, htext, ?_⟩
    intro i e hi
    obtain ⟨f, start, rfl, hmem, hfind⟩ := exists_placed_of_plan hplan hi
    obtain ⟨k, hk⟩ := List.mem_iff_getElem?.1 hmem
    obtain ⟨front, back, hparts, hfront⟩ := exists_parts_of_mem_placed [] hseq rfl hmem
    have hshift := placed_eq_shift hseq (Nat.zero_le _) hk
    have hget : plan.edits[k]? =
        some ⟨d.offsetOf e.range.start, d.offsetOf e.range.stop, e.text, i⟩ := by
      rw [← map_fst_placed 0 0 plan.edits, List.getElem?_map, hk, Option.map_some]
    rw [List.nil_append, ← htext] at hparts
    refine ⟨k, start, start + e.text.length, hget, by rw [Plan.startOf?, hfind]; rfl,
      by rw [Plan.endOf?, hfind]; rfl, by simpa using hshift, Nat.le_add_right _ _, ?_, ?_⟩
    · rw [size, hparts, List.length_append, List.length_append]
      dsimp only
      omega
    · rw [hparts, ← hfront]
      exact cut_append _ _ _ rfl
  · intro s c s' h
    simp only [Step.commit] at h
    split at h <;> cases h
    rfl

/-- Two insertions at the start of a deletion, and another deletion that comes first in the
batch. -/
theorem edit_rebuilds_ties :
    let d := ofText ['a', 'b', 'c']
    let edits : List Edit := [.delete ⟨⟨0, 2⟩, ⟨0, 3⟩, none⟩, .insert ⟨0, 1⟩ ['X'],
      .insert ⟨0, 1⟩ ['Y'], .delete ⟨⟨0, 1⟩, ⟨0, 2⟩, none⟩]
    let plan : Plan := ⟨[⟨1, 1, ['X'], 1⟩, ⟨1, 1, ['Y'], 2⟩, ⟨1, 2, [], 3⟩, ⟨2, 3, [], 0⟩]⟩
    (∀ e ∈ edits, e.range.start ≤ e.range.stop) ∧
      d.edit edits = .ok (ofText ['a', 'X', 'Y'], plan) ∧
        d.Rebuilds edits (ofText ['a', 'X', 'Y']) plan := by
  intro d edits plan
  have hle : ∀ e ∈ edits, e.range.start ≤ e.range.stop := by decide
  have horder : d.inOrder edits = plan.edits := inOrder_eq_of_perm (by decide) (by decide)
  have hedit : d.edit edits = .ok (ofText ['a', 'X', 'Y'], plan) := by
    refine edit_eq_ok_iff.2 ⟨plan_eq_ok_iff.2 ⟨by decide, ?_, ?_⟩, by rfl⟩
    · rw [horder]
      decide
    · rw [horder]
  exact ⟨hle, hedit, (edit_rebuilds hle).1 _ _ hedit⟩

end Document

end ModalEdit
