import Mathlib.Order.Monotone.Basic
import ModalEdit.Proofs.Text.Insertions

/-!
# The same text at several offsets

A text can be put in at several offsets at once or piece by piece. In both cases an offset ends up
behind all that has been put in at it or before it, which `pushed` counts. So the next piece goes
behind the one before (`weave_atEach`), and its offsets are the old ones pushed once more
(`pushed_add`).
-/

namespace ModalEdit

/-- The text `t` at each of the offsets `os`, and nothing at any other. -/
def atEach (os : List Nat) (t : Text) (o : Nat) : Text := if o ∈ os then t else []

/-- Where an offset comes to be when `n` characters are put in at each of the offsets `os`: behind
those that are put in at it and before it. -/
def pushed (os : List Nat) (n : Nat) (o : Nat) : Nat := o + n * os.countP fun q => decide (q ≤ o)

variable {os : List Nat} {m n o : Nat} {t u : Text}

/-! ### Offsets -/

theorem strictMono_pushed (os : List Nat) (n : Nat) : StrictMono (pushed os n) := by
  intro o o' h
  have hcount : (os.countP fun q => decide (q ≤ o)) ≤ os.countP fun q => decide (q ≤ o') :=
    List.countP_mono_left fun q _ hq => by
      simp only [decide_eq_true_eq] at hq ⊢
      omega
  have := Nat.mul_le_mul_left n hcount
  simp only [pushed]
  omega

@[simp] theorem pushed_zero (os : List Nat) (o : Nat) : pushed os 0 o = o := by simp [pushed]

/-- Offsets that are pushed once more are pushed by both. -/
theorem pushed_add (os : List Nat) (n m o : Nat) :
    pushed (os.map (pushed os n)) m (pushed os n o) = pushed os (n + m) o := by
  have hcount : ((os.map (pushed os n)).countP fun q => decide (q ≤ pushed os n o)) =
      os.countP fun q => decide (q ≤ o) := by
    rw [List.countP_map]
    refine List.countP_congr fun q _ => ?_
    simp [(strictMono_pushed os n).le_iff_le]
  rw [pushed, hcount, pushed, pushed, Nat.add_mul, Nat.add_assoc]

theorem countP_le_eq (os : List Nat) (o : Nat) :
    (os.countP fun q => decide (q ≤ o)) = (os.countP fun q => decide (q < o)) + os.count o := by
  induction os with
  | nil => rfl
  | cons q os ih =>
    simp only [List.countP_cons, List.count_cons, ih, decide_eq_true_eq, beq_iff_eq]
    by_cases hlt : q < o
    · simp [hlt, Nat.le_of_lt hlt, Nat.ne_of_lt hlt]
      omega
    · by_cases heq : q = o
      · subst heq
        simp
        omega
      · have hgt : ¬ q ≤ o := by omega
        simp [hlt, heq, hgt]

/-- An offset at which something is put in is pushed. -/
theorem lt_pushed (hn : 0 < n) (ho : o ∈ os) : o < pushed os n o := by
  have hcount : 0 < os.countP fun q => decide (q ≤ o) :=
    List.countP_pos_iff.2 ⟨o, ho, by simp⟩
  have := Nat.mul_pos hn hcount
  unfold pushed
  omega

/-- The characters before the places of such offsets are in the same order. -/
theorem pushed_sub_one_lt_iff {o' : Nat} (ho : o ∈ os) :
    pushed os 1 o - 1 < pushed os 1 o' - 1 ↔ o < o' := by
  have hlt : pushed os 1 o < pushed os 1 o' ↔ o < o' := (strictMono_pushed os 1).lt_iff_lt
  have := lt_pushed Nat.one_pos ho
  omega

/-- An offset is pushed by what is put in before it and by what is put in at it. -/
theorem pushed_eq (hos : os.Nodup) (t : Text) (o : Nat) :
    pushed os t.length o =
      o + t.length * (os.countP fun q => decide (q < o)) + (atEach os t o).length := by
  rw [pushed, countP_le_eq, Nat.mul_add, atEach]
  by_cases ho : o ∈ os
  · rw [if_pos ho, List.count_eq_one_of_mem hos ho]
    omega
  · rw [if_neg ho, List.count_eq_zero_of_not_mem ho]
    rfl

/-! ### Texts -/

theorem mem_weave {w : Nat → Text} {s : Text} {c : Char} (h : c ∈ weave w o s) :
    c ∈ s ∨ ∃ i, c ∈ w i := by
  induction s generalizing o with
  | nil => exact .inr ⟨o, h⟩
  | cons b s ih =>
    rcases List.mem_append.1 h with h | h
    · exact .inr ⟨o, h⟩
    · rcases List.mem_cons.1 h with rfl | h
      · exact .inl List.mem_cons_self
      · exact (ih h).imp_left (List.mem_cons_of_mem _)

/-- What is put in behind each of the texts that have been put in before is put in together with
them. The text put in at `i` lies from `start i` to `stop i`. -/
theorem weave_weave {v w x : Nat → Text} {start stop : Nat → Nat}
    (hlength : ∀ i, stop i = start i + (w i).length) (hnext : ∀ i, start (i + 1) = stop i + 1)
    (hwithin : ∀ i j, start i ≤ j → j < stop i → v j = []) (hbehind : ∀ i, v (stop i) = x i)
    (o : Nat) (s : Text) :
    weave v (start o) (weave w o s) = weave (fun i => w i ++ x i) o s := by
  have hkept : ∀ i, start o ≤ i → i < start o + (w o).length → v i = [] := fun i hle hlt =>
    hwithin o i hle (hlength o ▸ hlt)
  induction s generalizing o with
  | nil =>
    have hput := weave_append_left (t := []) hkept
    rw [List.append_nil, ← hlength, weave, hbehind] at hput
    rw [weave, hput, weave]
  | cons c s ih =>
    have hrest := ih (o + 1) fun i hle hlt => hwithin (o + 1) i hle (hlength (o + 1) ▸ hlt)
    rw [weave, weave_append_left hkept, ← hlength, weave, hbehind, ← hnext, hrest, weave,
      List.append_assoc]

/-- **A text put in piece by piece** is the same as the whole text put in at once. -/
theorem weave_atEach (hos : os.Nodup) (t u s : Text) :
    weave (atEach (os.map (pushed os t.length)) u) 0 (weave (atEach os t) 0 s) =
      weave (atEach os (t ++ u)) 0 s := by
  have hmono := strictMono_pushed os t.length
  let start (i : Nat) : Nat := i + t.length * os.countP fun q => decide (q < i)
  have hnext : ∀ i, start (i + 1) = pushed os t.length i + 1 := by
    intro i
    simp only [start, pushed, Nat.lt_succ_iff]
    omega
  have hmem : ∀ i, pushed os t.length i ∈ os.map (pushed os t.length) ↔ i ∈ os := fun i =>
    List.mem_map_of_injective hmono.injective
  have hwithin : ∀ i j, start i ≤ j → j < pushed os t.length i →
      atEach (os.map (pushed os t.length)) u j = [] := by
    intro i j hle hlt
    refine if_neg fun hj => ?_
    obtain ⟨q, -, rfl⟩ := List.mem_map.1 hj
    have hq : q < i := hmono.lt_iff_lt.1 hlt
    -- the offset before `i` is pushed to the place right before `start i`
    have hle' := hmono.monotone (Nat.le_sub_one_of_lt hq)
    have := hnext (i - 1)
    rw [Nat.sub_add_cancel (by omega)] at this
    omega
  have hbehind : ∀ i, atEach (os.map (pushed os t.length)) u (pushed os t.length i) =
      atEach os u i := by
    intro i
    simp only [atEach, hmem]
  have hstart : start 0 = 0 := by simp [start]
  have h := weave_weave (fun i => pushed_eq hos t i) hnext hwithin hbehind 0 s
  rw [show 0 + t.length * _ = start 0 from rfl, hstart] at h
  rw [h]
  refine weave_congr fun i _ => ?_
  unfold atEach
  split <;> rfl

/-- Where edits that all put in `a` characters and take out `r` have their texts in the new text. -/
theorem placed_of_alike {es : List OffsetEdit} {a r : Nat}
    (hsorted : es.Pairwise fun e f => e.start < f.start)
    (halike : ∀ e ∈ es, e.text.length = a ∧ e.stop - e.start = r) (added removed : Nat) :
    Plan.placed added removed es = es.map fun e =>
      (e, e.start + (added + a * (es.map (·.start)).countP fun q => decide (q < e.start)) -
        (removed + r * (es.map (·.start)).countP fun q => decide (q < e.start))) := by
  induction es generalizing added removed with
  | nil => rfl
  | cons e es ih =>
    obtain ⟨hbehind, hsorted⟩ := List.pairwise_cons.1 hsorted
    obtain ⟨⟨ha, hr⟩, halike⟩ := List.forall_mem_cons.1 halike
    have hfirst : ((e :: es).map (·.start)).countP (fun q => decide (q < e.start)) = 0 := by
      simp only [List.countP_eq_zero, List.map_cons, List.mem_cons, List.mem_map,
        decide_eq_true_eq]
      rintro q (rfl | ⟨f, hf, rfl⟩)
      · omega
      · have := hbehind f hf
        omega
    rw [Plan.placed, ih hsorted halike, List.map_cons, hfirst, ha, hr]
    refine congrArg₂ List.cons (by simp) (List.map_congr_left fun f hf => ?_)
    have hcount : ((e :: es).map (·.start)).countP (fun q => decide (q < f.start)) =
        ((es.map (·.start)).countP fun q => decide (q < f.start)) + 1 := by
      simp [hbehind f hf]
    rw [hcount, Nat.mul_add, Nat.mul_add]
    congr 1
    omega

namespace Document

variable {d : Document} {ps : List Position} {p : Position} {edits : List Edit} {plan : Plan}

/-- In a batch of edits that all put in `a` characters and take out `r`, the text of an edit is
moved by the edits that start before it. -/
theorem places_of_alike (hplan : d.plan edits = .ok plan) {a r : Nat}
    (halike : ∀ e ∈ edits, e.text.length = a ∧
      d.offsetOf e.range.stop - d.offsetOf e.range.start = r)
    (hnodup : (edits.map fun e => d.offsetOf e.range.start).Nodup) {i : Nat} {e : Edit}
    (hi : edits[i]? = some e) :
    let before := (edits.map fun e => d.offsetOf e.range.start).countP fun q =>
      decide (q < d.offsetOf e.range.start)
    plan.endOf? i = some (d.offsetOf e.range.start + a * before - r * before + a) := by
  intro before
  obtain ⟨-, -, rfl⟩ := plan_eq_ok_iff.1 hplan
  have halike' : ∀ f ∈ d.inOrder edits, f.text.length = a ∧ f.stop - f.start = r := by
    intro f hf
    obtain ⟨e, he, hstart, hstop, htext⟩ := exists_of_mem_inOrder hf
    rw [hstart, hstop, htext]
    exact halike e he
  obtain ⟨f, o, rfl, hmem, hfind⟩ := exists_placed_of_plan hplan hi
  rw [placed_of_alike (sorted_inOrder hnodup) halike'] at hmem
  obtain ⟨f, -, heq⟩ := List.mem_map.1 hmem
  obtain ⟨rfl, rfl⟩ := Prod.mk.inj heq
  have hcount : ((d.inOrder edits).map (·.start)).countP
      (fun q => decide (q < d.offsetOf e.range.start)) = before :=
    (d.perm_starts_inOrder edits).countP_eq _
  rw [Plan.endOf?, hfind, Option.map_some, (halike e (List.mem_of_getElem? hi)).1, hcount,
    Nat.zero_add, Nat.zero_add]

/-- The text of an edit that was made ends where its plan says. -/
theorem exists_endOf? {after : Document} (hfits : ∀ e ∈ edits, d.Fits e.range)
    (hedit : d.edit edits = .ok (after, plan)) {i : Nat} {e : Edit} (hi : edits[i]? = some e) :
    ∃ start, plan.endOf? i = some (start + e.text.length) ∧
      start + e.text.length ≤ after.size ∧
        cut after.text start (start + e.text.length) = e.text := by
  obtain ⟨hplan, -⟩ := edit_eq_ok_iff.1 hedit
  obtain ⟨f, start, rfl, hmem, hfind⟩ := exists_placed_of_plan hplan hi
  obtain ⟨front, back, hparts, hfront⟩ :=
    exists_parts_of_mem_placed [] (inSequence_of_plan hfits hplan) rfl hmem
  rw [List.nil_append, ← text_of_edit hfits hedit] at hparts
  refine ⟨start, by rw [Plan.endOf?, hfind]; rfl, ?_, ?_⟩
  · rw [size, hparts, List.length_append, List.length_append, hfront]
    dsimp only
    omega
  · rw [hparts, ← hfront]
    exact cut_append _ _ _ rfl

/-! ### Positions -/

/-- The document with the text `t` put in at each of the positions. -/
def withCopies (d : Document) (ps : List Position) (t : Text) : Document :=
  ofText (weave (atEach (ps.map d.offsetOf) t) 0 d.text)

/-- Where a position comes to be: behind the texts put in at it and before it. -/
def pushedTo (d : Document) (ps : List Position) (t : Text) (p : Position) : Position :=
  (d.withCopies ps t).positionAt (pushed (ps.map d.offsetOf) t.length (d.offsetOf p))

theorem withCopies_nil (d : Document) (ps : List Position) : d.withCopies ps [] = d := by
  have hnothing : atEach (ps.map d.offsetOf) [] = fun _ => [] := by
    funext o
    simp [atEach]
  refine eq_of_text ?_
  rw [withCopies, text_ofText, hnothing, weave_nil]

/-- Positions at which texts can be put in: the document has line feeds only, and the positions are
in bounds and differ from each other. -/
structure Distinct (d : Document) (ps : List Position) : Prop where
  /-- The only breaks of the text are line feeds. -/
  lineFeedsOnly : d.LineFeedsOnly
  /-- Every position is in bounds. -/
  inBounds : ∀ p ∈ ps, d.InBounds p
  /-- No two of them are the same. -/
  nodup : ps.Nodup

namespace Distinct

variable (h : d.Distinct ps)
include h

/-- Different positions have different offsets. -/
theorem nodup_offsets : (ps.map d.offsetOf).Nodup := by
  refine h.nodup.map_on fun p hp q hq heq => ?_
  rw [← h.lineFeedsOnly.positionAt_offsetOf (h.inBounds p hp), heq,
    h.lineFeedsOnly.positionAt_offsetOf (h.inBounds q hq)]

theorem insertedAt_eq (t : Text) :
    d.insertedAt (ps.map (Edit.insert · t)) = atEach (ps.map d.offsetOf) t := by
  have hnodup := h.nodup_offsets
  clear h
  funext o
  induction ps with
  | nil => rfl
  | cons p ps ih =>
    obtain ⟨hp, hnodup⟩ := List.nodup_cons.1 hnodup
    rw [List.map_cons, insertedAt_cons, ih hnodup, List.map_cons]
    by_cases heq : d.offsetOf p = o
    · subst heq
      simp [atEach, Edit.insert, Range.emptyAt, hp]
    · simp [atEach, Edit.insert, Range.emptyAt, heq, Ne.symm heq]

theorem inserts (t : Text) : ∀ e ∈ ps.map (Edit.insert · t), d.Inserts e :=
  List.forall_mem_map.2 fun p hp => ⟨h.inBounds p hp, rfl⟩

/-- **One batch puts the text in at every position.** -/
theorem edit_inserts (t : Text) :
    d.edit (ps.map (Edit.insert · t)) =
      .ok (d.withCopies ps t, ⟨d.inOrder (ps.map (Edit.insert · t))⟩) := by
  rw [edit_insertions (h.inserts t), inserted, h.insertedAt_eq]
  rfl

/-- Its plan knows where each text ends. -/
theorem endOf?_inserts (t : Text) {i : Nat} (hi : ps[i]? = some p) :
    (Plan.mk (d.inOrder (ps.map (Edit.insert · t)))).endOf? i =
      some (pushed (ps.map d.offsetOf) t.length (d.offsetOf p)) := by
  have hplan := (edit_eq_ok_iff.1 (h.edit_inserts t)).1
  have hstarts : (ps.map (Edit.insert · t)).map (fun e => d.offsetOf e.range.start) =
      ps.map d.offsetOf := by
    rw [List.map_map]
    rfl
  have hend := places_of_alike hplan (a := t.length) (r := 0)
    (List.forall_mem_map.2 fun p _ => ⟨rfl, Nat.sub_self _⟩)
    (hstarts ▸ h.nodup_offsets) (i := i) (e := Edit.insert p t)
    (by rw [List.getElem?_map, hi]; rfl)
  rw [hstarts] at hend
  have hmem : d.offsetOf p ∈ ps.map d.offsetOf :=
    List.mem_map_of_mem (List.mem_of_getElem? hi)
  rw [hend, pushed_eq h.nodup_offsets t, atEach, if_pos hmem, Nat.zero_mul, Nat.sub_zero]
  rfl

theorem fits_inserts (t : Text) : ∀ e ∈ ps.map (Edit.insert · t), d.Fits e.range :=
  List.forall_mem_map.2 fun p hp => ⟨h.inBounds p hp, h.inBounds p hp, Position.le_refl p⟩

/-- **The text stands right before the place to which a position is pushed.** -/
theorem exists_copy (t : Text) (hp : p ∈ ps) :
    ∃ start, pushed (ps.map d.offsetOf) t.length (d.offsetOf p) = start + t.length ∧
      start + t.length ≤ (d.withCopies ps t).size ∧
        cut (d.withCopies ps t).text start (start + t.length) = t := by
  obtain ⟨i, hi⟩ := List.mem_iff_getElem?.1 hp
  have hget : (ps.map (Edit.insert · t))[i]? = some (.insert p t) := by
    rw [List.getElem?_map, hi]
    rfl
  obtain ⟨start, hend, hsize, hcut⟩ := exists_endOf? (h.fits_inserts t) (h.edit_inserts t) hget
  rw [h.endOf?_inserts t hi] at hend
  exact ⟨start, Option.some.inj hend, hsize, hcut⟩

theorem offsetOf_pushedTo (t : Text) (hp : p ∈ ps) :
    (d.withCopies ps t).offsetOf (d.pushedTo ps t p) =
      pushed (ps.map d.offsetOf) t.length (d.offsetOf p) := by
  obtain ⟨start, hstart, hsize, -⟩ := h.exists_copy t hp
  exact offsetOf_positionAt (hstart ▸ hsize)

theorem map_offsetOf_pushedTo (t : Text) :
    (ps.map (d.pushedTo ps t)).map (d.withCopies ps t).offsetOf =
      (ps.map d.offsetOf).map (pushed (ps.map d.offsetOf) t.length) := by
  rw [List.map_map, List.map_map]
  exact List.map_congr_left fun p hp => h.offsetOf_pushedTo t hp

/-- The positions are still different from each other. -/
theorem withCopies {t : Text} (ht : ∀ c ∈ t, isLineBreak c → c = '\n') :
    (d.withCopies ps t).Distinct (ps.map (d.pushedTo ps t)) where
  lineFeedsOnly := by
    intro c hc
    rcases mem_weave hc with hc | ⟨i, hc⟩
    · exact h.lineFeedsOnly c hc
    · unfold atEach at hc
      split at hc
      · exact ht c hc
      · cases hc
  inBounds := List.forall_mem_map.2 fun p _ => inBounds_positionAt _
  nodup := by
    refine List.Nodup.of_map (d.withCopies ps t).offsetOf ?_
    rw [h.map_offsetOf_pushedTo]
    exact h.nodup_offsets.map (strictMono_pushed _ _).injective

/-! ### Putting texts in piece by piece -/

theorem map_pushedTo_nil : ps.map (d.pushedTo ps []) = ps := by
  have hstay : ∀ p ∈ ps, d.pushedTo ps [] p = id p := by
    intro p hp
    rw [pushedTo, withCopies_nil, List.length_nil, pushed_zero]
    exact h.lineFeedsOnly.positionAt_offsetOf (h.inBounds p hp)
  rw [List.map_congr_left hstay, List.map_id]

/-- **Two texts put in one after the other** are put in as one. -/
theorem withCopies_withCopies (t u : Text) :
    (d.withCopies ps t).withCopies (ps.map (d.pushedTo ps t)) u = d.withCopies ps (t ++ u) := by
  rw [Document.withCopies, h.map_offsetOf_pushedTo]
  exact congrArg ofText (weave_atEach h.nodup_offsets t u d.text)

/-- The positions are pushed by both. -/
theorem map_pushedTo_pushedTo (t u : Text) :
    (ps.map (d.pushedTo ps t)).map
        ((d.withCopies ps t).pushedTo (ps.map (d.pushedTo ps t)) u) =
      ps.map (d.pushedTo ps (t ++ u)) := by
  rw [List.map_map]
  refine List.map_congr_left fun p hp => ?_
  rw [Function.comp_apply, pushedTo, h.withCopies_withCopies, h.map_offsetOf_pushedTo,
    h.offsetOf_pushedTo t hp, pushed_add, ← List.length_append]
  rfl

end Distinct

end Document

end ModalEdit
