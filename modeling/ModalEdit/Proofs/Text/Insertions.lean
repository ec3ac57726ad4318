import ModalEdit.Proofs.Text.Rebuild

/-!
# Batches that only put text in

A batch of insertions is always accepted, and nothing of the old text is lost: the new text is the
old one with the texts of the batch put in before the characters they point at, and those that point
at the same character one after the other in the order of the batch (`Document.edit_insertions`).

So the order of such a batch matters only where two insertions share a place. All orders lead to the
same text if and only if any two texts that are put in at one place give the same text one way
around as the other (`Document.inserted_perm_iff`). If no two share a place, the text of each begins
right behind what becomes of the text in front of it (`Document.startOf?_of_insertions`).
-/

namespace ModalEdit

/-- A text whose first character is at the offset `o`, with the text `w i` put in before the
character at each offset `i`, and the last one behind all characters. -/
def weave (w : Nat → Text) (o : Nat) : Text → Text
  | [] => w o
  | c :: t => w o ++ c :: weave w (o + 1) t

/-- The same without what is put in behind all characters. -/
def weaveTo (w : Nat → Text) (o : Nat) : Text → Text
  | [] => []
  | c :: t => w o ++ c :: weaveTo w (o + 1) t

/-- The texts of the edits that start at an offset, one after the other. -/
def textsAt (o : Nat) (es : List OffsetEdit) : Text :=
  (es.filter fun e => e.start == o).flatMap (·.text)

variable {w w' : Nat → Text} {o : Nat} {t : Text} {es es' : List OffsetEdit}

/-! ### Weaving -/

theorem weave_congr (h : ∀ i, o ≤ i → w i = w' i) : weave w o t = weave w' o t := by
  induction t generalizing o with
  | nil => exact h o (Nat.le_refl o)
  | cons c t ih => rw [weave, weave, h o (Nat.le_refl o), ih fun i hi => h i (by omega)]

theorem weave_nil (o : Nat) (t : Text) : weave (fun _ => []) o t = t := by
  induction t generalizing o with
  | nil => rfl
  | cons c t ih => rw [weave, ih, List.nil_append]

/-- What is put in first can be put in alone. -/
theorem weave_append {x : Text} (hfirst : w o = x ++ w' o) (h : ∀ i, o < i → w i = w' i) :
    weave w o t = x ++ weave w' o t := by
  cases t with
  | nil => exact hfirst
  | cons c t =>
    rw [weave, weave, hfirst, weave_congr fun i hi => h i (by omega), List.append_assoc]

/-- The new text is what becomes of any front of the old one and what becomes of the rest. -/
theorem weave_append_eq (w : Nat → Text) (o : Nat) (pre t : Text) :
    weave w o (pre ++ t) = weaveTo w o pre ++ weave w (o + pre.length) t := by
  induction pre generalizing o with
  | nil => rfl
  | cons c pre ih =>
    rw [List.cons_append, weave, ih, weaveTo, List.append_assoc, List.cons_append, List.length_cons,
      Nat.add_right_comm, Nat.add_assoc]

theorem weaveTo_append (w : Nat → Text) (o : Nat) (pre t : Text) :
    weaveTo w o (pre ++ t) = weaveTo w o pre ++ weaveTo w (o + pre.length) t := by
  induction pre generalizing o with
  | nil => rfl
  | cons c pre ih =>
    rw [List.cons_append, weaveTo, ih, weaveTo, List.append_assoc, List.cons_append,
      List.length_cons, Nat.add_right_comm, Nat.add_assoc]

theorem weaveTo_congr (h : ∀ i, o ≤ i → w i = w' i) : weaveTo w o t = weaveTo w' o t := by
  induction t generalizing o with
  | nil => rfl
  | cons c t ih => rw [weaveTo, weaveTo, h o (Nat.le_refl o), ih fun i hi => h i (by omega)]

/-- With another character behind it the text takes in what is put in behind it. -/
theorem weaveTo_concat (w : Nat → Text) (o : Nat) (t : Text) (c : Char) :
    weaveTo w o (t ++ [c]) = weave w o t ++ [c] := by
  have h := weave_append_eq w o t []
  rw [List.append_nil, weave] at h
  rw [weaveTo_append, h, List.append_assoc]
  rfl

/-- Where nothing is put in the text is kept. -/
theorem weaveTo_eq_self (h : ∀ i, o ≤ i → i < o + t.length → w i = []) : weaveTo w o t = t := by
  induction t generalizing o with
  | nil => rfl
  | cons c t ih =>
    rw [List.length_cons] at h
    rw [weaveTo, h o (Nat.le_refl o) (by omega), ih fun i hi hlt => h i (by omega) (by omega),
      List.nil_append]

/-- What is put in first stands in front, if that is not behind all characters. -/
theorem weaveTo_of_first (hne : t ≠ []) (h : ∀ i, o < i → i < o + t.length → w i = []) :
    weaveTo w o t = w o ++ t := by
  obtain ⟨c, t, rfl⟩ := List.exists_cons_of_ne_nil hne
  rw [List.length_cons] at h
  rw [weaveTo, weaveTo_eq_self fun i hi hlt => h i (by omega) (by omega)]

/-- Up to the first place where something is put in the text is kept. -/
theorem weave_append_left {pre : Text} (h : ∀ i, o ≤ i → i < o + pre.length → w i = []) :
    weave w o (pre ++ t) = pre ++ weave w (o + pre.length) t := by
  rw [weave_append_eq, weaveTo_eq_self h]

/-- What has been put in at each place can be read off the new text if its length is known. -/
theorem weave_inj (hlength : ∀ i, (w i).length = (w' i).length) :
    weave w o t = weave w' o t ↔ ∀ i, o ≤ i → i ≤ o + t.length → w i = w' i := by
  induction t generalizing o with
  | nil =>
    refine ⟨fun h i hle hge => ?_, fun h => h o (Nat.le_refl o) (Nat.le_refl o)⟩
    obtain rfl : i = o := Nat.le_antisymm hge hle
    exact h
  | cons c t ih =>
    rw [List.length_cons]
    constructor
    · intro h i hle hge
      obtain ⟨hfirst, hrest⟩ := List.append_inj h (hlength o)
      rcases Nat.eq_or_lt_of_le hle with rfl | hlt
      · exact hfirst
      · exact ih.1 (List.cons.inj hrest).2 i hlt (by omega)
    · intro h
      rw [weave, weave, h o (Nat.le_refl o) (by omega),
        ih.2 fun i hle hge => h i (by omega) (by omega)]

/-! ### Insertions in sequence -/

theorem textsAt_cons (e : OffsetEdit) (o : Nat) :
    textsAt o (e :: es) = (if e.start = o then e.text else []) ++ textsAt o es := by
  by_cases h : e.start = o <;> simp [textsAt, h]

theorem textsAt_of_lt (h : ∀ e ∈ es, o < e.start) : textsAt o es = [] := by
  have hnone : es.filter (fun e => e.start == o) = [] := by
    refine List.filter_eq_nil_iff.2 fun e he => ?_
    have := h e he
    simp only [beq_iff_eq]
    omega
  rw [textsAt, hnone]
  rfl

/-- **Insertions put their texts before the characters they point at.** -/
theorem rebuild_insertions {pos : Nat} (h : InSequence t.length pos es)
    (hinserts : ∀ e ∈ es, e.stop = e.start) :
    rebuild t pos es = weave (fun o => textsAt o es) pos (t.drop pos) := by
  induction es generalizing pos with
  | nil => exact (weave_nil pos _).symm
  | cons e es ih =>
    obtain ⟨hstart, -, hrest⟩ := h
    obtain ⟨he, hinserts⟩ := List.forall_mem_cons.1 hinserts
    have hlen : (cut t pos e.start).length = e.start - pos :=
      length_cut (he ▸ hrest.le_size)
    have hbehind : ∀ f ∈ es, e.start ≤ f.start := he ▸ hrest.le_start
    -- Nothing is put in before the first edit.
    have hkept : ∀ i, pos ≤ i → i < pos + (cut t pos e.start).length →
        textsAt i (e :: es) = [] := by
      intro i _ hi
      refine textsAt_of_lt (List.forall_mem_cons.2 ⟨by omega, fun f hf => ?_⟩)
      have := hbehind f hf
      omega
    have hsum : pos + (cut t pos e.start).length = e.start := by omega
    have hput : weave (fun o => textsAt o (e :: es)) e.start (t.drop e.start) =
        e.text ++ weave (fun o => textsAt o es) e.start (t.drop e.start) := by
      refine weave_append ?_ fun i hi => ?_
      · rw [textsAt_cons, if_pos rfl]
      · rw [textsAt_cons, if_neg (by omega), List.nil_append]
    rw [rebuild, ← cut_append_drop hstart, weave_append_left hkept, hsum, hput, he,
      ih (he ▸ hrest) hinserts, List.append_assoc]

/-- **Where the text of an insertion begins**: behind what becomes of the text in front of it. -/
theorem eq_length_weaveTo_of_placed {pos added place : Nat} {e : OffsetEdit}
    (h : InSequence t.length pos es) (hinserts : ∀ e ∈ es, e.stop = e.start)
    (hsorted : es.Pairwise fun e f => e.start < f.start)
    (he : (e, place) ∈ Plan.placed added 0 es) :
    place = pos + added + (weaveTo (fun o => textsAt o es) pos (cut t pos e.start)).length := by
  induction es generalizing pos added with
  | nil => cases he
  | cons f es ih =>
    obtain ⟨hstart, -, hrest⟩ := h
    obtain ⟨hf, hinserts⟩ := List.forall_mem_cons.1 hinserts
    obtain ⟨hbehind, hsorted⟩ := List.pairwise_cons.1 hsorted
    have hlen : (cut t pos f.start).length = f.start - pos := length_cut (hf ▸ hrest.le_size)
    -- Nothing is put in before the first edit.
    have hkept : weaveTo (fun o => textsAt o (f :: es)) pos (cut t pos f.start) =
        cut t pos f.start := by
      refine weaveTo_eq_self fun i _ hi => textsAt_of_lt (List.forall_mem_cons.2 ⟨by omega, ?_⟩)
      intro g hg
      have := hbehind g hg
      omega
    rw [Plan.placed, hf, Nat.sub_self, Nat.add_zero, Nat.sub_zero] at he
    rcases List.mem_cons.1 he with heq | he
    · cases heq
      rw [hkept, hlen]
      omega
    · have hmem : e ∈ es := by
        rw [← Document.map_fst_placed (added + f.text.length) 0 es]
        exact List.mem_map_of_mem he
      have hlt := hbehind e hmem
      have hne : cut t f.start e.start ≠ [] := by
        have hstop := hrest.stop_le_size e hmem
        rw [Ne, ← List.length_eq_zero_iff, length_cut (hinserts e hmem ▸ hstop)]
        omega
      have hfirst : weaveTo (fun o => textsAt o (f :: es)) f.start (cut t f.start e.start) =
          f.text ++ weaveTo (fun o => textsAt o es) f.start (cut t f.start e.start) := by
        obtain ⟨c, u, hu⟩ := List.exists_cons_of_ne_nil hne
        have hothers : weaveTo (fun o => textsAt o (f :: es)) (f.start + 1) u =
            weaveTo (fun o => textsAt o es) (f.start + 1) u := by
          refine weaveTo_congr fun i hi => ?_
          rw [textsAt_cons, if_neg (by omega), List.nil_append]
        rw [hu, weaveTo, weaveTo, hothers, textsAt_cons, if_pos rfl, List.append_assoc]
      have hplace := ih (hf ▸ hrest) hinserts hsorted he
      have hsum : pos + (f.start - pos) = f.start := by omega
      rw [← cut_append_cut hstart (Nat.le_of_lt hlt), weaveTo_append, hkept, hlen, hsum, hfirst,
        List.length_append, List.length_append, hlen, hplace]
      omega

/-- Sorting keeps the order of edits at the same place. -/
theorem textsAt_mergeSort (o : Nat) (es : List OffsetEdit) :
    textsAt o (es.mergeSort fun a b => decide (a.start ≤ b.start)) = textsAt o es := by
  let atO := fun e : OffsetEdit => e.start == o
  have hperm := List.mergeSort_perm es fun a b => decide (a.start ≤ b.start)
  have hsame : (es.filter atO).Pairwise fun a b => decide (a.start ≤ b.start) = true := by
    refine List.pairwise_of_forall_mem_list fun a ha b hb => ?_
    have ha : a.start = o := by simpa [atO] using (List.mem_filter.1 ha).2
    have hb : b.start = o := by simpa [atO] using (List.mem_filter.1 hb).2
    rw [ha, hb, decide_eq_true_eq]
  have hsub := List.sublist_mergeSort OffsetEdit.starts_trans OffsetEdit.starts_total hsame
    List.filter_sublist
  have hfiltered := hsub.filter atO
  rw [List.filter_filter] at hfiltered
  simp only [Bool.and_self] at hfiltered
  have heq := hfiltered.eq_of_length (hperm.filter atO).length_eq.symm
  exact congrArg (List.flatMap (·.text)) heq.symm

/-! ### Batches of insertions -/

namespace Document

variable {d : Document} {edits edits' : List Edit}

/-- The edit only puts text in, at a place of the document. -/
def Inserts (d : Document) (e : Edit) : Prop :=
  d.InBounds e.range.start ∧ e.range.stop = e.range.start

/-- What the edits of a batch put in at an offset, in the order of the batch. -/
def insertedAt (d : Document) (edits : List Edit) (o : Nat) : Text :=
  (edits.filter fun e => d.offsetOf e.range.start == o).flatMap (·.text)

/-- The text of the document with the texts of a batch put in. -/
def inserted (d : Document) (edits : List Edit) : Text := weave (d.insertedAt edits) 0 d.text

/-- Two insertions at the same place give the same text in either order. -/
def Interchangeable (d : Document) (a b : Edit) : Prop :=
  d.offsetOf a.range.start = d.offsetOf b.range.start → a.text ++ b.text = b.text ++ a.text

instance : Std.Symm d.Interchangeable := ⟨fun _ _ h hplace => (h hplace.symm).symm⟩

theorem insertedAt_cons (e : Edit) (o : Nat) :
    d.insertedAt (e :: edits) o =
      (if d.offsetOf e.range.start = o then e.text else []) ++ d.insertedAt edits o := by
  by_cases h : d.offsetOf e.range.start = o <;> simp [insertedAt, h]

theorem inserted_nil (d : Document) : d.inserted [] = d.text := weave_nil 0 d.text

/-- What is put in at a position is what the edits at this position put in. -/
theorem insertedAt_offsetOf (hd : d.LineFeedsOnly) (h : ∀ e ∈ edits, d.Inserts e)
    {p : Position} (hp : d.InBounds p) :
    d.insertedAt edits (d.offsetOf p) =
      (edits.filter fun e => e.range.start == p).flatMap (·.text) := by
  have hsame : edits.filter (fun e => d.offsetOf e.range.start == d.offsetOf p) =
      edits.filter fun e => e.range.start == p := by
    refine List.filter_congr fun e he => ?_
    rw [Bool.eq_iff_iff, beq_iff_eq, beq_iff_eq]
    refine ⟨fun heq => ?_, fun heq => congrArg _ heq⟩
    rw [← hd.positionAt_offsetOf (h e he).1, heq, hd.positionAt_offsetOf hp]
  rw [insertedAt, hsame]

theorem textsAt_offsetEdits (k o : Nat) (edits : List Edit) :
    textsAt o (d.offsetEdits k edits) = d.insertedAt edits o := by
  induction edits generalizing k with
  | nil => rfl
  | cons e es ih => rw [offsetEdits, textsAt_cons, insertedAt_cons, ih]

theorem Inserts.fits {e : Edit} (h : d.Inserts e) : d.Fits e.range :=
  ⟨h.1, h.2 ▸ h.1, h.2 ▸ Position.le_refl _⟩

theorem stop_eq_start_inOrder (h : ∀ e ∈ edits, d.Inserts e) :
    ∀ e ∈ d.inOrder edits, e.stop = e.start := by
  intro e he
  obtain ⟨e', he', hstart, hstop, -⟩ := exists_of_mem_inOrder he
  rw [hstart, hstop, (h e' he').2]

theorem textsAt_inOrder (edits : List Edit) :
    (fun o => textsAt o (d.inOrder edits)) = d.insertedAt edits := by
  funext o
  rw [inOrder, textsAt_mergeSort, textsAt_offsetEdits]

/-- **A batch of insertions is made**, and the texts of the batch are put in. -/
theorem edit_insertions (h : ∀ e ∈ edits, d.Inserts e) :
    d.edit edits = .ok (ofText (d.inserted edits), ⟨d.inOrder edits⟩) := by
  have hfits : ∀ e ∈ edits, d.Fits e.range := fun e he => (h e he).fits
  have hplan := plan_of_insertions h
  have hseq := inSequence_of_plan hfits hplan
  refine edit_eq_ok_iff.2 ⟨hplan, ?_⟩
  rw [Plan.apply, foldr_splice hseq, rebuild_insertions hseq (stop_eq_start_inOrder h),
    textsAt_inOrder]
  rfl

theorem length_insertedAt_of_perm (h : edits.Perm edits') (o : Nat) :
    (d.insertedAt edits o).length = (d.insertedAt edits' o).length :=
  ((h.filter _).flatMap_right _).length_eq

/-- Two orders of a batch give the same text when they put the same in at every place. -/
theorem inserted_eq_iff_of_perm (h : edits.Perm edits') :
    d.inserted edits = d.inserted edits' ↔
      ∀ o ≤ d.size, d.insertedAt edits o = d.insertedAt edits' o := by
  rw [inserted, inserted, weave_inj (length_insertedAt_of_perm h)]
  simp only [Nat.zero_le, true_implies, Nat.zero_add]
  rfl

theorem insertedAt_eq_of_perm (h : edits.Perm edits')
    (hpairs : edits.Pairwise d.Interchangeable) (o : Nat) :
    d.insertedAt edits o = d.insertedAt edits' o := by
  have hall : ∀ a ∈ edits, ∀ b ∈ edits, d.Interchangeable a b :=
    hpairs.forall_of_forall fun _ _ _ => rfl
  -- Only texts that are put in at this place have to change places.
  have hstep : ∀ a ∈ edits.filter (fun e => d.offsetOf e.range.start == o),
      ∀ b ∈ edits.filter (fun e => d.offsetOf e.range.start == o), ∀ t : Text,
        b.text ++ (a.text ++ t) = a.text ++ (b.text ++ t) := by
    intro a ha b hb t
    obtain ⟨ha, hao⟩ := List.mem_filter.1 ha
    obtain ⟨hb, hbo⟩ := List.mem_filter.1 hb
    simp only [beq_iff_eq] at hao hbo
    rw [← List.append_assoc, hall b hb a ha (hbo.trans hao.symm), List.append_assoc]
  have hfold : ∀ es : List Edit, es.flatMap (·.text) =
      es.foldr (fun e t => e.text ++ t) [] := by
    intro es
    induction es with
    | nil => rfl
    | cons e es ih => rw [List.flatMap_cons, ih, List.foldr_cons]
  rw [insertedAt, insertedAt, hfold, hfold]
  exact (h.filter _).foldr_eq' hstep []

/-- **When the order of insertions does not matter**: exactly when any two of them at the same place
can change places. -/
theorem inserted_perm_iff :
    (∀ edits', edits'.Perm edits → d.inserted edits' = d.inserted edits) ↔
      edits.Pairwise d.Interchangeable := by
  constructor
  · intro h
    refine List.pairwise_iff_forall_sublist.2 fun {a b} hsub hplace => ?_
    obtain ⟨rest, hperm⟩ := hsub.exists_perm_append
    have hswap : (a :: b :: rest).Perm (b :: a :: rest) := .swap b a rest
    have heq : d.inserted (a :: b :: rest) = d.inserted (b :: a :: rest) :=
      (h _ hperm.symm).trans (h _ (hswap.symm.trans hperm.symm)).symm
    have hat := (inserted_eq_iff_of_perm hswap).1 heq _ (d.offsetOf_le_size a.range.start)
    simp only [insertedAt_cons, ↓reduceIte, hplace] at hat
    rw [← List.append_assoc, ← List.append_assoc] at hat
    exact List.append_cancel_right hat
  · intro hpairs edits' hperm
    exact (inserted_eq_iff_of_perm hperm).2 fun o _ =>
      (insertedAt_eq_of_perm hperm.symm hpairs o).symm

/-! ### Where the texts of a batch are -/

/-- Where the edits of a batch start. -/
theorem perm_starts_inOrder (d : Document) (edits : List Edit) :
    ((d.inOrder edits).map (·.start)).Perm (edits.map fun e => d.offsetOf e.range.start) := by
  have hperm := (d.perm_parts_inOrder edits).map fun part => part.1
  rwa [List.map_map, List.map_map] at hperm

/-- If no two of them start at the same place, each starts behind the one before. -/
theorem sorted_inOrder (hnodup : (edits.map fun e => d.offsetOf e.range.start).Nodup) :
    (d.inOrder edits).Pairwise fun e f => e.start < f.start := by
  have hne : (d.inOrder edits).Pairwise fun e f => e.start ≠ f.start :=
    List.pairwise_map.1 ((d.perm_starts_inOrder edits).nodup_iff.2 hnodup)
  exact ((pairwise_start_inOrder edits).and hne).imp fun ⟨hle, hne⟩ => by omega

/-- **Where the text of an insertion begins**, if no two are at the same place: behind what becomes
of the text in front of it. -/
theorem startOf?_of_insertions (h : ∀ e ∈ edits, d.Inserts e)
    (hnodup : (edits.map fun e => d.offsetOf e.range.start).Nodup) {i : Nat} {e : Edit}
    (hi : edits[i]? = some e) :
    (Plan.mk (d.inOrder edits)).startOf? i =
      some (weaveTo (d.insertedAt edits) 0 (d.text.take (d.offsetOf e.range.start))).length := by
  have hplan := plan_of_insertions h
  have hfits : ∀ e ∈ edits, d.Fits e.range := fun e he => (h e he).fits
  obtain ⟨f, place, rfl, hmem, hfind⟩ := exists_placed_of_plan hplan hi
  have hplace := eq_length_weaveTo_of_placed (inSequence_of_plan hfits hplan)
    (stop_eq_start_inOrder h) (sorted_inOrder hnodup) hmem
  rw [textsAt_inOrder, Nat.zero_add] at hplace
  rw [Plan.startOf?, hfind, Option.map_some, hplace]
  rfl

end Document

end ModalEdit
