import Mathlib.Order.Monotone.Basic
import ModalEdit.Proofs.Text.Contents
import ModalEdit.Proofs.Text.Insertions

/-!
# Lines put in between lines

New lines come right after a line when they are put in at its end, with a line feed in front of each
of them, and right before it when they are put in at its start, with a line feed behind each.
`Document.Splices` says that this is all that is put in. What becomes of the text is then told line
by line (`Document.Splices.text`), and so is where the new lines of a line begin
(`Document.Splices.positionAt_first`).
-/

namespace ModalEdit.Document

variable {d after : Document} {below : Bool} {new : Nat → List Text} {w : Nat → Text} {i k : Nat}

/-- A line with new lines right after it or right before it. -/
def splicedLine (d : Document) (below : Bool) (new : Nat → List Text) (i : Nat) : List Text :=
  if below then d.content i :: new i else new i ++ [d.content i]

/-- The first `k` lines with the new lines of each. -/
def spliced (d : Document) (below : Bool) (new : Nat → List Text) (k : Nat) : List Text :=
  (List.range k).flatMap (d.splicedLine below new)

/-- The lines before the new lines of a line. -/
def splicedBefore (d : Document) (below : Bool) (new : Nat → List Text) (i : Nat) : List Text :=
  d.spliced below new i ++ if below then [d.content i] else []

/-- The line on which the new lines of a line begin. -/
def splicedFirst (d : Document) (below : Bool) (new : Nat → List Text) (i : Nat) : Nat :=
  (d.splicedBefore below new i).length

/-- Where the new lines of a line are put in. -/
def splicePlace (d : Document) (below : Bool) (i : Nat) : Position :=
  if below then d.lineEnd i else ⟨i, 0⟩

/-- The texts `w` that are put in before the characters at each offset bring new lines right after
or right before each line, and nothing else. -/
structure Splices (d : Document) (below : Bool) (new : Nat → List Text) (w : Nat → Text) :
    Prop where
  /-- At the end of a line there are its new lines, with a line feed in front of each. -/
  atEnd : below = true → ∀ i ≤ d.lastLine,
    w (d.offsetOf (d.lineEnd i)) ++ ['\n'] = '\n' :: ended (new i)
  /-- At the start of a line there are its new lines, with a line feed behind each. -/
  atStart : below = false → ∀ i ≤ d.lastLine, w (d.offsetOf ⟨i, 0⟩) = ended (new i)
  /-- There is nothing at other places. -/
  other : ∀ p, d.InBounds p → p ≠ d.splicePlace below p.line → w (d.offsetOf p) = []

@[simp] theorem line_splicePlace (d : Document) (below : Bool) (i : Nat) :
    (d.splicePlace below i).line = i := by
  cases below <;> rfl

theorem inBounds_splicePlace (hi : i ≤ d.lastLine) : d.InBounds (d.splicePlace below i) := by
  cases below with
  | true => exact inBounds_lineEnd (lt_lineCount hi)
  | false => exact inBounds_lineStart (lt_lineCount hi)

theorem spliced_succ (d : Document) (below : Bool) (new : Nat → List Text) (k : Nat) :
    d.spliced below new (k + 1) = d.spliced below new k ++ d.splicedLine below new k := by
  rw [spliced, List.range_succ, List.flatMap_append, List.flatMap_singleton, spliced]

theorem prefix_spliced_of_le (hik : i ≤ k) : d.spliced below new i <+: d.spliced below new k := by
  induction hik with
  | refl => exact List.prefix_rfl
  | step _ ih => exact ih.trans (spliced_succ d below new _ ▸ List.prefix_append _ _)

/-- Behind the lines before them there are the new lines of a line. -/
theorem prefix_spliced (below : Bool) (new : Nat → List Text) (hi : i ≤ d.lastLine) :
    d.splicedBefore below new i ++ new i <+: d.spliced below new d.lineCount := by
  refine List.IsPrefix.trans ?_ (prefix_spliced_of_le (lt_lineCount hi))
  rw [splicedBefore, spliced_succ, List.append_assoc, List.prefix_append_right_inj, splicedLine]
  cases below with
  | true => exact List.prefix_rfl
  | false => exact List.prefix_append _ _

theorem splicedFirst_lt (below : Bool) (hi : i ≤ d.lastLine) (hne : new i ≠ []) :
    d.splicedFirst below new i < (d.spliced below new d.lineCount).length := by
  have hle := (prefix_spliced below new hi).length_le
  have hpos := List.length_pos_iff.2 hne
  rw [List.length_append] at hle
  rw [splicedFirst]
  omega

/-- The new lines of a line are lines of the new text. -/
theorem splicedFirst_le (hcontents : after.contents = d.spliced below new d.lineCount)
    (hi : i ≤ d.lastLine) (hne : new i ≠ []) : d.splicedFirst below new i ≤ after.lastLine := by
  have hlt := splicedFirst_lt below hi hne
  rw [← hcontents, length_contents, ← after.lastLine_add_one] at hlt
  omega

/-- The first of the new lines of a line. -/
theorem content_splicedFirst (hcontents : after.contents = d.spliced below new d.lineCount)
    (hi : i ≤ d.lastLine) {l : Text} {ls : List Text} (hnew : new i = l :: ls) :
    after.content (d.splicedFirst below new i) = l := by
  obtain ⟨rest, hrest⟩ := prefix_spliced below new hi
  have hle := splicedFirst_le hcontents hi (hnew ▸ List.cons_ne_nil l ls)
  have hget := getElem?_contents (lt_lineCount hle)
  rw [hcontents, ← hrest, hnew, List.append_assoc, splicedFirst,
    List.getElem?_append_right (Nat.le_refl _), Nat.sub_self] at hget
  exact (Option.some.inj hget).symm

theorem strictMono_splicedFirst (d : Document) (below : Bool) (new : Nat → List Text) :
    StrictMono (d.splicedFirst below new) := by
  refine strictMono_nat_of_lt_succ fun i => ?_
  rw [splicedFirst, splicedFirst, splicedBefore, splicedBefore, spliced_succ, splicedLine]
  cases below <;> simp

theorem isLine_of_mem_spliced (below : Bool) (hd : d.LineFeedsOnly)
    (hnew : ∀ i, ∀ l ∈ new i, IsLine l) (hk : k ≤ d.lineCount) :
    ∀ l ∈ d.spliced below new k, IsLine l := by
  intro l hl
  obtain ⟨i, hi, hl⟩ := List.mem_flatMap.1 hl
  have hcontent : IsLine (d.content i) :=
    isLine_content hd (Nat.lt_of_lt_of_le (List.mem_range.1 hi) hk)
  cases below with
  | true =>
    rcases List.mem_cons.1 hl with rfl | hl
    · exact hcontent
    · exact hnew i l hl
  | false =>
    rcases List.mem_append.1 hl with hl | hl
    · exact hnew i l hl
    · exact List.mem_singleton.1 hl ▸ hcontent

namespace Splices

variable (h : d.Splices below new w)
include h

/-- Nothing is put in at another place of a line. -/
theorem eq_nil (hi : i ≤ d.lastLine) {c : Nat} (hc : c ≤ d.lineLen i)
    (hne : c ≠ (d.splicePlace below i).col) : w (d.lineStart i + c) = [] := by
  have hin : d.InBounds ⟨i, c⟩ := ⟨lt_lineCount hi, hc⟩
  have hw := h.other ⟨i, c⟩ hin fun heq => hne (congrArg Position.col heq)
  rwa [offsetOf_of_inBounds hin] at hw

/-- Up to its end a line is kept if the new lines come after it. -/
theorem weaveTo_content (hbelow : below = true) (hi : i ≤ d.lastLine) :
    weaveTo w (d.lineStart i) (d.content i) = d.content i := by
  refine weaveTo_eq_self fun x hle hlt => ?_
  have hlen : (d.content i).length = d.lineLen i := rfl
  obtain ⟨c, rfl⟩ := Nat.exists_eq_add_of_le hle
  refine h.eq_nil hi (by omega) ?_
  rw [splicePlace, if_pos hbelow, lineEnd]
  dsimp only
  omega

/-- A line and its line feed with what is put in. -/
theorem weaveTo_line (hi : i ≤ d.lastLine) :
    weaveTo w (d.lineStart i) (d.content i ++ ['\n']) = ended (d.splicedLine below new i) := by
  have hlen : (d.content i).length = d.lineLen i := rfl
  cases below with
  | true =>
    -- The new lines stand between the line and its line feed.
    have hend : d.offsetOf (d.lineEnd i) = d.lineStart i + (d.content i).length :=
      offsetOf_of_inBounds (inBounds_lineEnd (lt_lineCount hi))
    have hlast : weaveTo w (d.lineStart i + (d.content i).length) ['\n'] =
        '\n' :: ended (new i) := by
      rw [← h.atEnd rfl i hi, hend]
      rfl
    rw [weaveTo_append, h.weaveTo_content rfl hi, hlast, splicedLine, if_pos rfl, ended_cons]
  | false =>
    -- The new lines stand in front of the line.
    have hfirst : w (d.lineStart i) = ended (new i) := by
      rw [← offsetOf_lineStart hi]
      exact h.atStart rfl i hi
    have hrest : ∀ x, d.lineStart i < x → x < d.lineStart i + (d.content i ++ ['\n']).length →
        w x = [] := by
      intro x hgt hlt
      rw [List.length_append, List.length_singleton] at hlt
      obtain ⟨c, rfl⟩ := Nat.exists_eq_add_of_le (Nat.le_of_lt hgt)
      have hne : c ≠ 0 := by omega
      exact h.eq_nil hi (by omega) hne
    rw [weaveTo_of_first (by simp) hrest, hfirst, splicedLine, if_neg Bool.false_ne_true,
      ended_append, ended_cons, ended_nil]

/-- Whole lines with what is put in. -/
theorem weaveTo_ended (hd : d.LineFeedsOnly) (hk : k ≤ d.lineCount) :
    weaveTo w 0 (ended (d.contents.take k)) = ended (d.spliced below new k) := by
  have hcount := d.lastLine_add_one
  induction k with
  | zero => rfl
  | succ k ih =>
    have hle : k ≤ d.lastLine := by omega
    have hline := h.weaveTo_line hle
    rw [lineStart_eq_length_ended hd hle] at hline
    rw [ended_take_succ hle, List.append_assoc, weaveTo_append, ih (by omega), Nat.zero_add, hline,
      spliced_succ, ended_append]

/-- **The text with the new lines** is its lines with the new lines of each. -/
theorem text (hd : d.LineFeedsOnly) :
    weave w 0 d.text ++ ['\n'] = ended (d.spliced below new d.lineCount) := by
  rw [← weaveTo_concat, text_append_newline hd, ← h.weaveTo_ended hd (Nat.le_refl _),
    ← length_contents, List.take_length]

/-- What becomes of the text before the new lines of a line. Below a line, the line feed behind it
is part of what is put in. -/
theorem weaveTo_place (hd : d.LineFeedsOnly) (hi : i ≤ d.lastLine) :
    weaveTo w 0 (d.text.take (d.offsetOf (d.splicePlace below i))) ++
        (if below then ['\n'] else []) = ended (d.splicedBefore below new i) := by
  have hbefore := h.weaveTo_ended hd (Nat.le_of_lt (lt_lineCount hi))
  cases below with
  | true =>
    have htake : d.text.take (d.offsetOf (d.lineEnd i)) =
        ended (d.contents.take i) ++ d.content i := by
      have hline := take_lineEnd hd hi
      rw [ended_take_succ hi] at hline
      exact List.append_cancel_right hline
    have hlength := lineStart_eq_length_ended hd hi
    rw [splicePlace, if_pos rfl, if_pos rfl, splicedBefore, if_pos rfl, htake, weaveTo_append,
      hbefore, Nat.zero_add, ← hlength, h.weaveTo_content rfl hi, ended_append, ended_cons,
      ended_nil, List.append_assoc]
  | false =>
    rw [splicePlace, if_neg Bool.false_ne_true, if_neg Bool.false_ne_true, splicedBefore,
      if_neg Bool.false_ne_true, List.append_nil, List.append_nil, offsetOf_lineStart hi,
      take_lineStart hd hi, hbefore]

/-- **Where the new lines of a line begin.** -/
theorem lineStart_first (hd : d.LineFeedsOnly) (hafter : after.LineFeedsOnly)
    (hcontents : after.contents = d.spliced below new d.lineCount) (hi : i ≤ d.lastLine)
    (hne : new i ≠ []) :
    (weaveTo w 0 (d.text.take (d.offsetOf (d.splicePlace below i)))).length + below.toNat =
      after.lineStart (d.splicedFirst below new i) := by
  have hplace := congrArg List.length (h.weaveTo_place hd hi)
  have hoffset : (weaveTo w 0 (d.text.take (d.offsetOf (d.splicePlace below i)))).length +
      below.toNat = (ended (d.splicedBefore below new i)).length := by
    rw [← hplace, List.length_append]
    cases below <;> rfl
  have htake : after.contents.take (d.splicedFirst below new i) = d.splicedBefore below new i := by
    have hbefore := (List.prefix_append _ _).trans (prefix_spliced below new hi)
    rw [hcontents, splicedFirst, ← List.prefix_iff_eq_take.1 hbefore]
  rw [hoffset, ← htake, lineStart_eq_length_ended hafter (splicedFirst_le hcontents hi hne)]

theorem positionAt_first (hd : d.LineFeedsOnly) (hafter : after.LineFeedsOnly)
    (hcontents : after.contents = d.spliced below new d.lineCount) (hi : i ≤ d.lastLine)
    (hne : new i ≠ []) :
    after.positionAt
        ((weaveTo w 0 (d.text.take (d.offsetOf (d.splicePlace below i)))).length + below.toNat) =
      ⟨d.splicedFirst below new i, 0⟩ := by
  have hle := splicedFirst_le hcontents hi hne
  rw [h.lineStart_first hd hafter hcontents hi hne, ← offsetOf_lineStart hle]
  exact hafter.positionAt_offsetOf (inBounds_lineStart (lt_lineCount hle))

end Splices

/-- **The lines after texts have been put in that bring new lines.** -/
theorem Splices.contents_inserted {edits : List Edit} (h : d.Splices below new (d.insertedAt edits))
    (hd : d.LineFeedsOnly) (hnew : ∀ i, ∀ l ∈ new i, IsLine l) :
    let after := ofText (d.inserted edits)
    after.LineFeedsOnly ∧ after.contents = d.spliced below new d.lineCount := by
  intro after
  have htext : after.text ++ ['\n'] = ended (d.spliced below new d.lineCount) := h.text hd
  have hlines := isLine_of_mem_spliced below hd hnew (Nat.le_refl d.lineCount)
  exact ⟨lineFeedsOnly_of_ended htext hlines, contents_of_ended htext hlines⟩

/-! ### Putting texts in at lines -/

/-- Nothing brings nothing. -/
theorem splices_of_no_places (below : Bool) :
    d.Splices below (fun _ => []) (d.insertedAt []) where
  atEnd _ _ _ := rfl
  atStart _ _ _ := rfl
  other _ _ _ := rfl

section

variable {α : Type} {xs : List α} {line : α → Nat} (text : α → Text) {i : Nat}
  (hd : d.LineFeedsOnly) (hline : ∀ x ∈ xs, line x ≤ d.lastLine)

include hline

/-- Texts at the ends or at the starts of lines are only put in. -/
theorem inserts_splicePlace :
    ∀ e ∈ xs.map (fun x => Edit.insert (d.splicePlace below (line x)) (text x)), d.Inserts e :=
  List.forall_mem_map.2 fun x hx => ⟨inBounds_splicePlace (hline x hx), rfl⟩

include hd

/-- What is put in at a position: the texts of the lines that have it for their place. -/
theorem insertedAt_of_places {p : Position} (hp : d.InBounds p) :
    d.insertedAt (xs.map fun x => .insert (d.splicePlace below (line x)) (text x)) (d.offsetOf p) =
      (xs.filter fun x => d.splicePlace below (line x) == p).flatMap text := by
  rw [insertedAt_offsetOf hd (inserts_splicePlace text hline) hp, List.filter_map, List.flatMap_map]
  rfl

/-- **Texts that bring the new lines of each line** bring all new lines. -/
theorem splices_of_places
    (hnew : ∀ i ≤ d.lastLine, ((xs.filter fun x => line x == i).flatMap text) ++
        (if below then ['\n'] else []) = (if below then ['\n'] else []) ++ ended (new i)) :
    d.Splices below new
      (d.insertedAt (xs.map fun x => .insert (d.splicePlace below (line x)) (text x))) := by
  have hat : ∀ i ≤ d.lastLine,
      d.insertedAt (xs.map fun x => .insert (d.splicePlace below (line x)) (text x))
        (d.offsetOf (d.splicePlace below i)) = (xs.filter fun x => line x == i).flatMap text := by
    intro i hi
    have hsame : xs.filter (fun x => d.splicePlace below (line x) == d.splicePlace below i) =
        xs.filter fun x => line x == i := by
      refine List.filter_congr fun x _ => ?_
      rw [Bool.eq_iff_iff, beq_iff_eq, beq_iff_eq]
      refine ⟨fun heq => ?_, fun heq => congrArg _ heq⟩
      simpa using congrArg Position.line heq
    rw [insertedAt_of_places text hd hline (inBounds_splicePlace hi), hsame]
  refine ⟨?_, ?_, fun p hp hother => ?_⟩
  · rintro rfl i hi
    exact (congrArg (· ++ ['\n']) (hat i hi)).trans (hnew i hi)
  · rintro rfl i hi
    exact (hat i hi).trans ((List.append_nil _).symm.trans (hnew i hi))
  · have hnone : xs.filter (fun x => d.splicePlace below (line x) == p) = [] := by
      refine List.filter_eq_nil_iff.2 fun x _ heq => hother ?_
      rw [← beq_iff_eq.1 heq, line_splicePlace]
    rw [insertedAt_of_places text hd hline hp, hnone, List.flatMap_nil]

/-- Texts of different lines are put in at different offsets. -/
theorem nodup_splicePlaces (hnodup : (xs.map line).Nodup) :
    ((xs.map fun x => Edit.insert (d.splicePlace below (line x)) (text x)).map
      fun e => d.offsetOf e.range.start).Nodup := by
  have hline : ∀ x ∈ xs,
      (d.positionAt (d.offsetOf (d.splicePlace below (line x)))).line = line x := by
    intro x hx
    rw [hd.positionAt_offsetOf (inBounds_splicePlace (hline x hx)), line_splicePlace]
  -- An offset tells the line.
  refine List.Nodup.of_map (fun o => (d.positionAt o).line) ?_
  rw [List.map_map, List.map_map]
  exact (List.map_congr_left hline).symm ▸ hnodup

end

end ModalEdit.Document
