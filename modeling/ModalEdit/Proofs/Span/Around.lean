import ModalEdit.Proofs.Operator.Pieces
import ModalEdit.Proofs.Span.Tag
import ModalEdit.Proofs.Span.WholeLines
import ModalEdit.Proofs.Text.Bracket

/-!
# Inner and around

A structure is called with or without what delimits it. Both calls find something or neither does,
and what is found around holds what is found within (`Structure.rel_span`). Between the delimiters
stands what is within, except for a block of lines in brackets of which only the lines are within
(`Structure.Surrounds`).
-/

namespace ModalEdit

/-- The characters that open and close a structure. -/
def Structure.delimiters? : Structure → Option (Char × Char)
  | pair b => some b
  | quote c => some (c, c)
  | _ => none

/-- The delimiters of a range stand at the end of a line and behind the white space that leads
another one, and there are lines between them. -/
structure Document.IsBlock (d : Document) (r : Range) : Prop where
  /-- The range begins with the last character of a line. -/
  endsLine : r.start.col + 1 = d.lineLen r.start.line
  /-- It ends with the first character of a line that is not white space. -/
  leadsLine : ((d.content r.stop.line).take (r.stop.col - 1)).all isBlank = true
  /-- These lines are not neighbours. -/
  apart : r.start.line + 1 < r.stop.line

/-- Of the structures only those in brackets can be blocks. -/
def Structure.IsBlock (d : Document) : Structure → Range → Prop
  | pair _, r => d.IsBlock r
  | _, _ => False

/-- What is found around a structure, seen from what is found within it. -/
structure Structure.Surrounds (d : Document) (k : Structure) (inner around : Range) : Prop where
  /-- The one holds the other. -/
  encloses : around.encloses inner = true
  /-- It begins and ends with the delimiters, if the structure has any. Between them stands what is
  found within, unless that is a block. -/
  delimited : ∀ opening closing, k.delimiters? = some (opening, closing) →
    ∃ body, d.slice around = opening :: body ++ [closing] ∧
      (¬ k.IsBlock d around → d.slice inner = body)
  /-- Of a block the lines between the delimiters are found within. -/
  block : k.IsBlock d around →
    inner = ⟨⟨around.start.line + 1, 0⟩, ⟨around.stop.line, 0⟩, none⟩

/-- What goes on from the same result gives related results. -/
theorem rel_bind {α β : Type} {R : β → β → Prop} {o : Option α} {f g : α → Option β}
    (h : ∀ a, o = some a → Option.Rel R (f a) (g a)) :
    Option.Rel R (o.bind f) (o.bind g) := by
  cases o with
  | none => exact .none
  | some a => exact h a rfl

namespace Range

theorem encloses_between {p p' q q' : Position} (hp : p' ≤ p) (h : p ≤ q) (hq : q ≤ q') :
    (between p' q').encloses (between p q) = true := by
  rw [between_of_le h, between_of_le (Position.le_trans hp (Position.le_trans h hq))]
  simp only [encloses, Bool.and_eq_true, decide_eq_true_eq]
  exact ⟨hp, hq⟩

theorem encloses_inLine {i a a' b b' : Nat} (ha : a' ≤ a) (h : a ≤ b) (hb : b ≤ b') :
    (inLine i a' b').encloses (inLine i a b) = true :=
  encloses_between (.inr ⟨rfl, ha⟩) (.inr ⟨rfl, h⟩) (.inr ⟨rfl, hb⟩)

end Range

namespace Document

variable {d : Document} {p : Position}

/-- A structure without delimiters needs only hold what is within. -/
theorem surrounds_of_encloses {k : Structure} {inner around : Range} (hk : k.delimiters? = none)
    (h : around.encloses inner = true) : k.Surrounds d inner around := by
  refine ⟨h, fun opening closing hdelimiters => ?_, fun hblock => ?_⟩
  · cases hk.symm.trans hdelimiters
  · cases k with
    | pair b => cases hk
    | _ => exact hblock.elim

/-! ### Words -/

/-- A run is only made wider. -/
theorem widen_bounds {run : Run} (before after : Option Run)
    (hbefore : ∀ r, before = some r → r.start ≤ run.start)
    (hafter : ∀ r, after = some r → run.stop ≤ r.stop) :
    (widen run before after).1 ≤ run.start ∧ run.stop ≤ (widen run before after).2 := by
  have hfilter {o : Option Run} {keep : Run → Bool} {r : Run} (h : o.filter keep = some r) :
      o = some r := (Option.filter_eq_some_iff.1 h).1
  unfold widen
  split <;> split
  · exact ⟨Nat.le_refl _, hafter _ rfl⟩
  · exact ⟨hbefore _ rfl, Nat.le_refl _⟩
  · exact ⟨Nat.le_refl _, Nat.le_refl _⟩
  · rename_i h
    exact ⟨Nat.le_refl _, hafter _ (hfilter h)⟩
  · rename_i h
    exact ⟨hbefore _ (hfilter h), Nat.le_refl _⟩
  · exact ⟨Nat.le_refl _, Nat.le_refl _⟩

theorem rel_wordSpan (kind : WordKind) :
    Option.Rel ((Structure.word kind).Surrounds d) (d.wordSpan kind false p)
      (d.wordSpan kind true p) := by
  refine rel_bind fun i _ => rel_bind fun run hrun => .some (surrounds_of_encloses rfl ?_)
  have hmem {j : Nat} {q : Run} (hq : (runs kind (d.content (d.clamp p).line))[j]? = some q) :
      q.start < q.stop := (runs_bounds (List.mem_of_getElem? hq)).1
  -- The neighbours of the run end before it begins and begin after it ends.
  have hwiden := widen_bounds
    (if i = 0 then none else (runs kind (d.content (d.clamp p).line))[i - 1]?)
    (runs kind (d.content (d.clamp p).line))[i + 1]?
    (fun q hq => by
      split at hq
      · cases hq
      · have := runs_stop_le hq hrun (by omega)
        have := hmem hq
        omega)
    (fun q hq => Nat.le_trans (runs_stop_le hrun hq (Nat.lt_succ_self i)) (Nat.le_of_lt (hmem hq)))
  exact Range.encloses_inLine hwiden.1 (Nat.le_of_lt (hmem hrun)) hwiden.2

/-! ### Brackets -/

theorem slice_between_positionAt {o o' : Nat} (h : o ≤ o') (h' : o' ≤ d.size) :
    d.slice (.between (d.positionAt o) (d.positionAt o')) = cut d.text o o' := by
  rw [Range.between_of_le (d.positionAt_mono h), slice_eq_cut,
    d.offsetOf_positionAt (Nat.le_trans h h'), d.offsetOf_positionAt h']

/-- The piece from one character to another begins and ends with them. -/
theorem cut_delimited {t : Text} {o c : Nat} {x y : Char} (hx : t[o]? = some x)
    (hy : t[c]? = some y) (h : o < c) : cut t o (c + 1) = x :: cut t (o + 1) c ++ [y] := by
  rw [cut_eq_cons hx (by omega), cut_add_one hy h, List.cons_append]

section

variable {b : BracketPair} {first last : Nat}

theorem slice_matched (h : d.Matched b first last) :
    d.slice (.between (d.positionAt first) (d.positionAt (last + 1))) =
      b.1 :: cut d.text (first + 1) last ++ [b.2] := by
  rw [slice_between_positionAt (Nat.le_succ_of_le (Nat.le_of_lt h.lt)) h.lt_size,
    cut_delimited h.opening h.closing h.lt]

/-- The range from one bracket to the other ends behind the second in its line. -/
theorem between_matched (h : d.Matched b first last) (hb : ¬ isLineBreak b.2) :
    Range.between (d.positionAt first) (d.positionAt (last + 1)) =
      ⟨d.positionAt first, ⟨(d.positionAt last).line, (d.positionAt last).col + 1⟩, none⟩ := by
  rw [Range.between_of_le (d.positionAt_mono (Nat.le_succ_of_le (Nat.le_of_lt h.lt))),
    d.positionAt_add_one h.closing hb]

/-- Of a block the lines between the brackets are within. -/
theorem surrounds_block (h : d.Matched b first last) (hb : ¬ isLineBreak b.2)
    (hblock : d.IsBlock (.between (d.positionAt first) (d.positionAt (last + 1)))) :
    (Structure.pair b).Surrounds d
      (.between ⟨(d.positionAt first).line + 1, 0⟩ ⟨(d.positionAt last).line, 0⟩)
      (.between (d.positionAt first) (d.positionAt (last + 1))) := by
  have hrange := between_matched h hb
  have hapart : (⟨(d.positionAt first).line + 1, 0⟩ : Position) ≤
      ⟨(d.positionAt last).line, 0⟩ := by
    have := hblock.apart
    rw [hrange] at this
    exact .inl this
  refine ⟨?_, fun opening closing hdelimiters => ?_, fun _ => ?_⟩
  · refine Range.encloses_between (.inl (Nat.lt_succ_self _)) hapart ?_
    exact d.positionAt_add_one h.closing hb ▸ .inr ⟨rfl, Nat.zero_le _⟩
  · cases hdelimiters
    exact ⟨_, slice_matched h, fun hother => absurd hblock hother⟩
  · rw [Range.between_of_le hapart, hrange]

/-- Else all that stands between the brackets is within. -/
theorem surrounds_body (h : d.Matched b first last)
    (hblock : ¬ d.IsBlock (.between (d.positionAt first) (d.positionAt (last + 1)))) :
    (Structure.pair b).Surrounds d (.between (d.positionAt (first + 1)) (d.positionAt last))
      (.between (d.positionAt first) (d.positionAt (last + 1))) := by
  refine ⟨?_, fun opening closing hdelimiters => ?_, fun hother => absurd hother hblock⟩
  · exact Range.encloses_between (d.positionAt_mono (Nat.le_succ _)) (d.positionAt_mono h.lt)
      (d.positionAt_mono (Nat.le_succ _))
  · cases hdelimiters
    exact ⟨_, slice_matched h, fun _ => slice_between_positionAt h.lt (Nat.le_of_lt h.lt_size)⟩

theorem rel_pairSpan (hb : b ∈ selectionBracketPairs) :
    Option.Rel ((Structure.pair b).Surrounds d) (d.pairSpan b false p) (d.pairSpan b true p) := by
  have hchars : ∀ b ∈ selectionBracketPairs, b.1 ≠ b.2 ∧ ¬ isLineBreak b.2 := by decide
  obtain ⟨hne, hbreak⟩ := hchars b hb
  refine rel_bind fun ⟨first, last⟩ hpair => ?_
  have hmatched := matched_of_enclosingPair? hne hpair
  have hblock : d.IsBlock (.between (d.positionAt first) (d.positionAt (last + 1))) ↔
      ((d.positionAt first).col + 1 == d.lineLen (d.positionAt first).line &&
        ((d.content (d.positionAt last).line).take (d.positionAt last).col).all isBlank &&
        decide ((d.positionAt first).line + 1 < (d.positionAt last).line)) = true := by
    rw [between_matched hmatched hbreak]
    simp only [Bool.and_eq_true, beq_iff_eq, decide_eq_true_eq]
    exact ⟨fun h => ⟨⟨h.endsLine, h.leadsLine⟩, h.apart⟩, fun h => ⟨h.1.1, h.1.2, h.2⟩⟩
  simp only [Bool.false_eq_true, ↓reduceIte]
  split
  · exact .some (surrounds_block hmatched hbreak (hblock.2 ‹_›))
  · exact .some (surrounds_body hmatched (mt hblock.1 ‹_›))

end

/-! ### Quotes -/

theorem pairwise_quoteColumns (quote : Char) (escaped : Bool) (i : Nat) (line : Text) :
    (quoteColumns quote escaped i line).Pairwise (· < ·) := by
  induction line generalizing escaped i with
  | nil => exact .nil
  | cons c cs ih =>
    rw [quoteColumns]
    split
    · exact List.pairwise_cons.2 ⟨fun j hj => (getElem?_of_mem_quoteColumns hj).1, ih _ _⟩
    · exact ih _ _

theorem lt_of_mem_pairUp {cols : List Nat} (hcols : cols.Pairwise (· < ·)) {q : Nat × Nat}
    (h : q ∈ pairUp cols) : q.1 < q.2 := by
  fun_induction pairUp cols with
  | case1 a b rest ih =>
    obtain ⟨ha, hcols⟩ := List.pairwise_cons.1 hcols
    rcases List.mem_cons.1 h with rfl | h
    · exact ha b List.mem_cons_self
    · exact ih (List.pairwise_cons.1 hcols).2 h
  | case2 => simp at h

theorem slice_inLine {i a b : Nat} (hi : i < d.lineCount) (h : a ≤ b) (hb : b ≤ d.lineLen i) :
    d.slice (.inLine i a b) = cut d.text (d.lineStart i + a) (d.lineStart i + b) := by
  have hle : (⟨i, a⟩ : Position) ≤ ⟨i, b⟩ := .inr ⟨rfl, h⟩
  rw [Range.inLine, Range.between_of_le hle, slice_eq_cut,
    offsetOf_of_inBounds ⟨hi, Nat.le_trans h hb⟩, offsetOf_of_inBounds ⟨hi, hb⟩]

theorem rel_quoteSpan (quote : Char) :
    Option.Rel ((Structure.quote quote).Surrounds d) (d.quoteSpan quote false p)
      (d.quoteSpan quote true p) := by
  refine rel_bind fun ⟨first, last⟩ hpair => .some ?_
  have hmem : (first, last) ∈ pairUp (quoteColumns quote false 0 (d.content (d.clamp p).line)) :=
    mem_of_find?_or_find? hpair
  have hlt : first < last := lt_of_mem_pairUp (pairwise_quoteColumns _ _ _ _) hmem
  have hi := d.clamp_line_lt p
  have hcol {j : Nat} (h : j ∈ quoteColumns quote false 0 (d.content (d.clamp p).line)) :
      j < d.lineLen (d.clamp p).line ∧
        d.charAtOffset? (d.lineStart (d.clamp p).line + j) = some quote := by
    have hchar := (getElem?_of_mem_quoteColumns h).2
    exact ⟨(List.getElem?_eq_some_iff.1 hchar).1, charAtOffset?_of_content hi hchar⟩
  obtain ⟨-, hopening⟩ := hcol (mem_of_mem_pairUp hmem).1
  obtain ⟨hlast, hclosing⟩ := hcol (mem_of_mem_pairUp hmem).2
  refine ⟨Range.encloses_inLine (Nat.le_succ _) hlt (Nat.le_succ _),
    fun opening closing hdelimiters => ?_, False.elim⟩
  cases hdelimiters
  refine ⟨_, ?_, fun _ => slice_inLine hi hlt (Nat.le_of_lt hlast)⟩
  rw [slice_inLine hi (by omega) hlast]
  exact cut_delimited hopening hclosing (Nat.add_lt_add_left hlt _)

/-! ### Elements and paragraphs -/

theorem rel_tagSpan :
    Option.Rel (Structure.tag.Surrounds d) (d.tagSpan false p) (d.tagSpan true p) := by
  refine rel_bind fun e he => .some (surrounds_of_encloses rfl ?_)
  obtain ⟨hopening, hle, hclosing, -⟩ :=
    within_of_mem_elements (List.mem_filter.1 (Element.last_of_innermost he).1).1
  exact Range.encloses_between (d.positionAt_mono (Nat.le_of_lt hopening)) (d.positionAt_mono hle)
    (d.positionAt_mono (Nat.le_of_lt hclosing))

/-- More lines hold fewer, with and without a line break. -/
theorem encloses_linesSpan {first last first' last' : Nat} {withBreak : Bool} (h : first ≤ last)
    (hfirst : first' ≤ first) (hlast : last ≤ last') :
    (d.linesSpan first' last' withBreak).encloses (d.linesSpan first last withBreak) = true := by
  have hnarrow : ∀ {a b a' b' : Nat}, a ≤ b → b' ≤ d.lastLine → a' ≤ a → b ≤ b' →
      (d.linesSpan a' b' withBreak).encloses (d.linesSpan a b withBreak) = true := by
    intro a b a' b' hab hb' ha hb
    have hle : a' ≤ b' := by omega
    have hbl : b ≤ d.lastLine := by omega
    simp only [Range.encloses, Bool.and_eq_true, decide_eq_true_eq]
    refine ⟨?_, stop_linesSpan_mono hab hbl hle hb' hb⟩
    rcases Nat.lt_or_eq_of_le ha with ha | rfl
    · exact start_linesSpan_mono hle hb' hab hbl ha
    · rw [start_linesSpan hab hbl]
      split
      · rename_i h
        rw [start_linesSpan hle hb', if_pos ⟨h.1, by omega, h.2.2⟩]
        exact Position.le_refl _
      · exact start_linesSpan_le hle hb'
  rw [linesSpan_min first', linesSpan_min first]
  exact hnarrow (by omega) (by omega) (by omega) (by omega)

theorem paragraphLines_bounds (d : Document) (p : Position) :
    (d.paragraphLines false p).first ≤ (d.paragraphLines false p).last ∧
      (d.paragraphLines true p).first ≤ (d.paragraphLines false p).first ∧
      (d.paragraphLines false p).last ≤ (d.paragraphLines true p).last := by
  simp only [paragraphLines, Bool.false_eq_true, not_false_eq_true, not_true, ↓reduceIte]
  split
  · dsimp only; omega
  · split <;> (dsimp only; omega)

end Document

/-- **What is found around holds what is found within**, and one is found whenever the other is. -/
theorem Structure.rel_span {k : Structure} (hk : ∀ b, k = .pair b → b ∈ selectionBracketPairs)
    (d : Document) (u : Purpose) (p : Position) :
    Option.Rel (k.Surrounds d) (k.span d u false p) (k.span d u true p) := by
  cases k with
  | word kind => exact Document.rel_wordSpan kind
  | pair b => exact Document.rel_pairSpan (hk b rfl)
  | quote c => exact Document.rel_quoteSpan c
  | tag => exact Document.rel_tagSpan
  | paragraph =>
    obtain ⟨h, hfirst, hlast⟩ := d.paragraphLines_bounds p
    exact .some (Document.surrounds_of_encloses rfl (Document.encloses_linesSpan h hfirst hlast))

namespace TextObject

variable {name n : String} {c : Char} {cs : List Char} {kind k : Structure} {around : Bool}

theorem ofStructure_mem_family :
    ofStructure name c kind around ∈ family n cs k ↔ name = n ∧ c ∈ cs ∧ kind = k := by
  rw [mem_family_iff]
  constructor
  · rintro ⟨c', hc, around', h⟩
    simp only [ofStructure, structural.injEq, Pattern.literal.injEq, List.cons.injEq,
      Key.char.injEq] at h
    obtain ⟨rfl, ⟨-, rfl, -⟩, rfl, -⟩ := h
    exact ⟨rfl, hc, rfl⟩
  · rintro ⟨rfl, hc, rfl⟩
    exact ⟨c, hc, around, rfl⟩

/-- A structure is called with what is around it by the characters that call it without. -/
theorem ofStructure_mem_structures_iff :
    ofStructure name c kind false ∈ structures ↔ ofStructure name c kind true ∈ structures := by
  simp only [structures, List.mem_append, ofStructure_mem_family]

/-- Only pairs of the table of brackets are looked for. -/
theorem mem_selectionBracketPairs {b : BracketPair}
    (h : ofStructure name c (.pair b) around ∈ structures) : b ∈ selectionBracketPairs := by
  simp only [structures, List.mem_append, ofStructure_mem_family, reduceCtorEq, and_false, or_false,
    false_or, Structure.pair.injEq] at h
  rcases h with ((⟨-, -, rfl⟩ | ⟨-, -, rfl⟩) | ⟨-, -, rfl⟩) | ⟨-, -, rfl⟩ <;> decide

/-- The keys of a structure find its range. -/
theorem result?_compute_ofStructure (d : Document) (u : Purpose) (p : Position) (rest : List Key) :
    ((ofStructure name c kind around).compute d u p
      (.char (leadOf around) :: .char c :: rest)).result? =
        (kind.span d u around p).map fun r => { range := r } := by
  simp only [ofStructure, compute, Pattern.parse, Pattern.parseLiteral, ↓reduceIte, Found.ofMatch]
  cases kind.span d u around p <;> rfl

/-- **Inner and around.** Every structure is called by a character within and around: if one call
finds something, then so does the other, and the range around holds the range within. Of brackets
and quotes it begins with the opening and ends with the closing character. Between them stands what
is within, unless it is a block in brackets. -/
theorem around_surrounds_inner (d : Document) (u : Purpose) (p : Position) :
    (∀ o ∈ structures, ∃ name c kind around, o = ofStructure name c kind around) ∧
    ∀ name c kind,
      (ofStructure name c kind false ∈ structures ↔ ofStructure name c kind true ∈ structures) ∧
      (ofStructure name c kind false ∈ structures → ∀ rest,
        Option.Rel (fun r r' => kind.Surrounds d r.range r'.range)
          ((ofStructure name c kind false).compute d u p (.char 'i' :: .char c :: rest)).result?
          ((ofStructure name c kind true).compute d u p
            (.char 'a' :: .char c :: rest)).result?) := by
  refine ⟨fun o => exists_ofStructure, fun name c kind =>
    ⟨ofStructure_mem_structures_iff, fun hmem rest => ?_⟩⟩
  have hk : ∀ b, kind = .pair b → b ∈ selectionBracketPairs := by
    rintro b rfl
    exact mem_selectionBracketPairs hmem
  have hrel := Structure.rel_span hk d u p
  change Option.Rel _
    ((ofStructure name c kind false).compute d u p
      (.char (leadOf false) :: .char c :: rest)).result?
    ((ofStructure name c kind true).compute d u p
      (.char (leadOf true) :: .char c :: rest)).result?
  rw [result?_compute_ofStructure, result?_compute_ofStructure]
  generalize kind.span d u false p = s at hrel
  generalize kind.span d u true p = s' at hrel
  cases hrel with
  | some h => exact .some h
  | none => exact .none

/-- A block in brackets. -/
theorem around_surrounds_inner_block :
    let d := Document.ofText "f(\n a\n)".toList
    let k := Structure.pair ('(', ')')
    let u : Purpose := ⟨some .delete, none⟩
    let lines : Range := ⟨⟨1, 0⟩, ⟨2, 0⟩, none⟩
    let block : Range := ⟨⟨0, 1⟩, ⟨2, 1⟩, none⟩
    ofStructure "parens" 'b' k false ∈ structures ∧
    (ofStructure "parens" 'b' k false).compute d u ⟨1, 1⟩ [.char 'i', .char 'b'] =
      .some ⟨lines, none⟩ [] ∧
    (ofStructure "parens" 'b' k true).compute d u ⟨1, 1⟩ [.char 'a', .char 'b'] =
      .some ⟨block, none⟩ [] ∧
    k.Surrounds d lines block := by
  intro d k u lines block
  have hmem : ofStructure "parens" 'b' k false ∈ structures := by
    simp [structures, ofStructure_mem_family, k]
  have hinner : (ofStructure "parens" 'b' k false).compute d u ⟨1, 1⟩ [.char 'i', .char 'b'] =
      .some ⟨lines, none⟩ [] := by
    decide +kernel
  have haround : (ofStructure "parens" 'b' k true).compute d u ⟨1, 1⟩ [.char 'a', .char 'b'] =
      .some ⟨block, none⟩ [] := by
    decide +kernel
  have hrel := ((around_surrounds_inner d u ⟨1, 1⟩).2 "parens" 'b' k).2 hmem []
  rw [hinner, haround] at hrel
  cases hrel with
  | some h => exact ⟨hmem, hinner, haround, h⟩

end TextObject

end ModalEdit
