import ModalEdit.Proofs.Span.Around
import ModalEdit.Proofs.Walk.Nearest

/-!
# Which quotes pair

A quote is escaped by an odd number of backslashes before it: of an even number each escapes the
next one. The quotes that are searched are those without any backslash before them, and these pair
from left to right (`Document.isQuoted_bareQuotes`). So a quoted string is found for certain only in
lines where no quote that delimits one has backslashes before it
(`Document.quoteSpan_unescaped_iff`).
-/

namespace ModalEdit

/-! ### Quotes of a line -/

/-- Number of backslashes next to each other before a column. -/
def backslashesBefore (chars : Text) (c : Nat) : Nat :=
  ((chars.take c).reverse.takeWhile (· == '\\')).length

/-- Columns of the quotes that are not escaped. -/
def liveQuotes (quote : Char) (chars : Text) : List Nat :=
  (List.range chars.length).filter fun c =>
    chars[c]? == some quote && backslashesBefore chars c % 2 == 0

/-- Columns of the quotes with no backslash before them. -/
def bareQuotes (quote : Char) (chars : Text) : List Nat :=
  (liveQuotes quote chars).filter fun c => backslashesBefore chars c == 0

/-- The columns stand one behind the other in the list, the first of them in an even place. -/
def ArePaired (cols : List Nat) (q : Nat × Nat) : Prop :=
  ∃ k, cols[2 * k]? = some q.1 ∧ cols[2 * k + 1]? = some q.2

/-- Of the pairs with `P` the one around a column, or else the first one behind it. -/
def IsPick (P : Nat × Nat → Prop) (col : Nat) : Option (Nat × Nat) → Prop
  | some q => P q ∧ (q.1 ≤ col ∧ col ≤ q.2 ∨
      (∀ q', P q' → ¬ (q'.1 ≤ col ∧ col ≤ q'.2)) ∧ col < q.1 ∧ ∀ q', P q' → col < q'.1 → q.1 ≤ q'.1)
  | none => ∀ q, P q → ¬ (q.1 ≤ col ∧ col ≤ q.2) ∧ ¬ col < q.1

variable {quote : Char} {chars : Text} {cols : List Nat} {q q' : Nat × Nat} {col : Nat}

theorem mem_pairUp_iff : q ∈ Document.pairUp cols ↔ ArePaired cols q := by
  fun_induction Document.pairUp cols with
  | case1 a b rest ih =>
    rw [List.mem_cons, ih]
    constructor
    · rintro (rfl | ⟨k, hk⟩)
      · exact ⟨0, rfl, rfl⟩
      · exact ⟨k + 1, hk⟩
    · rintro ⟨k, hk⟩
      cases k with
      | zero => exact .inl (Prod.ext (Option.some.inj hk.1).symm (Option.some.inj hk.2).symm)
      | succ k => exact .inr ⟨k, hk⟩
  | case2 cols h =>
    refine iff_of_false List.not_mem_nil ?_
    rintro ⟨k, -, hk⟩
    -- The column of a second quote needs two columns.
    have hlt := (List.getElem?_eq_some_iff.1 hk).1
    obtain ⟨a, rest, rfl⟩ := List.exists_cons_of_length_pos (Nat.zero_lt_of_lt hlt)
    obtain ⟨b, rest, rfl⟩ := List.exists_cons_of_length_pos (l := rest)
      (by rw [List.length_cons] at hlt; omega)
    exact h a b rest rfl

/-- Pairs of columns that follow each other do so too. -/
theorem pairwise_pairUp (h : cols.Pairwise (· < ·)) :
    (Document.pairUp cols).Pairwise fun q q' => q.2 < q'.1 := by
  fun_induction Document.pairUp cols with
  | case1 a b rest ih =>
    obtain ⟨-, h⟩ := List.pairwise_cons.1 h
    obtain ⟨hb, h⟩ := List.pairwise_cons.1 h
    exact List.pairwise_cons.2 ⟨fun q hq => hb _ (Document.mem_of_mem_pairUp hq).1, ih h⟩
  | case2 => exact .nil

/-- Columns that pair with none may be left out. -/
theorem pairUp_filter {keep : Nat → Bool}
    (h : ∀ q ∈ Document.pairUp cols, keep q.1 = true ∧ keep q.2 = true) :
    Document.pairUp (cols.filter keep) = Document.pairUp cols := by
  fun_induction Document.pairUp cols with
  | case1 a b rest ih =>
    obtain ⟨⟨ha, hb⟩, h⟩ := List.forall_mem_cons.1 h
    rw [List.filter_cons_of_pos ha, List.filter_cons_of_pos hb, Document.pairUp, ih h]
  | case2 cols h' =>
    match cols with
    | [] => rfl
    | [a] => cases hkeep : keep a <;> simp [hkeep, Document.pairUp]
    | a :: b :: rest => exact absurd rfl (h' a b rest)

theorem pairwise_liveQuotes : (liveQuotes quote chars).Pairwise (· < ·) :=
  List.pairwise_lt_range.filter _

theorem pairwise_bareQuotes : (bareQuotes quote chars).Pairwise (· < ·) :=
  pairwise_liveQuotes.filter _

/-! ### The pair picked -/

theorem isPick_find? (hcols : cols.Pairwise (· < ·)) (col : Nat) :
    IsPick (ArePaired cols) col
      (((Document.pairUp cols).find? fun q => decide (q.1 ≤ col) && decide (col ≤ q.2)).or
        ((Document.pairUp cols).find? fun q => decide (col < q.1))) := by
  cases hhere : (Document.pairUp cols).find? fun q => decide (q.1 ≤ col) && decide (col ≤ q.2) with
  | some q =>
    have hcol : q.1 ≤ col ∧ col ≤ q.2 := by simpa using List.find?_some hhere
    exact ⟨mem_pairUp_iff.1 (List.mem_of_find?_eq_some hhere), .inl hcol⟩
  | none =>
    have hnone (q : Nat × Nat) (hq : ArePaired cols q) : ¬ (q.1 ≤ col ∧ col ≤ q.2) := by
      simpa using List.find?_eq_none.1 hhere q (mem_pairUp_iff.2 hq)
    have hpairs : (Document.pairUp cols).Pairwise fun q q' => q.1 < q'.1 :=
      (pairwise_pairUp hcols).imp_of_mem fun hq _ h =>
        Nat.lt_trans (Document.lt_of_mem_pairUp hcols hq) h
    have hnearest : IsNearest (fun q q' => q.1 < q'.1) (ArePaired cols) (col, col)
        ((Document.pairUp cols).find? fun q => decide (col < q.1)) :=
      isNearest_find? hpairs fun q => by rw [decide_eq_true_iff, mem_pairUp_iff]
    rw [Option.none_or]
    cases hbehind : (Document.pairUp cols).find? fun q => decide (col < q.1) with
    | none =>
      rw [hbehind] at hnearest
      exact fun q hq => ⟨hnone q hq, hnearest q hq⟩
    | some q =>
      rw [hbehind] at hnearest
      obtain ⟨hq, hlt, hleast⟩ := hnearest
      refine ⟨hq, .inr ⟨hnone, hlt, fun q' hq' hlt' => ?_⟩⟩
      rcases hleast q' hq' hlt' with rfl | h
      · exact Nat.le_refl _
      · exact Nat.le_of_lt h

/-- At its first column a pair is picked. -/
theorem IsPick.eq_some {o : Option (Nat × Nat)} (hcols : cols.Pairwise (· < ·))
    (hq : ArePaired cols q) (h : IsPick (ArePaired cols) q.1 o) : o = some q := by
  have hlt := Document.lt_of_mem_pairUp hcols (mem_pairUp_iff.2 hq)
  cases o with
  | none => exact absurd ⟨Nat.le_refl _, Nat.le_of_lt hlt⟩ (h q hq).1
  | some q' =>
    obtain ⟨hq', ⟨hle, hge⟩ | ⟨hnone, -⟩⟩ := h
    · -- Two different pairs have no column in common.
      have hpairs := pairwise_pairUp hcols
      have hapart : q' = q ∨ q'.2 < q.1 ∨ q.2 < q'.1 :=
        List.Pairwise.forall_of_forall_of_flip (R := fun x y => x = y ∨ x.2 < y.1 ∨ y.2 < x.1)
          (fun _ _ => .inl rfl) (hpairs.imp fun h => .inr (.inl h))
          (hpairs.imp fun h => .inr (.inr h)) (mem_pairUp_iff.2 hq') (mem_pairUp_iff.2 hq)
      rw [hapart.resolve_right (by omega)]
    · exact absurd ⟨Nat.le_refl _, Nat.le_of_lt hlt⟩ (hnone q hq)

/-! ### The quotes that are searched -/

theorem quoteColumns_eq_filter (quote : Char) (before rest : Text) :
    Document.quoteColumns quote (before.getLast? == some '\\') before.length rest =
      (List.range' before.length rest.length).filter fun c =>
        (before ++ rest)[c]? == some quote && backslashesBefore (before ++ rest) c == 0 := by
  induction rest generalizing before with
  | nil => rfl
  | cons c cs ih =>
    have hrest := ih (before ++ [c])
    simp only [List.getLast?_concat, List.length_append, List.length_singleton, List.append_assoc,
      List.singleton_append] at hrest
    have hchar : (before ++ c :: cs)[before.length]? = some c := by simp
    have hbackslash : (backslashesBefore (before ++ c :: cs) before.length == 0) =
        !(before.getLast? == some '\\') := by
      rw [backslashesBefore, List.take_left, ← List.head?_reverse]
      cases before.reverse with
      | nil => rfl
      | cons b bs => cases hb : b == '\\' <;> simp [hb]
    rw [Document.quoteColumns, List.length_cons, List.range'_succ, List.filter_cons, hchar,
      hbackslash, ← hrest]
    simp

theorem quoteColumns_eq_bareQuotes :
    Document.quoteColumns quote false 0 chars = bareQuotes quote chars := by
  have h := quoteColumns_eq_filter quote [] chars
  rw [bareQuotes, liveQuotes, List.filter_filter, List.range_eq_range']
  refine h.trans (List.filter_congr fun c _ => ?_)
  cases hbefore : backslashesBefore chars c == 0 <;> simp_all

namespace Document

/-- What is found for a pair in a line: what stands between the quotes, or with `around` also the
quotes. -/
def quotedRange (i : Nat) (around : Bool) (q : Nat × Nat) : Range :=
  if around then .inLine i q.1 (q.2 + 1) else .inLine i (q.1 + 1) q.2

/-- The range of the pair picked from those with `P` in the line of a position. -/
def IsQuoted (d : Document) (P : Nat × Nat → Prop) (around : Bool) (p : Position)
    (r : Option Range) : Prop :=
  ∃ pick, IsPick P (d.clamp p).col pick ∧ r = pick.map (quotedRange (d.clamp p).line around)

variable (d : Document) (quote)

/-- **What is found** are the quotes without a backslash before them, in pairs. -/
theorem isQuoted_bareQuotes (around : Bool) (p : Position) :
    d.IsQuoted (ArePaired (bareQuotes quote (d.content (d.clamp p).line))) around p
      (d.quoteSpan quote around p) := by
  refine ⟨_, isPick_find? pairwise_bareQuotes _, ?_⟩
  simp only [quoteSpan, quoteColumns_eq_bareQuotes]
  generalize ((pairUp (bareQuotes quote _)).find? _).or _ = pick
  cases pick with
  | none => rfl
  | some q => cases around <;> rfl

theorem quotedRange_inj {i : Nat} (hq : q.1 < q.2) (hq' : q'.1 < q'.2)
    (h : quotedRange i true q = quotedRange i true q') : q = q' := by
  have hle {q : Nat × Nat} (h : q.1 < q.2) : (⟨i, q.1⟩ : Position) ≤ ⟨i, q.2 + 1⟩ :=
    .inr ⟨rfl, Nat.le_succ_of_le (Nat.le_of_lt h)⟩
  simp only [quotedRange, if_true, Range.inLine, Range.between_of_le (hle hq),
    Range.between_of_le (hle hq'), Range.mk.injEq, Position.mk.injEq, Nat.add_right_cancel_iff,
    true_and, and_true] at h
  exact Prod.ext h.1 h.2

/-- **Quoted strings are found without looking at more than one backslash.** The quotes without a
backslash before them are paired from left to right, and the pair around the cursor is found, or
else the first one behind it. In a line the quotes that are not escaped are paired instead, wherever
the cursor stands, exactly if those that pair have no backslashes before them. -/
theorem quoteSpan_unescaped_iff :
    (∀ around p, d.IsQuoted (ArePaired (bareQuotes quote (d.content (d.clamp p).line))) around p
      (d.quoteSpan quote around p)) ∧
    ∀ i, let chars := d.content (d.clamp ⟨i, 0⟩).line
      (∀ around c, d.IsQuoted (ArePaired (liveQuotes quote chars)) around ⟨i, c⟩
        (d.quoteSpan quote around ⟨i, c⟩)) ↔
      ∀ q, ArePaired (liveQuotes quote chars) q →
        backslashesBefore chars q.1 = 0 ∧ backslashesBefore chars q.2 = 0 := by
  refine ⟨d.isQuoted_bareQuotes quote, fun i => ⟨fun h q hq => ?_, fun h around c => ?_⟩⟩
  · -- At its first quote the pair is to be found, so it is one of those that are searched.
    have hlt := lt_of_mem_pairUp pairwise_liveQuotes (mem_pairUp_iff.2 hq)
    have hcol : (d.clamp ⟨i, q.1⟩).col = q.1 := by
      have hmem := (mem_of_mem_pairUp (mem_pairUp_iff.2 hq)).1
      exact Nat.min_eq_left (Nat.le_of_lt (List.mem_range.1 (List.mem_filter.1 hmem).1))
    obtain ⟨pick, hpick, hspan⟩ := h true q.1
    obtain ⟨pick', hpick', hspan'⟩ := d.isQuoted_bareQuotes quote true ⟨i, q.1⟩
    rw [hcol] at hpick
    obtain rfl := hpick.eq_some pairwise_liveQuotes hq
    obtain ⟨q', rfl, hrange⟩ := Option.map_eq_some_iff.1 (hspan'.symm.trans hspan)
    have hmem := mem_pairUp_iff.2 hpick'.1
    obtain rfl := quotedRange_inj (lt_of_mem_pairUp pairwise_bareQuotes hmem) hlt hrange
    have hbare {c : Nat} (h : c ∈ bareQuotes quote (d.content (d.clamp ⟨i, 0⟩).line)) :
        backslashesBefore (d.content (d.clamp ⟨i, 0⟩).line) c = 0 := by
      simpa using (List.mem_filter.1 h).2
    exact (mem_of_mem_pairUp hmem).imp hbare hbare
  · have hbare : pairUp (bareQuotes quote (d.content (d.clamp ⟨i, 0⟩).line)) =
        pairUp (liveQuotes quote (d.content (d.clamp ⟨i, 0⟩).line)) :=
      pairUp_filter fun q hq => by simpa using h q (mem_pairUp_iff.1 hq)
    have hpaired : ArePaired (bareQuotes quote (d.content (d.clamp ⟨i, 0⟩).line)) =
        ArePaired (liveQuotes quote (d.content (d.clamp ⟨i, 0⟩).line)) := by
      funext q
      rw [← mem_pairUp_iff, hbare, mem_pairUp_iff]
    rw [← hpaired]
    exact d.isQuoted_bareQuotes quote around ⟨i, c⟩

/-- Behind two backslashes a quote is not escaped, but it is not found: of `"\\"` nothing is. -/
theorem not_quoteSpan_unescaped : ¬ (ofText ['"', '\\', '\\', '"']).IsQuoted
    (ArePaired (liveQuotes '"' ['"', '\\', '\\', '"'])) false .origin
    ((ofText ['"', '\\', '\\', '"']).quoteSpan '"' false .origin) := by
  rintro ⟨pick, hpick, hspan⟩
  have hnone : (ofText ['"', '\\', '\\', '"']).quoteSpan '"' false .origin = none := by decide
  obtain rfl : pick = none := Option.map_eq_none_iff.1 (hspan.symm.trans hnone)
  exact (hpick (0, 3) ⟨0, by decide, by decide⟩).1 (by decide)

end Document

end ModalEdit
