import ModalEdit.Proofs.Span.Bounds
import ModalEdit.Proofs.Text.Balance
import ModalEdit.Proofs.Text.Characters

/-!
# Pairs of brackets

Two brackets match if what stands between them is balanced (`Document.Matched`). The walk forwards
from an opening bracket and the walk backwards from a closing one both end at the bracket that
matches (`Document.closingAfter?_eq_some_iff`, `Document.openingBefore?_eq_some_iff`).

So the pair found around an offset is the innermost one (`Document.enclosingPair?_innermost`), and
from the bracket found from a bracket the walk leads back (`Document.bracketMatch?_involutive`).
-/

namespace ModalEdit

variable {t : Text} {c x : Char} {o m n : Nat}

/-! ### Pieces of a text -/

theorem cut_prefix_cut (h : m ≤ n) : cut t o m <+: cut t o n := by
  rcases Nat.le_total o m with hle | hle
  · exact ⟨_, cut_append_cut hle h⟩
  · rw [cut, Nat.sub_eq_zero_of_le hle, List.take_zero]
    exact List.nil_prefix

theorem cut_eq_cons (h : t[o]? = some x) (hlt : o < m) : cut t o m = x :: cut t (o + 1) m := by
  obtain ⟨ho, hx⟩ := List.getElem?_eq_some_iff.1 h
  have hlen : m - o = (m - (o + 1)) + 1 := by omega
  rw [cut, List.drop_eq_getElem_cons ho, hx, hlen, List.take_succ_cons]
  rfl

theorem cut_add_one (h : t[m]? = some x) (hle : o ≤ m) : cut t o (m + 1) = cut t o m ++ [x] := by
  rw [← cut_append_cut hle (Nat.le_succ m), cut_eq_cons h (Nat.lt_succ_self m)]
  simp [cut]

namespace Document

/-- Of a pair, the bracket at offset `o` and the bracket at offset `c` with balanced brackets
between them. -/
structure Matched (d : Document) (b : BracketPair) (o c : Nat) : Prop where
  /-- The one comes before the other. -/
  lt : o < c
  /-- The first one opens. -/
  opening : d.charAtOffset? o = some b.1
  /-- The second one closes. -/
  closing : d.charAtOffset? c = some b.2
  /-- What stands between them is balanced. -/
  between : Balanced b.1 b.2 (cut d.text (o + 1) c)

variable {d : Document} {b : BracketPair} {o c o' c' off m : Nat}

/-! ### The two walks -/

theorem closingAfter?_eq_some_iff (hb : b.1 ≠ b.2) :
    d.closingAfter? b o = some c ↔
      o < c ∧ d.charAtOffset? c = some b.2 ∧ Balanced b.1 b.2 (cut d.text (o + 1) c) := by
  have hwalk (n : Nat) : balance b.1 b.2 0 (d.text.drop (o + 1)) = some n ↔
      d.charAtOffset? (o + 1 + n) = some b.2 ∧
        Balanced b.1 b.2 (cut d.text (o + 1) (o + 1 + n)) := by
    rw [balance_eq_some_iff hb, closes_zero_iff, List.getElem?_drop, cut, Nat.add_sub_cancel_left]
    rfl
  rw [closingAfter?, Option.map_eq_some_iff]
  constructor
  · rintro ⟨n, hn, rfl⟩
    exact ⟨by omega, (hwalk n).1 hn⟩
  · rintro ⟨hlt, h⟩
    obtain ⟨n, rfl⟩ := Nat.exists_eq_add_of_le hlt
    exact ⟨n, (hwalk n).2 h, rfl⟩

theorem openingBefore?_eq_some_iff (hb : b.1 ≠ b.2) :
    d.openingBefore? b c = some o ↔
      o < c ∧ c ≤ d.size ∧ d.charAtOffset? o = some b.1 ∧
        Balanced b.1 b.2 (cut d.text (o + 1) c) := by
  have hwalk (hc : c ≤ d.size) (n : Nat) (hn : n < c) :
      balance b.2 b.1 0 (d.text.take c).reverse = some n ↔
        d.charAtOffset? (c - 1 - n) = some b.1 ∧
          Balanced b.1 b.2 (cut d.text (c - 1 - n + 1) c) := by
    have hlen : (d.text.take c).length = c := List.length_take_of_le hc
    have hget : (d.text.take c).reverse[n]? = d.charAtOffset? (c - 1 - n) := by
      rw [List.getElem?_reverse (by omega), hlen, List.getElem?_take_of_lt (by omega)]
      rfl
    have hcut : (d.text.take c).reverse.take n = (cut d.text (c - 1 - n + 1) c).reverse := by
      rw [List.take_reverse, hlen, List.drop_take, cut, show c - 1 - n + 1 = c - n by omega]
    rw [balance_eq_some_iff hb.symm, closes_zero_iff, hget, hcut, balanced_reverse_iff]
  unfold openingBefore?
  split
  · rename_i hc
    rw [Option.map_eq_some_iff]
    constructor
    · rintro ⟨n, hn, rfl⟩
      have hlt : n < c := by
        have := balance_lt hn
        rw [List.length_reverse, List.length_take] at this
        omega
      exact ⟨by omega, hc, (hwalk hc n hlt).1 hn⟩
    · rintro ⟨hlt, -, h⟩
      have hoff : c - 1 - (c - 1 - o) = o := by omega
      exact ⟨c - 1 - o, (hwalk hc _ (by omega)).2 (by rwa [hoff]), hoff⟩
  · rename_i hc
    exact iff_of_false (Option.some_ne_none o).symm fun h => hc h.2.1

/-- A closing bracket is found in every piece that closes more than it opens. -/
theorem exists_closingAfter? (hb : b.1 ≠ b.2)
    (h : (cut d.text (o + 1) m).count b.1 < (cut d.text (o + 1) m).count b.2) :
    ∃ c < m, d.closingAfter? b o = some c := by
  have hprefix : cut d.text (o + 1) m <+: d.text.drop (o + 1) := List.take_prefix _ _
  rw [← Nat.add_zero (List.count b.1 _)] at h
  obtain ⟨n, hn, hbalance⟩ := exists_balance_of_lt hb hprefix h
  rw [cut, List.length_take] at hn
  exact ⟨o + 1 + n, by omega, by rw [closingAfter?, hbalance]; rfl⟩

/-- An opening bracket is found in every piece that opens more than it closes. -/
theorem exists_openingBefore? (hb : b.1 ≠ b.2) (hc : c ≤ d.size)
    (h : (cut d.text m c).count b.2 < (cut d.text m c).count b.1) :
    ∃ o ≥ m, d.openingBefore? b c = some o := by
  have hle : m ≤ c := by
    by_contra hlt
    simp [cut, Nat.sub_eq_zero_of_le (Nat.le_of_not_le hlt)] at h
  have hprefix : (cut d.text m c).reverse <+: (d.text.take c).reverse := by
    rw [List.reverse_prefix, ← take_append_cut hle]
    exact List.suffix_append _ _
  rw [← List.count_reverse, ← List.count_reverse (a := b.1),
    ← Nat.add_zero (List.count b.2 _)] at h
  obtain ⟨n, hn, hbalance⟩ := exists_balance_of_lt hb.symm hprefix h
  rw [List.length_reverse, length_cut hc] at hn
  refine ⟨c - 1 - n, by omega, ?_⟩
  rw [openingBefore?, if_pos hc, hbalance]
  rfl

/-! ### The pair around an offset -/

/-- The bracket at the offset if it opens, else the last one before it that is still open. -/
def openingAt? (d : Document) (b : BracketPair) (off : Nat) : Option Nat :=
  if d.charAtOffset? off = some b.1 then some off else d.openingBefore? b off

/-- **The closing bracket is never before the offset**: all that is opened between the opening
bracket and the offset is closed before the offset. -/
theorem le_closingAfter? (hb : b.1 ≠ b.2) (ho : d.openingAt? b off = some o)
    (hc : d.closingAfter? b o = some c) : off ≤ c := by
  obtain ⟨hlt, hclosing, hbetween⟩ := (closingAfter?_eq_some_iff hb).1 hc
  unfold openingAt? at ho
  split at ho
  · cases ho
    exact Nat.le_of_lt hlt
  · obtain ⟨-, -, -, hbefore⟩ := (openingBefore?_eq_some_iff hb).1 ho
    by_contra hoff
    -- The piece up to and with the closing bracket would close one more than it opens.
    have hprefix : cut d.text (o + 1) c ++ [b.2] <+: cut d.text (o + 1) off := by
      rw [← cut_add_one hclosing hlt]
      exact cut_prefix_cut (Nat.lt_of_not_le hoff)
    have hle := hbefore.opened _ hprefix
    rw [List.count_append, List.count_append, hbetween.closed] at hle
    simp only [List.count_singleton_self, List.count_singleton, beq_eq_false_iff_ne.2 hb.symm,
      Bool.false_eq_true, ↓reduceIte] at hle
    omega

theorem enclosingPair?_eq_some_iff (hb : b.1 ≠ b.2) :
    d.enclosingPair? b off = some (o, c) ↔
      d.openingAt? b off = some o ∧ d.closingAfter? b o = some c := by
  have hunfold : d.enclosingPair? b off = (d.openingAt? b off).bind fun first =>
      (d.closingAfter? b first).bind fun last =>
        if off ≤ last then some (first, last) else none := by
    unfold enclosingPair? openingAt?
    split <;> rfl
  rw [hunfold, Option.bind_eq_some_iff]
  constructor
  · rintro ⟨first, hfirst, h⟩
    obtain ⟨last, hlast, h⟩ := Option.bind_eq_some_iff.1 h
    rw [if_pos (le_closingAfter? hb hfirst hlast)] at h
    cases h
    exact ⟨hfirst, hlast⟩
  · rintro ⟨hfirst, hlast⟩
    refine ⟨o, hfirst, ?_⟩
    rw [hlast, Option.bind_some, if_pos (le_closingAfter? hb hfirst hlast)]

/-- The pair around an offset matches. -/
theorem matched_of_enclosingPair? (hb : b.1 ≠ b.2) (h : d.enclosingPair? b off = some (o, c)) :
    d.Matched b o c := by
  obtain ⟨hopening, hclosing⟩ := (enclosingPair?_eq_some_iff hb).1 h
  obtain ⟨hlt, hchar, hbetween⟩ := (closingAfter?_eq_some_iff hb).1 hclosing
  refine ⟨hlt, ?_, hchar, hbetween⟩
  unfold openingAt? at hopening
  split at hopening
  · cases hopening
    assumption
  · exact ((openingBefore?_eq_some_iff hb).1 hopening).2.2.1

namespace Matched

theorem lt_size (h : d.Matched b o c) : c < d.size := (List.getElem?_eq_some_iff.1 h.closing).1

/-- Behind a matched opening bracket more is opened than closed, until it is closed itself. -/
theorem opens_more (hb : b.1 ≠ b.2) (h : d.Matched b o c) (ho : o < m) (hc : m ≤ c) :
    (cut d.text o m).count b.2 < (cut d.text o m).count b.1 := by
  have hle := h.between.opened _ (cut_prefix_cut hc)
  rw [cut_eq_cons h.opening ho, List.count_cons_self, List.count_cons_of_ne hb]
  exact Nat.lt_succ_of_le hle

/-- Behind an opening bracket that stands in a matched pair more is closed than opened up to the end
of the pair. -/
theorem closes_more (hb : b.1 ≠ b.2) (h : d.Matched b o c) (ho : o ≤ m) (hc : m < c)
    (hm : d.charAtOffset? m = some b.1) :
    (cut d.text (m + 1) (c + 1)).count b.1 < (cut d.text (m + 1) (c + 1)).count b.2 := by
  have hle : (cut d.text (m + 1) c).count b.1 ≤ (cut d.text (m + 1) c).count b.2 := by
    rcases Nat.eq_or_lt_of_le ho with rfl | hlt
    · exact Nat.le_of_eq h.between.closed.symm
    · have ho : o + 1 ≤ m := hlt
      have hfront := h.between.opened _ (cut_prefix_cut (Nat.le_of_lt hc))
      have hclosed := h.between.closed
      rw [← cut_append_cut ho (Nat.le_of_lt hc), cut_eq_cons hm hc, List.count_append,
        List.count_append, List.count_cons_self, List.count_cons_of_ne hb] at hclosed
      omega
  rw [cut_add_one h.closing hc, List.count_append, List.count_append]
  simpa [hb.symm] using Nat.lt_succ_of_le hle

/-- **Around an offset inside a matched pair a pair is found**, and it lies in the matched one. -/
theorem exists_enclosingPair? (hb : b.1 ≠ b.2) (h : d.Matched b o' c') (ho : o' ≤ off)
    (hc : off ≤ c') : ∃ o c, d.enclosingPair? b off = some (o, c) ∧ o' ≤ o ∧ c ≤ c' := by
  have hopening : ∃ o ≥ o', o < c' ∧ d.openingAt? b off = some o ∧
      d.charAtOffset? o = some b.1 := by
    unfold openingAt?
    split
    · rename_i hchar
      refine ⟨off, ho, Nat.lt_of_le_of_ne hc ?_, rfl, hchar⟩
      rintro rfl
      exact hb (Option.some.inj (hchar.symm.trans h.closing))
    · rename_i hchar
      have hlt : o' < off := Nat.lt_of_le_of_ne ho fun heq => hchar (heq ▸ h.opening)
      have hsize : off ≤ d.size := Nat.le_trans hc (Nat.le_of_lt h.lt_size)
      obtain ⟨o, hle, hfound⟩ := exists_openingBefore? hb hsize (h.opens_more hb hlt hc)
      obtain ⟨hoff, -, hopen, -⟩ := (openingBefore?_eq_some_iff hb).1 hfound
      exact ⟨o, hle, Nat.lt_of_lt_of_le hoff hc, hfound, hopen⟩
  obtain ⟨o, hle, hlt, hfound, hopen⟩ := hopening
  obtain ⟨c, hclose, hclosing⟩ := exists_closingAfter? hb (h.closes_more hb hle hlt hopen)
  exact ⟨o, c, (enclosingPair?_eq_some_iff hb).2 ⟨hfound, hclosing⟩, hle, Nat.le_of_lt_succ hclose⟩

end Matched

/-- **The pair around an offset is the innermost matched pair** that holds the offset, on one of its
brackets or between them; there is none if and only if no matched pair holds it. The closing bracket
that is found from the opening one is never before the offset. -/
theorem enclosingPair?_innermost (d : Document) (b : BracketPair) (off : Nat) (hb : b.1 ≠ b.2) :
    (∀ o c, d.enclosingPair? b off = some (o, c) ↔
      d.Matched b o c ∧ o ≤ off ∧ off ≤ c ∧
        ∀ o' c', d.Matched b o' c' → o ≤ o' → c' ≤ c → o' ≤ off → off ≤ c' →
          (o', c') = (o, c)) ∧
    (d.enclosingPair? b off = none ↔ ∀ o c, d.Matched b o c → ¬ (o ≤ off ∧ off ≤ c)) ∧
    ∀ o c, d.openingAt? b off = some o → d.closingAfter? b o = some c → off ≤ c := by
  refine ⟨fun o c => ⟨fun h => ?_, fun ⟨hmatched, ho, hc, hinner⟩ => ?_⟩,
    ⟨fun h => ?_, fun h => ?_⟩, fun o c => le_closingAfter? hb⟩
  · obtain ⟨ho, hc, -⟩ := enclosingPair?_bounds h
    refine ⟨matched_of_enclosingPair? hb h, ho, hc, fun o' c' hmatched hle hle' ho' hc' => ?_⟩
    -- The pair that is found lies in every matched pair around the offset.
    obtain ⟨o₁, c₁, hfound, hle₁, hle₁'⟩ := hmatched.exists_enclosingPair? hb ho' hc'
    cases h.symm.trans hfound
    rw [Nat.le_antisymm hle₁ hle, Nat.le_antisymm hle' hle₁']
  · obtain ⟨o₁, c₁, hfound, hle, hle'⟩ := hmatched.exists_enclosingPair? hb ho hc
    obtain ⟨ho₁, hc₁, -⟩ := enclosingPair?_bounds hfound
    rw [hfound, hinner o₁ c₁ (matched_of_enclosingPair? hb hfound) hle hle' ho₁ hc₁]
  · rintro o c hmatched ⟨ho, hc⟩
    obtain ⟨o₁, c₁, hfound, -⟩ := hmatched.exists_enclosingPair? hb ho hc
    cases h.symm.trans hfound
  · refine Option.eq_none_iff_forall_ne_some.2 fun ⟨o, c⟩ hfound => ?_
    obtain ⟨ho, hc, -⟩ := enclosingPair?_bounds hfound
    exact h o c (matched_of_enclosingPair? hb hfound) ⟨ho, hc⟩

/-- A pair inside one that is never closed. -/
theorem enclosingPair?_innermost_unclosed :
    let d := ofText "(a(b)c".toList
    let b : BracketPair := ('(', ')')
    b.1 ≠ b.2 ∧
    (d.Matched b 2 4 ∧ ∀ o' c', d.Matched b o' c' → 2 ≤ o' → c' ≤ 4 → o' ≤ 3 → 3 ≤ c' →
      (o', c') = (2, 4)) ∧
    ∀ o c, d.Matched b o c → ¬ (o ≤ 5 ∧ 5 ≤ c) := by
  intro d b
  obtain ⟨hmatched, -, -, hinner⟩ :=
    ((enclosingPair?_innermost d b 3 (by decide)).1 2 4).1 (by decide)
  have hnone := (enclosingPair?_innermost d b 5 (by decide)).2.1.1 (by decide)
  exact ⟨by decide, ⟨hmatched, hinner⟩, hnone⟩

/-! ### The bracket that matches -/

/-- Every bracket of the table belongs to one pair and opens or closes, and none is a line feed. -/
structure IsTable (pairs : List BracketPair) : Prop where
  /-- An opening bracket is looked up as part of its pair. -/
  opening : ∀ b ∈ pairs, (pairs.find? fun b' => b.1 == b'.1 || b.1 == b'.2) = some b
  /-- So is a closing one. -/
  closing : ∀ b ∈ pairs, (pairs.find? fun b' => b.2 == b'.1 || b.2 == b'.2) = some b
  /-- No bracket does both. -/
  ne : ∀ b ∈ pairs, b.1 ≠ b.2
  /-- A bracket stands within a line. -/
  inLine : ∀ b ∈ pairs, b.1 ≠ '\n' ∧ b.2 ≠ '\n'

/-- Both tables are. -/
theorem isTable (selecting : Bool) :
    IsTable (if selecting then selectionBracketPairs else bracketPairs) := by
  cases selecting <;> exact ⟨by decide, by decide, by decide, by decide⟩

variable {pairs : List BracketPair} {i j : Nat} {p q : Position}

/-- **The bracket found from a bracket is the one it is matched with**, on either side. -/
theorem matchingBracket?_eq_some_iff (hpairs : IsTable pairs) :
    d.matchingBracket? pairs i = some j ↔ ∃ b ∈ pairs, d.Matched b i j ∨ d.Matched b j i := by
  unfold matchingBracket?
  constructor
  · intro h
    obtain ⟨c, hc, h⟩ := Option.bind_eq_some_iff.1 h
    obtain ⟨b, hfind, h⟩ := Option.bind_eq_some_iff.1 h
    have hb := List.mem_of_find?_eq_some hfind
    have hne := hpairs.ne b hb
    refine ⟨b, hb, ?_⟩
    split at h
    · rename_i hopen
      obtain ⟨hlt, hclosing, hbetween⟩ := (closingAfter?_eq_some_iff hne).1 h
      exact .inl ⟨hlt, hopen ▸ hc, hclosing, hbetween⟩
    · rename_i hopen
      have hclose : c = b.2 := by
        have := List.find?_some hfind
        simpa [hopen] using this
      obtain ⟨hlt, -, hopening, hbetween⟩ := (openingBefore?_eq_some_iff hne).1 h
      exact .inr ⟨hlt, hopening, hclose ▸ hc, hbetween⟩
  · rintro ⟨b, hb, h | h⟩
    · have hclosing := (closingAfter?_eq_some_iff (hpairs.ne b hb)).2 ⟨h.lt, h.closing, h.between⟩
      simp [h.opening, hpairs.opening b hb, hclosing]
    · have hopening := (openingBefore?_eq_some_iff (hpairs.ne b hb)).2
        ⟨h.lt, Nat.le_of_lt h.lt_size, h.opening, h.between⟩
      simp [h.closing, hpairs.closing b hb, (hpairs.ne b hb).symm, hopening]

/-- **From the bracket that is found the walk leads back.** -/
theorem matchingBracket?_symm (hpairs : IsTable pairs) (h : d.matchingBracket? pairs i = some j) :
    d.matchingBracket? pairs j = some i := by
  rw [matchingBracket?_eq_some_iff hpairs] at h ⊢
  obtain ⟨b, hb, h⟩ := h
  exact ⟨b, hb, h.symm⟩

/-- Brackets are looked up from brackets. -/
theorem exists_bracket_of_matchingBracket? (h : d.matchingBracket? pairs i = some j) :
    ∃ c, d.charAtOffset? i = some c ∧ ∃ b ∈ pairs, c = b.1 ∨ c = b.2 := by
  obtain ⟨c, hc, h⟩ := Option.bind_eq_some_iff.1 h
  obtain ⟨b, hfind, -⟩ := Option.bind_eq_some_iff.1 h
  refine ⟨c, hc, b, List.mem_of_find?_eq_some hfind, ?_⟩
  simpa using List.find?_some hfind

/-- The character with an offset stands at the position of the offset. -/
theorem charAt?_positionAt (h : d.charAtOffset? o = some x) (hx : x ≠ '\n') :
    d.charAt? (d.positionAt o) = some x := by
  have hlt := col_positionAt_lt h hx
  obtain ⟨l, hl, hchar⟩ := exists_line?_positionAt h
  rw [lineLen, content, hl, Option.getD_some] at hlt
  rw [charAt?, content, hl, Option.getD_some]
  unfold dropBreak at hlt ⊢
  split
  · rename_i hbreak
    rw [if_pos hbreak, List.length_dropLast] at hlt
    rw [List.getElem?_dropLast, if_pos hlt, hchar]
  · exact hchar

/-- From the position of a bracket the walk leads to the position of its partner. -/
theorem bracketMatch?_positionAt (hpairs : IsTable pairs)
    (h : d.matchingBracket? pairs i = some j) :
    (∃ c, d.charAt? (d.positionAt i) = some c ∧ ∃ b ∈ pairs, c = b.1 ∨ c = b.2) ∧
      d.bracketMatch? pairs (d.positionAt i) = some (d.positionAt j) := by
  obtain ⟨c, hc, b, hb, hbracket⟩ := exists_bracket_of_matchingBracket? h
  have hx : c ≠ '\n' := by
    obtain ⟨hopen, hclose⟩ := hpairs.inLine b hb
    rcases hbracket with rfl | rfl <;> assumption
  have hchar := charAt?_positionAt hc hx
  have hon : (pairs.any fun b => c == b.1 || c == b.2) = true :=
    List.any_eq_true.2 ⟨b, hb, by simpa using hbracket⟩
  have hsize : i ≤ d.size := Nat.le_of_lt (List.getElem?_eq_some_iff.1 hc).1
  refine ⟨⟨c, hchar, b, hb, hbracket⟩, ?_⟩
  simp only [bracketMatch?, d.clamp_of_inBounds (d.inBounds_positionAt i), hchar, hon, ↓reduceIte,
    d.offsetOf_positionAt hsize, h, Option.map_some]

/-- The nearest candidate is one of them. -/
theorem mem_of_nearest {l : List (Nat × Nat)} {x : Nat × Nat} (h : nearest l = some x) : x ∈ l := by
  induction l generalizing x with
  | nil => cases h
  | cons y l ih =>
    simp only [nearest] at h
    split at h
    · rename_i best hbest
      split at h <;> cases h
      · exact List.mem_cons_of_mem _ (ih hbest)
      · exact List.mem_cons_self
    · cases h
      exact List.mem_cons_self

/-- The far side of a pair around an offset is a bracket with a partner. -/
theorem matchingBracket?_of_farSide? (hpairs : IsTable pairs) (hb : b ∈ pairs) {x : Nat × Nat}
    (h : d.farSide? off b = some x) : ∃ m, d.matchingBracket? pairs x.2 = some m := by
  obtain ⟨⟨o, c⟩, hpair, rfl⟩ := Option.map_eq_some_iff.1 h
  have hmatched := matched_of_enclosingPair? (hpairs.ne b hb) hpair
  dsimp only
  split
  · exact ⟨o, (matchingBracket?_eq_some_iff hpairs).2 ⟨b, hb, .inr hmatched⟩⟩
  · exact ⟨c, (matchingBracket?_eq_some_iff hpairs).2 ⟨b, hb, .inl hmatched⟩⟩

/-- **Wherever the walk starts, it leads to a bracket with a partner.** -/
theorem exists_matchingBracket?_of_bracketMatch? (hpairs : IsTable pairs)
    (h : d.bracketMatch? pairs p = some q) :
    ∃ i j, q = d.positionAt i ∧ d.matchingBracket? pairs i = some j := by
  have hpartner {o : Nat} (h : (d.matchingBracket? pairs o).map d.positionAt = some q) :
      ∃ i j, q = d.positionAt i ∧ d.matchingBracket? pairs i = some j := by
    obtain ⟨i, hi, rfl⟩ := Option.map_eq_some_iff.1 h
    exact ⟨i, o, rfl, matchingBracket?_symm hpairs hi⟩
  have hnearest {o n : Nat} (h : (nearest (pairs.filterMap (d.farSide? o) ++
      ((List.range' (o + 1) n).findSome? fun i =>
        (d.matchingBracket? pairs i).map fun m => (i - o, m)).toList)).map
          (fun x => d.positionAt x.2) = some q) :
      ∃ i j, q = d.positionAt i ∧ d.matchingBracket? pairs i = some j := by
    obtain ⟨x, hx, rfl⟩ := Option.map_eq_some_iff.1 h
    rcases List.mem_append.1 (mem_of_nearest hx) with hx | hx
    · obtain ⟨b, hb, hfar⟩ := List.mem_filterMap.1 hx
      obtain ⟨j, hj⟩ := matchingBracket?_of_farSide? hpairs hb hfar
      exact ⟨x.2, j, rfl, hj⟩
    · -- The next bracket in the line that has a partner stands for the partner.
      rw [Option.mem_toList] at hx
      obtain ⟨k, -, hk⟩ := List.exists_of_findSome?_eq_some hx
      obtain ⟨m, hm, rfl⟩ := Option.map_eq_some_iff.1 hk
      exact ⟨m, k, rfl, matchingBracket?_symm hpairs hm⟩
  simp only [bracketMatch?] at h
  split at h
  · split at h
    · exact hpartner h
    · exact hnearest h
  · exact hnearest h

/-- **From a bracket and back.** With either table, the bracket that balances another is balanced by
it. From any position the walk leads to a bracket of the table, from there to another one, and from
that one back. -/
theorem bracketMatch?_involutive (d : Document) (selecting : Bool) :
    let pairs := if selecting then selectionBracketPairs else bracketPairs
    (∀ i j, d.matchingBracket? pairs i = some j → d.matchingBracket? pairs j = some i) ∧
    ∀ p q, d.bracketMatch? pairs p = some q →
      (∃ c, d.charAt? q = some c ∧ ∃ b ∈ pairs, c = b.1 ∨ c = b.2) ∧
      ∃ r, d.bracketMatch? pairs q = some r ∧ d.bracketMatch? pairs r = some q := by
  intro pairs
  have hpairs : IsTable pairs := isTable selecting
  refine ⟨fun i j => matchingBracket?_symm hpairs, fun p q h => ?_⟩
  obtain ⟨i, j, rfl, hij⟩ := exists_matchingBracket?_of_bracketMatch? hpairs h
  obtain ⟨hbracket, hforth⟩ := bracketMatch?_positionAt hpairs hij
  have hback := (bracketMatch?_positionAt hpairs (matchingBracket?_symm hpairs hij)).2
  exact ⟨hbracket, d.positionAt j, hforth, hback⟩

/-- From between two brackets. -/
theorem bracketMatch?_involutive_between :
    let d := ofText "(\na <b]>\n)".toList
    d.matchingBracket? bracketPairs 0 = some 9 ∧ d.matchingBracket? bracketPairs 9 = some 0 ∧
    d.bracketMatch? selectionBracketPairs ⟨1, 3⟩ = some ⟨1, 5⟩ ∧
    ∃ r, d.bracketMatch? selectionBracketPairs ⟨1, 5⟩ = some r ∧
      d.bracketMatch? selectionBracketPairs r = some ⟨1, 5⟩ := by
  intro d
  have hmatching : d.matchingBracket? bracketPairs 0 = some 9 := by decide
  have hwalk : d.bracketMatch? selectionBracketPairs ⟨1, 3⟩ = some ⟨1, 5⟩ := by decide
  exact ⟨hmatching, (bracketMatch?_involutive d false).1 0 9 hmatching, hwalk,
    ((bracketMatch?_involutive d true).2 ⟨1, 3⟩ ⟨1, 5⟩ hwalk).2⟩

end Document

end ModalEdit
