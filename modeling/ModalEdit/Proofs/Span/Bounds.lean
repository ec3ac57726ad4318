import ModalEdit.Proofs.Text.Plan
import ModalEdit.Proofs.Walk.Bounds
import ModalEdit.Span.TextObject

/-!
# What text objects cover

The range of every text object fits its document, and it is either a piece of characters or whole
lines as `Document.linesSpan` cuts them (`TextObject.isSpan_of_compute`).

Among the objects every structure is found within and around, called by a character of its own
behind the one that says which (`TextObject.exists_ofStructure`).
-/

namespace ModalEdit

namespace Document

variable {d : Document}

/-- The range is a piece of characters. -/
structure IsPiece (d : Document) (r : Range) : Prop extends d.Fits r where
  /-- The range does not stand for lines. -/
  lines : r.lines = none

/-- The range is a piece of characters, or whole lines with or without a line break. -/
inductive IsSpan (d : Document) (withBreak : Bool) : Range → Prop
  /-- A piece of characters. -/
  | chars {r : Range} : d.IsPiece r → IsSpan d withBreak r
  /-- The lines `first` to `last`. -/
  | lines {first last : Nat} : first ≤ last → last ≤ d.lastLine →
    IsSpan d withBreak (d.linesSpan first last withBreak)

theorem fits_between {p q : Position} (hp : d.InBounds p) (hq : d.InBounds q) :
    d.Fits (.between p q) := by
  refine ⟨?_, ?_, Range.between_start_le p q⟩ <;> unfold Range.between <;> split <;> assumption

theorem lines_between (p q : Position) : (Range.between p q).lines = none := by
  unfold Range.between
  split <;> rfl

theorem isPiece_between {p q : Position} (hp : d.InBounds p) (hq : d.InBounds q) :
    d.IsPiece (.between p q) :=
  ⟨fits_between hp hq, lines_between p q⟩

theorem isPiece_inLine {i a b : Nat} (hi : i < d.lineCount) (ha : a ≤ d.lineLen i)
    (hb : b ≤ d.lineLen i) : d.IsPiece (.inLine i a b) :=
  isPiece_between ⟨hi, ha⟩ ⟨hi, hb⟩

/-! ### Whole lines -/

@[simp] theorem lines_linesSpan (first last : Nat) (withBreak : Bool) :
    (d.linesSpan first last withBreak).lines =
      some ⟨min first (min last d.lastLine), min last d.lastLine⟩ := rfl

theorem fits_linesSpan (first last : Nat) (withBreak : Bool) :
    d.Fits (d.linesSpan first last withBreak) := by
  have hlast : min last d.lastLine < d.lineCount := lt_lineCount (Nat.min_le_right _ _)
  have hfits : ∀ r : Range, d.Fits r → d.Fits (r.withLines (min first (min last d.lastLine))
      (min last d.lastLine)) := fun r h => ⟨h.start, h.stop, h.le⟩
  refine hfits _ ?_
  split
  · exact fits_between (inBounds_lineStart (by omega)) (inBounds_lineEnd hlast)
  · split
    · exact fits_between (inBounds_lineStart (by omega))
        (inBounds_lineStart (lt_lineCount (by omega)))
    · split
      · exact fits_between (inBounds_lineEnd (by omega)) (inBounds_lineEnd hlast)
      · exact fits_between d.inBounds_origin (inBounds_lineEnd hlast)

/-- Lines past the last one and lines in the wrong order are put right first. -/
theorem linesSpan_min (first last : Nat) (withBreak : Bool) :
    d.linesSpan first last withBreak =
      d.linesSpan (min first (min last d.lastLine)) (min last d.lastLine) withBreak := by
  simp only [linesSpan, Nat.min_assoc, Nat.min_self]

theorem isSpan_linesSpan (first last : Nat) (withBreak : Bool) :
    d.IsSpan withBreak (d.linesSpan first last withBreak) := by
  rw [linesSpan_min]
  exact .lines (Nat.min_le_right _ _) (Nat.min_le_right _ _)

theorem IsSpan.fits {withBreak : Bool} {r : Range} (h : d.IsSpan withBreak r) : d.Fits r := by
  cases h with
  | chars h => exact h.toFits
  | lines => exact d.fits_linesSpan _ _ _

/-- The lines a range stands for are lines of the document. -/
theorem IsSpan.lines_le {withBreak : Bool} {r : Range} (h : d.IsSpan withBreak r) {l : LineSpan}
    (hl : r.lines = some l) : l.first ≤ l.last ∧ l.last ≤ d.lastLine := by
  cases h with
  | chars h => simp [h.lines] at hl
  | lines hle hlast =>
    simp only [lines_linesSpan, Option.some.injEq] at hl
    subst hl
    dsimp only
    omega

/-! ### Words -/

theorem widen_le {run : Run} (before after : Option Run) {len : Nat}
    (hrun : run.start < run.stop ∧ run.stop ≤ len)
    (hbefore : ∀ r, before = some r → r.start < r.stop ∧ r.stop ≤ len)
    (hafter : ∀ r, after = some r → r.start < r.stop ∧ r.stop ≤ len) :
    (widen run before after).1 ≤ len ∧ (widen run before after).2 ≤ len := by
  unfold widen
  split <;> split
  · have := hafter _ rfl
    dsimp only
    omega
  · have := hbefore _ rfl
    dsimp only
    omega
  · dsimp only
    omega
  · rename_i h
    have := hafter _ (Option.filter_eq_some_iff.1 h).1
    dsimp only
    omega
  · rename_i h
    have := hbefore _ (Option.filter_eq_some_iff.1 h).1
    dsimp only
    omega
  · dsimp only
    omega

theorem isPiece_wordSpan {kind : WordKind} {around : Bool} {p : Position} {r : Range}
    (h : d.wordSpan kind around p = some r) : d.IsPiece r := by
  obtain ⟨i, -, h⟩ := Option.bind_eq_some_iff.1 h
  obtain ⟨run, hrun, h⟩ := Option.bind_eq_some_iff.1 h
  cases h
  have hbounds {k : Nat} {q : Run} (hq : (runs kind (d.content (d.clamp p).line))[k]? = some q) :
      q.start < q.stop ∧ q.stop ≤ d.lineLen (d.clamp p).line :=
    runs_bounds (List.mem_of_getElem? hq)
  -- The neighbours of the run are runs of the same line.
  have hwiden := widen_le (if i = 0 then none else (runs kind (d.content (d.clamp p).line))[i - 1]?)
    (runs kind (d.content (d.clamp p).line))[i + 1]? (hbounds hrun)
    (fun q hq => hbounds (by split at hq; cases hq; exact hq)) fun q hq => hbounds hq
  cases around with
  | true => exact isPiece_inLine (d.clamp_line_lt p) hwiden.1 hwiden.2
  | false =>
    obtain ⟨hlt, hle⟩ := hbounds hrun
    exact isPiece_inLine (d.clamp_line_lt p) (Nat.le_of_lt (Nat.lt_of_lt_of_le hlt hle)) hle

/-! ### Brackets -/

theorem balance_lt {opening closing : Char} {depth : Nat} {t : Text} {n : Nat}
    (h : balance opening closing depth t = some n) : n < t.length := by
  induction t generalizing depth n with
  | nil => simp [balance] at h
  | cons c cs ih =>
    have hrest {depth : Nat} (h : (balance opening closing depth cs).map (· + 1) = some n) :
        n < (c :: cs).length := by
      obtain ⟨m, hm, rfl⟩ := Option.map_eq_some_iff.1 h
      exact Nat.succ_lt_succ (ih hm)
    simp only [balance] at h
    split at h
    · exact hrest h
    · split at h
      · split at h
        · cases h
          exact Nat.succ_pos _
        · exact hrest h
      · exact hrest h

theorem closingAfter?_bounds {b : BracketPair} {o m : Nat} (h : d.closingAfter? b o = some m) :
    o < m ∧ m < d.size := by
  obtain ⟨n, hn, rfl⟩ := Option.map_eq_some_iff.1 h
  have := balance_lt hn
  rw [List.length_drop] at this
  unfold size
  omega

theorem openingBefore?_lt {b : BracketPair} {o m : Nat} (h : d.openingBefore? b o = some m) :
    m < o := by
  unfold openingBefore? at h
  split at h
  · obtain ⟨n, hn, rfl⟩ := Option.map_eq_some_iff.1 h
    have := balance_lt hn
    rw [List.length_reverse, List.length_take] at this
    omega
  · cases h

/-- A pair around an offset has the offset between its brackets or on one of them. -/
theorem enclosingPair?_bounds {b : BracketPair} {o first last : Nat}
    (h : d.enclosingPair? b o = some (first, last)) :
    first ≤ o ∧ o ≤ last ∧ first < last ∧ last < d.size := by
  have hclose {m : Nat} (hm : m ≤ o) (h : (do
      let last ← d.closingAfter? b m
      if o ≤ last then some (m, last) else none) = some (first, last)) :
      first ≤ o ∧ o ≤ last ∧ first < last ∧ last < d.size := by
    obtain ⟨n, hn, h⟩ := Option.bind_eq_some_iff.1 h
    have := closingAfter?_bounds hn
    split at h
    · cases h
      omega
    · cases h
  unfold enclosingPair? at h
  dsimp only at h
  split at h
  · exact hclose (Nat.le_refl o) h
  · obtain ⟨m, hm, h⟩ := Option.bind_eq_some_iff.1 h
    exact hclose (Nat.le_of_lt (openingBefore?_lt hm)) h

theorem isPiece_pairSpan {b : BracketPair} {around : Bool} {p : Position} {r : Range}
    (h : d.pairSpan b around p = some r) : d.IsPiece r := by
  obtain ⟨⟨first, last⟩, -, h⟩ := Option.bind_eq_some_iff.1 h
  have hpos := d.inBounds_positionAt
  dsimp only at h
  split at h
  · cases h
    exact isPiece_between (hpos _) (hpos _)
  · split at h
    · rename_i hlines
      simp only [Bool.and_eq_true, decide_eq_true_eq] at hlines
      have hlast := (hpos last).1
      cases h
      exact isPiece_between (inBounds_lineStart (by omega)) (inBounds_lineStart hlast)
    · cases h
      exact isPiece_between (hpos _) (hpos _)

/-! ### Quotes and tags -/

/-- The columns are those of quotes in the line. -/
theorem getElem?_of_mem_quoteColumns {quote : Char} {escaped : Bool} {i j : Nat} {t : Text}
    (h : j ∈ quoteColumns quote escaped i t) : i ≤ j ∧ t[j - i]? = some quote := by
  induction t generalizing escaped i with
  | nil => simp [quoteColumns] at h
  | cons c cs ih =>
    have hrest (h : j ∈ quoteColumns quote (c == '\\') (i + 1) cs) :
        i ≤ j ∧ (c :: cs)[j - i]? = some quote := by
      obtain ⟨hle, hchar⟩ := ih h
      rw [show j - i = j - (i + 1) + 1 by omega, List.getElem?_cons_succ]
      exact ⟨by omega, hchar⟩
    rw [quoteColumns] at h
    split at h
    · rename_i hquote
      rcases List.mem_cons.1 h with rfl | h
      · exact ⟨Nat.le_refl _, by simp [hquote.1]⟩
      · exact hrest h
    · exact hrest h

theorem lt_of_mem_quoteColumns {quote : Char} {escaped : Bool} {i : Nat} {line : Text} {j : Nat}
    (h : j ∈ quoteColumns quote escaped i line) : j < i + line.length := by
  obtain ⟨hle, hchar⟩ := getElem?_of_mem_quoteColumns h
  have := (List.getElem?_eq_some_iff.1 hchar).1
  omega

theorem mem_of_mem_pairUp {cols : List Nat} {q : Nat × Nat} (h : q ∈ pairUp cols) :
    q.1 ∈ cols ∧ q.2 ∈ cols := by
  fun_induction pairUp cols with
  | case1 a b rest ih =>
    rcases List.mem_cons.1 h with rfl | h
    · simp
    · have := ih h
      simp [this]
  | case2 => simp at h

/-- A pair around the cursor and one behind it come from the same list. -/
theorem mem_of_find?_or_find? {α : Type} {l : List α} {here behind : α → Bool} {a : α}
    (h : (l.find? here).or (l.find? behind) = some a) : a ∈ l := by
  rcases Option.or_eq_some_iff.1 h with h | ⟨-, h⟩
  · exact List.mem_of_find?_eq_some h
  · exact List.mem_of_find?_eq_some h

theorem isPiece_quoteSpan {quote : Char} {around : Bool} {p : Position} {r : Range}
    (h : d.quoteSpan quote around p = some r) : d.IsPiece r := by
  obtain ⟨⟨first, last⟩, hpair, h⟩ := Option.bind_eq_some_iff.1 h
  obtain ⟨hfirst, hlast⟩ := mem_of_mem_pairUp (mem_of_find?_or_find? hpair)
  have hlen : (d.content (d.clamp p).line).length = d.lineLen (d.clamp p).line := rfl
  have := lt_of_mem_quoteColumns hfirst
  have := lt_of_mem_quoteColumns hlast
  dsimp only at h
  split at h <;> cases h
  · exact isPiece_inLine (d.clamp_line_lt p) (by omega) (by omega)
  · exact isPiece_inLine (d.clamp_line_lt p) (by omega) (by omega)

theorem isPiece_tagSpan {around : Bool} {p : Position} {r : Range}
    (h : d.tagSpan around p = some r) : d.IsPiece r := by
  obtain ⟨e, -, h⟩ := Option.bind_eq_some_iff.1 h
  have hpos := d.inBounds_positionAt
  split at h <;> cases h <;> exact isPiece_between (hpos _) (hpos _)

/-! ### Walks -/

theorem isSpan_walkedSpan {u : Purpose} {origin : Position} (ho : d.InBounds origin)
    (a : Arrival) : d.IsSpan u.takesBreak (d.walkedSpan u origin a) := by
  have hr := isPiece_between ho (d.inBounds_clamp a.target)
  simp only [walkedSpan]
  generalize Range.between origin (d.clamp a.target) = r at hr
  have hline := hr.stop.1
  have hcol := hr.stop.2
  split
  · refine .chars ⟨⟨hr.start, ⟨hline, Nat.min_le_right _ _⟩, ?_⟩, hr.lines⟩
    refine Position.le_trans hr.le (.inr ⟨rfl, ?_⟩)
    dsimp only
    omega
  · split
    · rename_i hcross
      split
      · exact isSpan_linesSpan _ _ _
      · -- The range ends at a line start, from where it is moved back to the line before.
        refine .chars ⟨⟨hr.start, inBounds_lineEnd (by omega), ?_⟩, hr.lines⟩
        rcases Nat.lt_or_eq_of_le (Nat.le_sub_one_of_lt hcross.2) with h | h
        · exact .inl h
        · exact .inr ⟨h, h ▸ hr.start.2⟩
    · exact .chars hr

theorem wordEndUnder?_le {kind : WordKind} {p : Position} {stop : Nat}
    (h : d.wordEndUnder? kind p = some stop) : stop ≤ d.lineLen p.line := by
  obtain ⟨r, hr, rfl⟩ := Option.map_eq_some_iff.1 h
  exact (words_bounds (List.mem_of_find?_eq_some hr)).2

end Document

variable {d : Document}

theorem Walk.isSpan_span (w : Walk) (u : Purpose) (p : Position) (a : Arrival) :
    d.IsSpan u.takesBreak (w.span d u p a) := by
  have ho := d.inBounds_clamp p
  simp only [span]
  split
  · exact Document.isSpan_linesSpan _ _ _
  · split
    · split
      · rename_i hstop
        split at hstop
        · have hle := Document.wordEndUnder?_le hstop
          exact .chars (Document.isPiece_between ho ⟨ho.1, hle⟩)
        · cases hstop
      · split
        · exact .chars (Document.isPiece_between ho (Document.inBounds_lineEnd ho.1))
        · exact Document.isSpan_walkedSpan ho a
    · exact Document.isSpan_walkedSpan ho a

/-! ### Text objects -/

/-- A paragraph is whole lines, any other structure a piece of characters. -/
theorem Structure.isPiece_span {k : Structure} {u : Purpose} {around : Bool} {p : Position}
    {r : Range} (hk : k ≠ .paragraph) (h : k.span d u around p = some r) : d.IsPiece r := by
  cases k with
  | word kind => exact Document.isPiece_wordSpan h
  | pair b => exact Document.isPiece_pairSpan h
  | quote c => exact Document.isPiece_quoteSpan h
  | tag => exact Document.isPiece_tagSpan h
  | paragraph => exact absurd rfl hk

/-- Whole lines of the object take a line break with them. -/
def TextObject.takesBreak (u : Purpose) : TextObject → Bool
  | line _ withBreak => withBreak
  | _ => u.takesBreak

theorem Found.ofMatch_eq_some {α : Type} {m : Match} {f : Option Key → Option α} {a : α}
    {rest : List Key} (h : Found.ofMatch m f = .some a rest) : ∃ key, f key = .some a := by
  unfold Found.ofMatch at h
  split at h
  · split at h
    · cases h
      exact ⟨_, ‹_›⟩
    · cases h
  · cases h
  · cases h

/-- Two results of one match come from the same key captured. -/
theorem Found.exists_of_ofMatch {α : Type} {m : Match} {f f' : Option Key → Option α} {a a' : α}
    {rest rest' : List Key} (h : Found.ofMatch m f = .some a rest)
    (h' : Found.ofMatch m f' = .some a' rest') : ∃ key, f key = .some a ∧ f' key = .some a' := by
  cases m with
  | full captured left =>
    simp only [ofMatch] at h h'
    refine ⟨captured.map (·.2), ?_⟩
    split at h <;> cases h
    split at h' <;> cases h'
    exact ⟨‹_›, ‹_›⟩
  | partly => cases h
  | none => cases h

theorem Found.exists_of_result? {α : Type} {f : Found α} {a : α} (h : f.result? = .some a) :
    ∃ rest, f = .some a rest := by
  cases f with
  | some a' rest =>
    cases h
    exact ⟨rest, rfl⟩
  | partly => cases h
  | none => cases h

/-- **What a text object covers.** Its range is a piece of characters or whole lines. -/
theorem TextObject.isSpan_of_compute {o : TextObject} {u : Purpose} {p : Position}
    {keys rest : List Key} {res : ObjectRange} (h : o.compute d u p keys = .some res rest) :
    d.IsSpan (o.takesBreak u) res.range := by
  cases o with
  | structural name pattern kind around =>
    simp only [compute] at h
    obtain ⟨key, h⟩ := Found.ofMatch_eq_some h
    obtain ⟨r, hr, rfl⟩ := Option.map_eq_some_iff.1 h
    by_cases hk : kind = .paragraph
    · subst hk
      cases hr
      exact Document.isSpan_linesSpan _ _ _
    · exact .chars (Structure.isPiece_span hk hr)
  | walked m =>
    simp only [compute] at h
    obtain ⟨key, h⟩ := Found.ofMatch_eq_some h
    obtain ⟨a, -, rfl⟩ := Option.map_eq_some_iff.1 h
    exact m.walk.isSpan_span u p a
  | line pattern withBreak =>
    simp only [compute] at h
    obtain ⟨key, h⟩ := Found.ofMatch_eq_some h
    cases h
    exact Document.isSpan_linesSpan _ _ _

/-! ### The structures -/

namespace TextObject

variable {o : TextObject} {n : String} {cs : List Char} {k : Structure}

/-- The character that calls a structure together with what is around it, or without. -/
def leadOf (around : Bool) : Char := if around then 'a' else 'i'

/-- The object that finds what is within a structure, or the structure with what is around it. -/
def ofStructure (name : String) (c : Char) (kind : Structure) (around : Bool) : TextObject :=
  structural name (.literal [.char (leadOf around), .char c]) kind around

theorem mem_family_iff :
    o ∈ family n cs k ↔ ∃ c ∈ cs, ∃ around, o = ofStructure n c k around := by
  simp only [family, List.mem_append, List.mem_map, ← exists_or, ← and_or_left, ofStructure,
    leadOf, Bool.exists_bool, Bool.false_eq_true, ↓reduceIte, eq_comm]

/-- **Every structure is called by two characters.** -/
theorem exists_ofStructure (ho : o ∈ structures) :
    ∃ name c kind around, o = ofStructure name c kind around := by
  have hfamily {n : String} {cs : List Char} {k : Structure} (h : o ∈ family n cs k) :
      ∃ name c kind around, o = ofStructure name c kind around := by
    obtain ⟨c, -, around, rfl⟩ := mem_family_iff.1 h
    exact ⟨n, c, k, around, rfl⟩
  simp only [structures, List.mem_append] at ho
  rcases ho with (((((((((h | h) | h) | h) | h) | h) | h) | h) | h) | h) | h <;> exact hfamily h

end TextObject

end ModalEdit
