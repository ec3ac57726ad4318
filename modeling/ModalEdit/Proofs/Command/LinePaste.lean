import ModalEdit.Proofs.Command.Pairing
import ModalEdit.Proofs.Text.Contents

/-!
# Entries in the place of lines

Entries of whole lines that are pasted over pieces of lines, none of which share a line, are one
batch of edits (`Document.lineEdit`). What it should come to is told line by line
(`Document.pastedLines`): where a piece begins there come the lines of its entry, and a line that
lies in no piece is kept.

A piece takes the break behind it, or the one in front if it reaches the last line, or none if it is
all lines. This goes wrong in two ways. When a piece ends right before one that reaches the last
line, both take the same break and the batch is refused (`Document.edit_of_meetAtEnd`). When a piece
is all lines, it takes no break, but its entry brings one and a last line too many comes out.
`Document.edit_lineEdits` says that everything else is right.
-/

namespace ModalEdit

/-- The line with index `i` is one of these lines. -/
def LineSpan.has (l : LineSpan) (i : Nat) : Bool := decide (l.first ≤ i ∧ i ≤ l.last)

/-- No line belongs to both. -/
def LineSpan.Apart (l m : LineSpan) : Prop := l.last < m.first ∨ m.last < l.first

instance (l m : LineSpan) : Decidable (l.Apart m) := inferInstanceAs (Decidable (_ ∨ _))

instance : Std.Symm LineSpan.Apart := ⟨fun _ _ h => h.symm⟩

namespace RegisterEntry

/-- The lines of an entry. -/
def lines (e : RegisterEntry) : List Text := (Document.ofText e.body).contents

/-- The entry is whole lines, and its only breaks are line feeds. -/
def IsLines (e : RegisterEntry) : Prop := ∃ t, e = .ofLines t ∧ (Document.ofText t).LineFeedsOnly

theorem IsLines.lineFeedsOnly_body {e : RegisterEntry} (h : e.IsLines) :
    (Document.ofText e.body).LineFeedsOnly := by
  obtain ⟨t, rfl, ht⟩ := h
  intro c hc hbreak
  have hmem : c ∈ (ofLines t).text := by
    rw [text_ofLines]
    exact List.mem_append_left _ hc
  simp only [ofLines, make] at hmem
  split at hmem
  · rcases List.mem_append.1 hmem with hmem | hmem
    · exact ht c hmem hbreak
    · exact List.mem_singleton.1 hmem
  · exact ht c hmem hbreak

/-- With a final line feed the body of an entry is its lines. -/
theorem IsLines.ended_lines {e : RegisterEntry} (h : e.IsLines) :
    ended e.lines = e.body ++ ['\n'] :=
  (Document.text_append_newline h.lineFeedsOnly_body).symm

theorem lines_ne_nil (e : RegisterEntry) : e.lines ≠ [] := by
  rw [← List.length_pos_iff, lines, Document.length_contents]
  exact Document.lineCount_pos _

theorem IsLines.linewise {e : RegisterEntry} (h : e.IsLines) : e.linewise = true := by
  obtain ⟨t, rfl, -⟩ := h
  rfl

theorem IsLines.text_eq {e : RegisterEntry} (h : e.IsLines) : e.text = e.body ++ ['\n'] := by
  obtain ⟨t, rfl, -⟩ := h
  exact text_ofLines t

theorem IsLines.isLine {e : RegisterEntry} (h : e.IsLines) : ∀ l ∈ e.lines, IsLine l :=
  fun _ => Document.isLine_of_mem_contents h.lineFeedsOnly_body

end RegisterEntry

/-- From entries of whole lines every selection gets whole lines. -/
theorem Registers.isLines_of_entryFor {r : Registers} (h : ∀ e ∈ r.entries, e.IsLines)
    {sels : List Selection} {sel : Selection} {e : RegisterEntry}
    (he : r.entryFor sels sel = some e) : e.IsLines := by
  unfold entryFor at he
  split at he
  · exact h e (List.mem_of_getElem? he)
  · have hne : r.entries ≠ [] := by
      intro hnil
      rw [joined?, hnil] at he
      cases he
    have hlinewise : r.entries.all (·.linewise) = true :=
      List.all_eq_true.2 fun e he => (h e he).linewise
    rw [joined?_of_ne_nil hne, hlinewise, Option.some.injEq] at he
    refine ⟨_, he.symm, fun c hc hbreak => ?_⟩
    have hmem : c ∈ ended (r.entries.map (·.body)) := by
      rw [ended, ← intercalate_append_newline (by simpa using hne)]
      exact List.mem_append_left _ hc
    obtain ⟨_, hline, hmem⟩ := List.mem_flatten.1 hmem
    obtain ⟨_, hbody, rfl⟩ := List.mem_map.1 hline
    obtain ⟨e', he', rfl⟩ := List.mem_map.1 hbody
    rcases List.mem_append.1 hmem with hmem | hmem
    · exact (h e' he').lineFeedsOnly_body c hmem hbreak
    · exact List.mem_singleton.1 hmem

/-- Lines of a document and the entry that is pasted over them. -/
structure LinePaste where
  /-- The lines. -/
  span : LineSpan
  /-- The entry. -/
  entry : RegisterEntry
deriving DecidableEq, Repr

namespace Document

variable {d : Document} {ps : List LinePaste} {p : LinePaste} {i k : Nat}

/-- What comes in the place of a line: the lines of the entries pasted over lines that begin here,
and the line itself unless it is one of those pasted over. -/
def pastedAt (d : Document) (ps : List LinePaste) (i : Nat) : List Text :=
  (ps.filter fun p => p.span.first == i).flatMap (·.entry.lines) ++
    if ps.any (·.span.has i) then [] else [d.content i]

/-- The lines of the document with entries pasted over some of them. -/
def pastedLines (d : Document) (ps : List LinePaste) : List Text :=
  (List.range d.lineCount).flatMap (d.pastedAt ps)

/-- The edit that pastes an entry over lines. -/
def lineEdit (d : Document) (p : LinePaste) : Edit :=
  let r := d.linesSpan p.span.first p.span.last true
  .replace r (replacement r p.entry)

/-- Entries of whole lines are pasted over lines of the document that have none in common. -/
structure Pastes (d : Document) (ps : List LinePaste) : Prop where
  /-- The lines exist. -/
  bounds : ∀ p ∈ ps, p.span.first ≤ p.span.last ∧ p.span.last ≤ d.lastLine
  /-- No line is pasted over twice. -/
  apart : ps.Pairwise fun p q => p.span.Apart q.span
  /-- The entries are whole lines. -/
  entries : ∀ p ∈ ps, p.entry.IsLines

/-- An entry is pasted over lines that end right before other lines that reach the last one. -/
def MeetAtEnd (d : Document) (ps : List LinePaste) : Prop :=
  ∃ p ∈ ps, ∃ q ∈ ps, p.span.last + 1 = q.span.first ∧ q.span.last = d.lastLine

instance : Decidable (d.MeetAtEnd ps) :=
  inferInstanceAs (Decidable (∃ p ∈ ps, ∃ q ∈ ps, _ ∧ _))

/-- An entry is pasted over all lines. -/
def TakesAll (d : Document) (ps : List LinePaste) : Prop := ∃ p ∈ ps, p.span = ⟨0, d.lastLine⟩

instance : Decidable (d.TakesAll ps) := inferInstanceAs (Decidable (∃ p ∈ ps, _ = _))

/-! ### Line by line -/

/-- The lines from `k` on with entries pasted over some of them, which come in order. -/
def pastedFrom (ls : List Text) (k : Nat) : List LinePaste → List Text
  | [] => ls.drop k
  | p :: ps => (ls.take p.span.first).drop k ++ p.entry.lines ++ pastedFrom ls (p.span.last + 1) ps

/-- The pieces lie behind each other, from the line `k` up to the line `last`. -/
def LinesInSequence (last : Nat) (k : Nat) : List LinePaste → Prop
  | [] => k ≤ last + 1
  | p :: ps =>
    k ≤ p.span.first ∧ p.span.first ≤ p.span.last ∧ LinesInSequence last (p.span.last + 1) ps

theorem LinesInSequence.le {last : Nat} (h : LinesInSequence last k ps) : k ≤ last + 1 := by
  induction ps generalizing k with
  | nil => exact h
  | cons p ps ih =>
    obtain ⟨hfirst, hle, hrest⟩ := h
    have := ih hrest
    omega

theorem LinesInSequence.le_first {last : Nat} (h : LinesInSequence last k ps) :
    ∀ p ∈ ps, k ≤ p.span.first ∧ p.span.first ≤ p.span.last ∧ p.span.last ≤ last := by
  induction ps generalizing k with
  | nil => simp
  | cons p ps ih =>
    obtain ⟨hfirst, hle, hrest⟩ := h
    have := hrest.le
    refine List.forall_mem_cons.2 ⟨⟨hfirst, hle, by omega⟩, fun q hq => ?_⟩
    have := ih hrest q hq
    omega

/-- A line in front of all pieces is kept. -/
theorem pastedAt_of_lt (h : ∀ p ∈ ps, i < p.span.first) : d.pastedAt ps i = [d.content i] := by
  have hfilter : ps.filter (fun p => p.span.first == i) = [] := by
    refine List.filter_eq_nil_iff.2 fun p hp => ?_
    have := h p hp
    simp only [beq_iff_eq]
    omega
  have hany : ps.any (·.span.has i) = false := by
    refine List.any_eq_false.2 fun p hp => ?_
    have := h p hp
    simp only [LineSpan.has, decide_eq_true_eq]
    omega
  simp [pastedAt, hfilter, hany]

/-- In the place of the lines of the first piece there come the lines of its entry. -/
theorem pastedAt_cons_of_has (hfirst : p.span.first ≤ i) (hlast : i ≤ p.span.last)
    (hbehind : ∀ q ∈ ps, p.span.last < q.span.first) :
    d.pastedAt (p :: ps) i = if p.span.first = i then p.entry.lines else [] := by
  have hfilter : ps.filter (fun p => p.span.first == i) = [] := by
    refine List.filter_eq_nil_iff.2 fun q hq => ?_
    have := hbehind q hq
    simp only [beq_iff_eq]
    omega
  have hhas : p.span.has i = true := by simp [LineSpan.has, hfirst, hlast]
  by_cases hstart : p.span.first = i <;> simp [pastedAt, hhas, hfilter, hstart]

theorem pastedAt_cons_of_lt (hle : p.span.first ≤ p.span.last) (hlt : p.span.last < i) :
    d.pastedAt (p :: ps) i = d.pastedAt ps i := by
  have hhas : p.span.has i = false := by
    simp only [LineSpan.has, decide_eq_false_iff_not]
    omega
  have hstart : ¬ p.span.first = i := by omega
  simp [pastedAt, hhas, hstart]

theorem flatMap_range'_content {n : Nat} (hn : k + n ≤ d.lineCount) :
    (List.range' k n).flatMap (fun i => [d.content i]) = (d.contents.take (k + n)).drop k := by
  rw [← List.map_eq_flatMap]
  refine List.ext_getElem? fun j => ?_
  rw [List.getElem?_map, List.getElem?_drop, List.getElem?_take]
  by_cases hj : j < n
  · rw [if_pos (by omega), getElem?_contents (by omega), List.getElem?_range' hj]
    simp
  · rw [if_neg (by omega), List.getElem?_eq_none (by simpa using hj)]
    rfl

/-- The lines from `k` on are those in front of a piece, those in it and those behind it. -/
theorem range'_split {first last n : Nat} (hk : k ≤ first) (hle : first ≤ last) (hlast : last < n) :
    List.range' k (n - k) =
      List.range' k (first - k) ++ (first :: List.range' (first + 1) (last - first)) ++
        List.range' (last + 1) (n - (last + 1)) := by
  obtain ⟨a, rfl⟩ := Nat.exists_eq_add_of_le hk
  obtain ⟨b, rfl⟩ := Nat.exists_eq_add_of_le hle
  obtain ⟨c, rfl⟩ := Nat.exists_eq_add_of_lt hlast
  have hlength : k + a + b + c + 1 - k = a + (b + 1) + c := by omega
  have hbehind : k + a + b + c + 1 - (k + a + b + 1) = c := by omega
  rw [hlength, hbehind, Nat.add_sub_cancel_left, Nat.add_sub_cancel_left, ← List.range'_succ,
    List.range'_append_1, ← List.range'_append_1 (s := k) (m := a + (b + 1))]
  simp only [Nat.add_assoc]

/-- **Line by line** is the same as piece by piece. -/
theorem flatMap_pastedAt (h : LinesInSequence d.lastLine k ps) :
    (List.range' k (d.lineCount - k)).flatMap (d.pastedAt ps) = pastedFrom d.contents k ps := by
  have hcount := d.lastLine_add_one
  induction ps generalizing k with
  | nil =>
    have hk : k + (d.lineCount - k) = d.lineCount := by
      have : k ≤ d.lastLine + 1 := h
      omega
    have hkept : ∀ i ∈ List.range' k (d.lineCount - k), d.pastedAt [] i = [d.content i] :=
      fun i _ => pastedAt_of_lt (by simp)
    rw [List.flatMap_congr hkept, flatMap_range'_content (Nat.le_of_eq hk), hk,
      ← length_contents, List.take_length, pastedFrom]
  | cons p ps ih =>
    have hbounds := h.le_first
    obtain ⟨hfirst, hle, hrest⟩ := h
    obtain ⟨⟨-, -, hlast⟩, -⟩ := List.forall_mem_cons.1 hbounds
    have hbehind : ∀ q ∈ ps, p.span.last < q.span.first := fun q hq => (hrest.le_first q hq).1
    have hbefore : ∀ i ∈ List.range' k (p.span.first - k),
        d.pastedAt (p :: ps) i = [d.content i] := by
      intro i hi
      rw [List.mem_range'_1] at hi
      refine pastedAt_of_lt (List.forall_mem_cons.2 ⟨by omega, fun q hq => ?_⟩)
      have := hbehind q hq
      omega
    have hgone : (List.range' (p.span.first + 1) (p.span.last - p.span.first)).flatMap
        (d.pastedAt (p :: ps)) = [] := by
      refine List.flatMap_eq_nil_iff.2 fun i hi => ?_
      rw [List.mem_range'_1] at hi
      rw [pastedAt_cons_of_has (by omega) (by omega) hbehind, if_neg (by omega)]
    have hafter : ∀ i ∈ List.range' (p.span.last + 1) (d.lineCount - (p.span.last + 1)),
        d.pastedAt (p :: ps) i = d.pastedAt ps i := by
      intro i hi
      rw [List.mem_range'_1] at hi
      exact pastedAt_cons_of_lt hle (by omega)
    rw [range'_split hfirst hle (by omega), List.flatMap_append, List.flatMap_append,
      List.flatMap_cons, List.flatMap_congr hbefore, List.flatMap_congr hafter, hgone, ih hrest,
      pastedAt_cons_of_has (Nat.le_refl _) hle hbehind, if_pos rfl, List.append_nil,
      flatMap_range'_content (by omega), Nat.add_sub_cancel' hfirst, pastedFrom]

/-! ### The edits by offsets -/

/-- The edit that pastes an entry over lines, by offsets. -/
def lineOffsetEdit (d : Document) (p : LinePaste) : OffsetEdit :=
  if p.span.last < d.lastLine then
    ⟨d.lineStart p.span.first, d.lineStart (p.span.last + 1), p.entry.body ++ ['\n'], 0⟩
  else if 0 < p.span.first then
    ⟨d.lineStart p.span.first - 1, d.size, '\n' :: p.entry.body, 0⟩
  else ⟨0, d.size, p.entry.body ++ ['\n'], 0⟩

theorem parts_lineEdit (hd : d.LineFeedsOnly) (hle : p.span.first ≤ p.span.last)
    (hlast : p.span.last ≤ d.lastLine) :
    (d.offsetOf (d.lineEdit p).range.start, d.offsetOf (d.lineEdit p).range.stop,
      (d.lineEdit p).text) = (d.lineOffsetEdit p).parts := by
  simp only [lineEdit, Edit.replace, replacement, lines_linesSpan_of_le hle hlast,
    start_linesSpan hle hlast, stop_linesSpan hle hlast, true_and, lineOffsetEdit]
  rcases Nat.lt_or_eq_of_le hlast with hlt | heq
  · have hne : ¬ (p.span.last = d.lastLine ∧ 0 < p.span.first) := by omega
    rw [if_pos hlt, if_pos hlt, if_neg hne, if_neg (Nat.lt_irrefl _),
      offsetOf_lineStart (by omega), offsetOf_lineStart (by omega), OffsetEdit.parts]
  · have hno : ¬ p.span.last < d.lastLine := by omega
    rw [if_neg hno, if_neg hno, heq, offsetOf_lineEnd_lastLine]
    by_cases hpos : 0 < p.span.first
    · have hbefore : (d.lineEnd (p.span.first - 1)).line < p.span.first := by
        simp only [lineEnd]
        omega
      rw [if_pos ⟨rfl, hpos⟩, if_pos hpos, if_pos hbefore,
        hd.lineStart_eq_add_one hpos (by omega), Nat.add_sub_cancel, OffsetEdit.parts]
    · rw [if_neg fun h => hpos h.2, if_neg hpos, if_neg (Nat.lt_irrefl _),
        offsetOf_lineStart (by omega), Nat.eq_zero_of_not_pos hpos, lineStart_zero,
        OffsetEdit.parts]

/-- **The edits leave the lines of the entries**, one piece after the other, as long as no piece
that reaches the last line begins at the line `k` or right behind another piece. -/
theorem rebuild_lineOffsetEdits (hd : d.LineFeedsOnly) (hk : k ≤ d.lastLine)
    (hseq : LinesInSequence d.lastLine k ps)
    (hentries : ∀ p ∈ ps, ended p.entry.lines = p.entry.body ++ ['\n'])
    (hfirst : ∀ p ∈ ps, p.span.last = d.lastLine → k < p.span.first) (hmeet : ¬ d.MeetAtEnd ps) :
    rebuild d.text (d.lineStart k) (ps.map d.lineOffsetEdit) ++ ['\n'] =
      ended (pastedFrom d.contents k ps) := by
  induction ps generalizing k with
  | nil => exact drop_lineStart hd hk
  | cons p ps ih =>
    obtain ⟨hkp, hle, hrest⟩ := hseq
    obtain ⟨hentry, hentries⟩ := List.forall_mem_cons.1 hentries
    have hbounds := hrest.le_first
    have hlast := hrest.le
    rw [List.map_cons, rebuild, pastedFrom, ended_append, ended_append, hentry]
    rcases Nat.lt_or_eq_of_le (Nat.le_of_succ_le_succ hlast) with hlt | heq
    · -- The piece takes the break behind it.
      have hnext : ∀ q ∈ ps, q.span.last = d.lastLine → p.span.last + 1 < q.span.first := by
        intro q hq hend
        refine Nat.lt_of_le_of_ne (hbounds q hq).1 fun heq => hmeet ?_
        exact ⟨p, List.mem_cons_self, q, List.mem_cons_of_mem _ hq, heq, hend⟩
      have hmeet : ¬ d.MeetAtEnd ps := by
        rintro ⟨q, hq, q', hq', h⟩
        exact hmeet ⟨q, List.mem_cons_of_mem _ hq, q', List.mem_cons_of_mem _ hq', h⟩
      rw [lineOffsetEdit, if_pos hlt]
      dsimp only
      rw [cut_lineStart hd hkp (by omega), List.append_assoc, ih hlt hrest hentries hnext hmeet]
    · -- The piece is the last one and takes the break in front of it.
      have hkp : k < p.span.first := hfirst p List.mem_cons_self heq
      obtain rfl : ps = [] := by
        refine List.eq_nil_iff_forall_not_mem.2 fun q hq => ?_
        have := hbounds q hq
        omega
      have hnothing : d.contents.drop (p.span.last + 1) = [] := by
        rw [List.drop_eq_nil_iff, length_contents, heq, lastLine_add_one]
      have hend : d.text.drop d.size = [] := List.drop_length
      rw [lineOffsetEdit, if_neg (by omega), if_pos (by omega), List.map_nil, rebuild, pastedFrom,
        hnothing, ← cut_lineStart_sub_one hd hkp (by omega)]
      dsimp only
      rw [hend, ended_nil]
      simp

/-! ### Any order of the pieces -/

variable {qs : List LinePaste}

theorem linesInSequence_of_pairwise (hk : k ≤ d.lastLine + 1) (hfirst : ∀ p ∈ ps, k ≤ p.span.first)
    (hbounds : ∀ p ∈ ps, p.span.first ≤ p.span.last ∧ p.span.last ≤ d.lastLine)
    (hapart : ps.Pairwise fun p q => p.span.last < q.span.first) :
    LinesInSequence d.lastLine k ps := by
  induction ps generalizing k with
  | nil => exact hk
  | cons p ps ih =>
    obtain ⟨hp, hbounds⟩ := List.forall_mem_cons.1 hbounds
    obtain ⟨hnext, hapart⟩ := List.pairwise_cons.1 hapart
    exact ⟨hfirst p List.mem_cons_self, hp.1, ih (by omega) hnext hbounds hapart⟩

/-- Pieces without a common line have an order. -/
theorem Pastes.exists_sorted (h : d.Pastes ps) :
    ∃ qs, qs.Perm ps ∧ LinesInSequence d.lastLine 0 qs := by
  let qs := ps.mergeSort fun p q => decide (p.span.first ≤ q.span.first)
  have hperm : qs.Perm ps := List.mergeSort_perm _ _
  have hsorted : qs.Pairwise fun p q => p.span.first ≤ q.span.first := by
    refine (List.pairwise_mergeSort (fun p q r hpq hqr => ?_) (fun p q => ?_) ps).imp
      fun h => by simpa using h
    · simp only [decide_eq_true_eq] at *
      omega
    · simp only [Bool.or_eq_true, decide_eq_true_eq]
      omega
  have hapart : qs.Pairwise fun p q => p.span.Apart q.span :=
    (hperm.pairwise_iff fun h => h.symm).2 h.apart
  have hbounds : ∀ p ∈ qs, p.span.first ≤ p.span.last ∧ p.span.last ≤ d.lastLine := fun p hp =>
    h.bounds p (hperm.mem_iff.1 hp)
  refine ⟨qs, hperm, linesInSequence_of_pairwise (Nat.zero_le _) (fun _ _ => Nat.zero_le _) hbounds
    ((hsorted.and hapart).imp_of_mem fun {p q} hp hq hpq => ?_)⟩
  have := hbounds q hq
  rcases hpq.2 with h | h
  · exact h
  · omega

/-- A list of which no two members can stand together has only one order. -/
theorem eq_of_perm_of_pairwise_false {α : Type} {l l' : List α} (hperm : l'.Perm l)
    (h : l.Pairwise fun _ _ => False) : l' = l := by
  match l, h with
  | [], _ => exact hperm.eq_nil
  | [a], _ => exact List.perm_singleton.1 hperm
  | a :: b :: _, h => exact ((List.pairwise_cons.1 h).1 b List.mem_cons_self).elim

/-- Only one piece begins with a line, so the order of the pieces does not matter. -/
theorem Pastes.pastedAt_of_perm (h : d.Pastes ps) (hperm : qs.Perm ps) (i : Nat) :
    d.pastedAt qs i = d.pastedAt ps i := by
  have hbegins : ∀ p ∈ ps.filter (fun p => p.span.first == i),
      p.span.first = i ∧ i ≤ p.span.last := by
    intro p hp
    obtain ⟨hp, hfirst⟩ := List.mem_filter.1 hp
    have := h.bounds p hp
    simp only [beq_iff_eq] at hfirst
    omega
  have hfilter : qs.filter (fun p => p.span.first == i) = ps.filter fun p => p.span.first == i := by
    refine eq_of_perm_of_pairwise_false (hperm.filter _)
      ((h.apart.filter _).imp_of_mem fun {p q} hp hq hpq => ?_)
    have := hbegins p hp
    have := hbegins q hq
    rcases hpq with h | h <;> omega
  rw [pastedAt, pastedAt, hfilter, hperm.any_eq]

/-- What the lines should become does not depend on the order of the pieces. -/
theorem Pastes.pastedLines_eq (h : d.Pastes ps) (hperm : qs.Perm ps)
    (hseq : LinesInSequence d.lastLine 0 qs) :
    d.pastedLines ps = pastedFrom d.contents 0 qs := by
  rw [← flatMap_pastedAt hseq, pastedLines, List.range_eq_range']
  exact List.flatMap_congr fun i _ => (h.pastedAt_of_perm hperm i).symm

theorem Pastes.isLine (hd : d.LineFeedsOnly) (h : d.Pastes ps) :
    ∀ l ∈ d.pastedLines ps, IsLine l := by
  intro l hl
  obtain ⟨i, hi, hl⟩ := List.mem_flatMap.1 hl
  rcases List.mem_append.1 hl with hl | hl
  · obtain ⟨p, hp, hl⟩ := List.mem_flatMap.1 hl
    exact (h.entries p (List.mem_filter.1 hp).1).isLine l hl
  · split at hl
    · cases hl
    · obtain rfl := List.mem_singleton.1 hl
      exact isLine_content hd (List.mem_range.1 hi)

/-- A piece that is all lines is the only one. -/
theorem TakesAll.eq_singleton (hseq : LinesInSequence d.lastLine 0 qs) (h : d.TakesAll qs) :
    ∃ p, qs = [p] ∧ p.span = ⟨0, d.lastLine⟩ := by
  obtain ⟨p, hp, hspan⟩ := h
  match qs, hseq, hp with
  | q :: qs, ⟨_, _, hrest⟩, hp =>
    have hbounds := hrest.le_first
    rcases List.mem_cons.1 hp with rfl | hp
    · have hnone : qs = [] := by
        refine List.eq_nil_iff_forall_not_mem.2 fun q' hq' => ?_
        have := hbounds q' hq'
        simp only [hspan] at this
        omega
      exact ⟨p, by rw [hnone], hspan⟩
    · have := hbounds p hp
      simp only [hspan] at this
      omega

/-- A piece that is all lines meets no other. -/
theorem Pastes.not_meetAtEnd_of_takesAll (h : d.Pastes ps) (hall : d.TakesAll ps) :
    ¬ d.MeetAtEnd ps := by
  rintro ⟨q, hq, q', hq', hnext, -⟩
  obtain ⟨p, hp, hspan⟩ := hall
  have hqb := h.bounds q hq
  have hqb' := h.bounds q' hq'
  have hne : p ≠ q := by
    rintro rfl
    rw [hspan] at hnext
    dsimp only at hnext
    omega
  have hapart := rel_or_rel_of_mem h.apart hp hq hne
  simp only [LineSpan.Apart, hspan] at hapart
  omega

/-! ### The batch -/

theorem LinesInSequence.pairwise {last : Nat} (h : LinesInSequence last k ps) :
    ps.Pairwise fun p q => p.span.last < q.span.first := by
  induction ps generalizing k with
  | nil => exact .nil
  | cons p ps ih =>
    obtain ⟨-, -, hrest⟩ := h
    exact List.pairwise_cons.2 ⟨fun q hq => (hrest.le_first q hq).1, ih hrest⟩

/-- What comes behind a piece begins behind its end, and not where it begins. -/
theorem pairwise_lineOffsetEdits (hd : d.LineFeedsOnly) (hseq : LinesInSequence d.lastLine k qs)
    (hmeet : ¬ d.MeetAtEnd qs) :
    (qs.map d.lineOffsetEdit).Pairwise fun e f => e.stop ≤ f.start ∧ e.start < f.start := by
  refine List.pairwise_map.2 (hseq.pairwise.imp_of_mem fun {p q} hp hq hpq => ?_)
  have hpb := hseq.le_first p hp
  have hqb := hseq.le_first q hq
  have hstop := hd.lineStart_lt (i := p.span.first) (j := p.span.last + 1) (by omega) (by omega)
  have hp' : d.lineOffsetEdit p =
      ⟨d.lineStart p.span.first, d.lineStart (p.span.last + 1), p.entry.body ++ ['\n'], 0⟩ := by
    rw [lineOffsetEdit, if_pos (by omega)]
  have hbehind : d.lineStart (p.span.last + 1) ≤ (d.lineOffsetEdit q).start := by
    rcases Nat.lt_or_eq_of_le hqb.2.2 with hlt | heq
    · rw [lineOffsetEdit, if_pos hlt]
      exact lineStart_mono hpq
    · -- The end of the line before lies behind the piece, which does not end with that line.
      have hne : p.span.last + 1 ≠ q.span.first := fun h => hmeet ⟨p, hp, q, hq, h, heq⟩
      have := hd.lineStart_lt (i := p.span.last + 1) (j := q.span.first) (by omega) (by omega)
      rw [lineOffsetEdit, if_neg (by omega), if_pos (by omega)]
      dsimp only
      omega
  rw [hp']
  exact ⟨hbehind, Nat.lt_of_lt_of_le hstop hbehind⟩

/-- The batch by offsets and in document order. -/
theorem map_parts_inOrder (hd : d.LineFeedsOnly) (h : d.Pastes ps) (hperm : qs.Perm ps)
    (hstrict : (qs.map d.lineOffsetEdit).Pairwise fun e f => e.stop ≤ f.start ∧ e.start < f.start) :
    (d.inOrder (ps.map d.lineEdit)).map OffsetEdit.parts =
      (qs.map d.lineOffsetEdit).map OffsetEdit.parts := by
  have hparts : (d.offsetEdits 0 (ps.map d.lineEdit)).map OffsetEdit.parts =
      (ps.map d.lineOffsetEdit).map OffsetEdit.parts := by
    rw [map_parts_offsetEdits, List.map_map, List.map_map]
    refine List.map_congr_left fun p hp => ?_
    exact parts_lineEdit hd (h.bounds p hp).1 (h.bounds p hp).2
  have hbatch : ((d.inOrder (ps.map d.lineEdit)).map OffsetEdit.parts).Perm
      ((qs.map d.lineOffsetEdit).map OffsetEdit.parts) := by
    refine ((List.mergeSort_perm _ _).map _).trans ?_
    rw [hparts]
    exact (hperm.symm.map _).map _
  refine (eq_of_perm_of_strict (R := fun a b => a.1 ≤ b.1) ?_ ?_ hbatch.symm).symm
  · refine List.pairwise_map.2 (hstrict.imp fun h => ?_)
    simp only [OffsetEdit.parts]
    omega
  · exact List.pairwise_map.2 (pairwise_start_inOrder _)

theorem fits_lineEdit (p : LinePaste) : d.Fits (d.lineEdit p).range := fits_linesSpan _ _ _

/-- The lines that come out. -/
theorem contents_rebuild (hd : d.LineFeedsOnly) (h : d.Pastes ps) (hperm : qs.Perm ps)
    (hseq : LinesInSequence d.lastLine 0 qs) (hmeet : ¬ d.MeetAtEnd qs) :
    (ofText (rebuild d.text 0 (qs.map d.lineOffsetEdit))).contents =
      d.pastedLines ps ++ if d.TakesAll ps then [[]] else [] := by
  have hentries : ∀ p ∈ qs, ended p.entry.lines = p.entry.body ++ ['\n'] := fun p hp =>
    (h.entries p (hperm.mem_iff.1 hp)).ended_lines
  refine contents_of_ended ?_ fun l hl => ?_
  · rw [ended_append, h.pastedLines_eq hperm hseq, text_ofText]
    split
    · rename_i hall
      obtain ⟨p, hp, hspan⟩ := hall
      obtain ⟨p, rfl, hspan⟩ := TakesAll.eq_singleton hseq ⟨p, hperm.mem_iff.2 hp, hspan⟩
      have hnothing : d.contents.drop (d.lastLine + 1) = [] :=
        drop_contents_of_lt (Nat.lt_succ_self _)
      have hedit : d.lineOffsetEdit p = ⟨0, d.size, p.entry.body ++ ['\n'], 0⟩ := by
        simp [lineOffsetEdit, hspan]
      have hend : d.text.drop d.size = [] := List.drop_length
      simp [pastedFrom, hspan, hnothing, hedit, rebuild, hend, cut,
        hentries p List.mem_cons_self]
    · rename_i hall
      have hfirst : ∀ p ∈ qs, p.span.last = d.lastLine → 0 < p.span.first := by
        intro p hp hlast
        refine Nat.pos_of_ne_zero fun hzero => hall ⟨p, hperm.mem_iff.1 hp, ?_⟩
        rw [← hlast, ← hzero]
      have hlines := rebuild_lineOffsetEdits hd (Nat.zero_le _) hseq hentries hfirst hmeet
      rw [lineStart_zero] at hlines
      rw [hlines, ended_nil, List.append_nil]
  · rcases List.mem_append.1 hl with hl | hl
    · exact h.isLine hd l hl
    · split at hl
      · obtain rfl := List.mem_singleton.1 hl
        exact isLine_nil
      · cases hl

/-- **Pieces that do not meet at the end are pasted over**, and the lines come out as they should,
except that there is an empty line too many if all lines were pasted over. -/
theorem edit_lineEdits (hd : d.LineFeedsOnly) (h : d.Pastes ps) (hmeet : ¬ d.MeetAtEnd ps) :
    ∃ after plan, d.edit (ps.map d.lineEdit) = .ok (after, plan) ∧
      after.contents = d.pastedLines ps ++ if d.TakesAll ps then [[]] else [] := by
  obtain ⟨qs, hperm, hseq⟩ := h.exists_sorted
  have hmeet : ¬ d.MeetAtEnd qs := by
    rintro ⟨p, hp, q, hq, h⟩
    exact hmeet ⟨p, hperm.mem_iff.1 hp, q, hperm.mem_iff.1 hq, h⟩
  have hstrict := pairwise_lineOffsetEdits hd hseq hmeet
  have hparts := map_parts_inOrder hd h hperm hstrict
  have hfits : ∀ e ∈ ps.map d.lineEdit, d.Fits e.range :=
    List.forall_mem_map.2 fun p _ => fits_lineEdit p
  have hchain : (d.inOrder (ps.map d.lineEdit)).IsChain fun e f => e.stop ≤ f.start := by
    have hapart : ((qs.map d.lineOffsetEdit).map OffsetEdit.parts).Pairwise
        fun a b => a.2.1 ≤ b.1 := List.pairwise_map.2 (hstrict.imp And.left)
    rw [← hparts] at hapart
    exact (List.pairwise_map.1 hapart).isChain
  have hplan : d.plan (ps.map d.lineEdit) = .ok ⟨d.inOrder (ps.map d.lineEdit)⟩ :=
    plan_eq_ok_iff.2 ⟨fun e he => ⟨(hfits e he).start, (hfits e he).stop⟩, hchain, rfl⟩
  have hedit := edit_eq_ok_iff.2 ⟨hplan, rfl⟩
  have htext := text_of_edit hfits hedit
  rw [rebuild_congr hparts, text_ofText] at htext
  refine ⟨_, _, hedit, ?_⟩
  rw [htext]
  exact contents_rebuild hd h hperm hseq hmeet

/-- **Pieces that meet at the end overlap.** -/
theorem edit_of_meetAtEnd (hd : d.LineFeedsOnly) (h : d.Pastes ps) (hmeet : d.MeetAtEnd ps) :
    ∃ o, d.edit (ps.map d.lineEdit) = .error (.overlap o) := by
  obtain ⟨p, hp, q, hq, hnext, hlast⟩ := hmeet
  have hpb := h.bounds p hp
  have hqb := h.bounds q hq
  have hfits : ∀ e ∈ ps.map d.lineEdit, d.Fits e.range :=
    List.forall_mem_map.2 fun p _ => fits_lineEdit p
  have hp' : d.lineOffsetEdit p =
      ⟨d.lineStart p.span.first, d.lineStart q.span.first, p.entry.body ++ ['\n'], 0⟩ := by
    rw [lineOffsetEdit, if_pos (by omega), hnext]
  have hq' : d.lineOffsetEdit q =
      ⟨d.lineStart q.span.first - 1, d.size, '\n' :: q.entry.body, 0⟩ := by
    rw [lineOffsetEdit, if_neg (by omega), if_pos (by omega)]
  have hpq := hd.lineStart_lt (i := p.span.first) (j := q.span.first) (by omega) (by omega)
  have hsize : d.lineStart q.span.first ≤ d.size := lineStart_le_size (by omega)
  cases hplan : d.plan (ps.map d.lineEdit) with
  | error c =>
    obtain ⟨o, rfl⟩ := exists_overlap_of_plan
      (fun e he => ⟨(hfits e he).start, (hfits e he).stop⟩) hplan
    exact ⟨o, edit_eq_error_iff.2 hplan⟩
  | ok plan =>
    -- In a plan one of the two would have to end before the other begins.
    have hmem : ∀ p ∈ ps, ∃ f ∈ plan.edits, ps[f.index]? = some p ∧
        f.start = (d.lineOffsetEdit p).start ∧ f.stop = (d.lineOffsetEdit p).stop := by
      intro p hp
      obtain ⟨i, hi⟩ := List.mem_iff_getElem?.1 hp
      have hedit : (ps.map d.lineEdit)[i]? = some (d.lineEdit p) := by
        rw [List.getElem?_map, hi, Option.map_some]
      obtain ⟨f, o, rfl, hf, -⟩ := exists_placed_of_plan hplan hedit
      have hparts := parts_lineEdit hd (h.bounds p hp).1 (h.bounds p hp).2
      simp only [OffsetEdit.parts, Prod.mk.injEq] at hparts
      have hmem := List.mem_map_of_mem (f := Prod.fst) hf
      rw [map_fst_placed] at hmem
      exact ⟨_, hmem, hi, hparts.1, hparts.2.1⟩
    obtain ⟨f, hf, hfp, hfstart, hfstop⟩ := hmem p hp
    obtain ⟨g, hg, hgq, hgstart, hgstop⟩ := hmem q hq
    have hne : f ≠ g := by
      rintro rfl
      rw [hfp, Option.some.injEq] at hgq
      rw [hgq] at hnext
      omega
    have hrel := rel_or_rel_of_mem (pairwise_of_plan hfits hplan).1 hf hg hne
    rw [hfstart, hfstop, hgstart, hgstop, hp', hq'] at hrel
    dsimp only at hrel
    omega

end Document

end ModalEdit
