import ModalEdit.Proofs.Span.Tag

/-!
# The innermost element

The tags of a text are read from left to right: behind a tag the reading goes on where it ends, and
otherwise at the next character (`Tag.scan_eq_filterMap`). Which tags pair is said for the tags
still open in front of a closing tag (`Element.IsPaired`). Two elements are apart or one lies
between the tags of the other (`Element.laminar`), so that of those around the cursor one lies
within all others; this is the one that is found (`Document.tagSpan_innermost`).
-/

namespace ModalEdit

/-! ### Reading the tags -/

namespace Tag

/-- The tag that begins with the character in a place. -/
def at? (t : Text) (i : Nat) : Option Tag :=
  if t[i]? = some '<' then read? i (t.drop (i + 1)) else none

/-- Where the reading goes on. -/
def onward (t : Text) (i : Nat) : Nat := ((at? t i).map (·.stop)).getD (i + 1)

/-- The place reached from another after a number of steps. -/
def reached (t : Text) (i : Nat) : Nat → Nat
  | 0 => i
  | n + 1 => reached t (onward t i) n

variable {t : Text} {i : Nat}

theorem onward_bounds (h : i < t.length) : i < onward t i ∧ onward t i ≤ t.length := by
  unfold onward at?
  split
  · cases hread : read? i (t.drop (i + 1)) with
    | none => exact ⟨Nat.lt_succ_self i, h⟩
    | some tag =>
      obtain ⟨-, hmin, hmax⟩ := read?_bounds hread
      rw [List.length_drop] at hmax
      simp only [Option.map_some, Option.getD_some]
      omega
  · exact ⟨Nat.lt_succ_self i, h⟩

/-- Characters that belong to a tag are passed over. -/
theorem scan_skip (i skip : Nat) (t : Text) :
    scan i skip t = scan (i + skip) 0 (t.drop skip) := by
  induction skip generalizing i t with
  | zero => rfl
  | succ skip ih =>
    cases t with
    | nil => rfl
    | cons c cs =>
      rw [List.drop_succ_cons, show i + (skip + 1) = i + 1 + skip by omega, ← ih]
      rfl

/-- One step of the reading. -/
theorem scan_drop (h : i < t.length) :
    scan i 0 (t.drop i) = (at? t i).toList ++ scan (onward t i) 0 (t.drop (onward t i)) := by
  rw [List.drop_eq_getElem_cons h, onward, at?, List.getElem?_eq_getElem h]
  simp only [scan, Option.some.injEq]
  split
  · cases hread : read? i (t.drop (i + 1)) with
    | none => rfl
    | some tag =>
      obtain ⟨-, hmin, -⟩ := read?_bounds hread
      simp only [Option.map_some, Option.getD_some, Option.toList_some, List.cons_append,
        List.nil_append]
      rw [scan_skip, List.drop_drop, show i + 1 + (tag.stop - (i + 1)) = tag.stop by omega]
  · rfl

/-- **The tags of a text** are found in the places that the reading reaches, and it ends: each step
leads further on. -/
theorem scan_eq_filterMap {t : Text} {i : Nat} (h : i ≤ t.length) :
    ∃ n, n ≤ t.length - i ∧ reached t i n = t.length ∧
      scan i 0 (t.drop i) = (List.range n).filterMap fun k => at? t (reached t i k) := by
  rcases Nat.eq_or_lt_of_le h with rfl | hlt
  · exact ⟨0, Nat.zero_le _, rfl, by rw [List.drop_length]; rfl⟩
  · obtain ⟨hon, hle⟩ := onward_bounds hlt
    obtain ⟨n, hn, hend, hscan⟩ := scan_eq_filterMap hle
    refine ⟨n + 1, by omega, hend, ?_⟩
    rw [scan_drop hlt, hscan, List.range_succ_eq_map, List.filterMap_cons, List.filterMap_map]
    simp only [reached, Function.comp_def]
    cases at? t i <;> rfl
termination_by t.length - i

end Tag

/-! ### Which tags pair -/

namespace Tag

/-- The tags still open behind one more tag. -/
def step (stillOpen : List Tag) (tag : Tag) : List Tag :=
  if ¬ tag.closing then tag :: stillOpen
  else
    match stillOpen.dropWhile fun o => o.name != tag.name with
    | _ :: outer => outer
    | [] => stillOpen

/-- The tags still open behind some tags, from the innermost out. -/
def stillOpen (tags : List Tag) : List Tag := tags.foldl step []

end Tag

namespace Element

/-- A closing tag ends the element of the innermost tag of its name still open in front of it. -/
def Closes (stillOpen : List Tag) (e : Element) : Prop :=
  e.closing.closing = true ∧ e.opening.name = e.closing.name ∧
    ∃ inner outer, stillOpen = inner ++ e.opening :: outer ∧ ∀ o ∈ inner, o.name ≠ e.closing.name

/-- The tags of the element pair among the given ones. -/
def IsPaired (tags : List Tag) (e : Element) : Prop :=
  ∃ before after, tags = before ++ e.closing :: after ∧ e.Closes (Tag.stillOpen before)

/-- The element that a tag ends. -/
def ended? (stillOpen : List Tag) (tag : Tag) : Option Element :=
  if tag.closing then
    (stillOpen.dropWhile fun o => o.name != tag.name).head?.map (⟨·, tag⟩)
  else none

variable {stillOpen tags : List Tag} {tag : Tag} {e f : Element}

theorem pair_cons : pair stillOpen (tag :: tags) =
    (ended? stillOpen tag).toList ++ pair (Tag.step stillOpen tag) tags := by
  rw [pair, ended?, Tag.step]
  cases htag : tag.closing with
  | false => simp
  | true => cases hdrop : stillOpen.dropWhile fun o => o.name != tag.name <;> simp

theorem dropWhile_eq_cons_iff {name : Text} {o : Tag} {outer : List Tag} :
    stillOpen.dropWhile (fun o => o.name != name) = o :: outer ↔
      o.name = name ∧ ∃ inner, stillOpen = inner ++ o :: outer ∧ ∀ o ∈ inner, o.name ≠ name := by
  constructor
  · intro h
    have hname := List.head?_dropWhile_not (fun o : Tag => o.name != name) stillOpen
    rw [h] at hname
    refine ⟨by simpa using hname, stillOpen.takeWhile fun o => o.name != name, ?_, fun o ho => ?_⟩
    · rw [← h, List.takeWhile_append_dropWhile]
    · simpa using List.all_eq_true.1 List.all_takeWhile o ho
  · rintro ⟨rfl, inner, rfl, hinner⟩
    rw [List.dropWhile_append_of_pos fun o ho => by simpa using hinner o ho]
    simp

theorem ended?_eq_some : ended? stillOpen tag = some e ↔ e.closing = tag ∧ e.Closes stillOpen := by
  unfold ended? Closes
  constructor
  · intro h
    split at h
    · rename_i htag
      obtain ⟨o, ho, rfl⟩ := Option.map_eq_some_iff.1 h
      obtain ⟨outer, hdrop⟩ := List.head?_eq_some_iff.1 ho
      obtain ⟨hname, inner, hopen⟩ := dropWhile_eq_cons_iff.1 hdrop
      exact ⟨rfl, htag, hname, inner, outer, hopen⟩
    · cases h
  · rintro ⟨rfl, hclosing, hname, inner, outer, hopen⟩
    rw [if_pos hclosing, dropWhile_eq_cons_iff.2 ⟨hname, inner, hopen⟩]
    rfl

theorem mem_pair : e ∈ pair stillOpen tags ↔ ∃ before after,
    tags = before ++ e.closing :: after ∧ e.Closes (before.foldl Tag.step stillOpen) := by
  induction tags generalizing stillOpen with
  | nil => simp [pair]
  | cons tag tags ih =>
    rw [pair_cons, List.mem_append, Option.mem_toList, ended?_eq_some, ih]
    constructor
    · rintro (⟨rfl, h⟩ | ⟨before, after, rfl, h⟩)
      · exact ⟨[], tags, rfl, h⟩
      · exact ⟨tag :: before, after, rfl, h⟩
    · rintro ⟨before, after, htags, h⟩
      cases before with
      | nil =>
        obtain ⟨rfl, rfl⟩ := List.cons.inj htags
        exact .inl ⟨rfl, h⟩
      | cons _ before =>
        obtain ⟨rfl, rfl⟩ := List.cons.inj htags
        exact .inr ⟨before, after, rfl, h⟩

/-! ### Apart or one within the other -/

/-- One element ends before the other begins. -/
def IsApart (e f : Element) : Prop :=
  e.closing.stop ≤ f.opening.start ∨ f.closing.stop ≤ e.opening.start

/-- The other element lies between the tags of this one. -/
def Encloses (f e : Element) : Prop :=
  f.opening.stop ≤ e.opening.start ∧ e.closing.stop ≤ f.closing.start

/-- Tags still open were open before, or else are the last tag. -/
theorem step_sublist (stillOpen tags : List Tag) (tag : Tag) :
    ((Tag.step stillOpen tag).reverse ++ tags).Sublist (stillOpen.reverse ++ tag :: tags) := by
  unfold Tag.step
  split
  · rw [List.reverse_cons, List.append_assoc]
    exact .refl _
  · refine List.Sublist.append (List.reverse_sublist.2 ?_) (List.sublist_cons_self _ _)
    split
    · rename_i hdrop
      exact (List.sublist_cons_self _ _).trans (hdrop ▸ List.dropWhile_sublist _)
    · exact .refl _

theorem mem_foldl_step {before : List Tag} {o : Tag} (h : o ∈ before.foldl Tag.step stillOpen) :
    o ∈ stillOpen ∨ o ∈ before := by
  induction before generalizing stillOpen with
  | nil => exact .inl h
  | cons tag before ih =>
    rcases ih h with h | h
    · have hmem := (step_sublist stillOpen [] tag).subset
        (List.mem_append_left _ (List.mem_reverse.2 h))
      rw [List.mem_append, List.mem_reverse, List.mem_singleton] at hmem
      exact hmem.imp_right fun h => List.mem_cons.2 (.inl h)
    · exact .inr (List.mem_cons_of_mem _ h)

/-- Of two elements the one that ends first is apart from the other or lies between its tags. -/
theorem pairwise_pair (h : (stillOpen.reverse ++ tags).Pairwise fun a b => a.stop ≤ b.start) :
    (pair stillOpen tags).Pairwise fun e f => e.IsApart f ∨ f.Encloses e := by
  induction tags generalizing stillOpen with
  | nil => exact .nil
  | cons tag tags ih =>
    rw [pair_cons, List.pairwise_append]
    refine ⟨?_, ih (h.sublist (step_sublist _ _ _)), fun e he f hf => ?_⟩
    · cases ended? stillOpen tag <;> simp
    · obtain ⟨rfl, hclosing, hname, inner, outer, rfl, hinner⟩ :=
        ended?_eq_some.1 (Option.mem_toList.1 he)
      have houter : ∀ o ∈ outer, o.stop ≤ e.opening.start :=
        (List.pairwise_cons.1 (List.pairwise_append.1
          (List.pairwise_reverse.1 (List.pairwise_append.1 h).1)).2.1).1
      have hbehind : ∀ b ∈ tags, e.closing.stop ≤ b.start :=
        (List.pairwise_cons.1 (List.pairwise_append.1 h).2.1).1
      -- What is open when `f` ends was open around `e`, or opened behind it.
      rw [Tag.step, if_neg (not_not_intro hclosing),
        dropWhile_eq_cons_iff.2 ⟨hname, inner, rfl, hinner⟩] at hf
      obtain ⟨before, after, rfl, -, -, _, _, hopen, -⟩ := mem_pair.1 hf
      have hmem : f.opening ∈ before.foldl Tag.step outer := hopen ▸ by simp
      rcases mem_foldl_step hmem with hmem | hmem
      · exact .inr ⟨houter _ hmem, hbehind _ (by simp)⟩
      · exact .inl (.inl (hbehind _ (List.mem_append_left _ hmem)))

/-- Being apart or one within the other holds for any two elements. -/
theorem laminar (h : tags.Pairwise fun a b => a.stop ≤ b.start) (he : e ∈ pair [] tags)
    (hf : f ∈ pair [] tags) : e = f ∨ e.IsApart f ∨ e.Encloses f ∨ f.Encloses e := by
  have hpairwise : (pair [] tags).Pairwise fun e f => e.IsApart f ∨ f.Encloses e := pairwise_pair h
  refine List.Pairwise.forall_of_forall_of_flip (R := fun e f => e = f ∨ e.IsApart f ∨
    e.Encloses f ∨ f.Encloses e) (fun _ _ => .inl rfl) (hpairwise.imp ?_) (hpairwise.imp ?_) he hf
  · exact fun h => .inr (h.imp_right .inr)
  · exact fun h => .inr (h.imp Or.symm .inl)

/-- Of those with `P` the element that lies between the tags of all others, or none if there is no
such element. -/
def IsInnermost (P : Element → Prop) : Option Element → Prop
  | some e => P e ∧ ∀ f, P f → f = e ∨ f.Encloses e
  | none => ∀ e, ¬ P e

theorem isInnermost_innermost {es : List Element} {o : Nat}
    (hes : ∀ e ∈ es, ∀ f ∈ es, e = f ∨ e.IsApart f ∨ e.Encloses f ∨ f.Encloses e)
    (hlt : ∀ e ∈ es, e.opening.start < e.opening.stop) :
    IsInnermost (fun e => e ∈ es ∧ e.covers o) (innermost (es.filter (·.covers o))) := by
  cases h : innermost (es.filter (·.covers o)) with
  | none =>
    intro e he
    have hnil := innermost_eq_none h
    exact List.not_mem_nil (hnil ▸ List.mem_filter.2 he)
  | some e =>
    obtain ⟨hmem, hlast⟩ := last_of_innermost h
    refine ⟨List.mem_filter.1 hmem, fun f hf => ?_⟩
    have hle := hlast f (List.mem_filter.2 hf)
    obtain ⟨he, hcovers⟩ := List.mem_filter.1 hmem
    have hcovers' := hf.2
    simp only [covers, Bool.and_eq_true, decide_eq_true_eq] at hcovers hcovers'
    have := hlt f hf.1
    rcases hes e he f hf.1 with rfl | (hapart | hapart) | h | h
    · exact .inl rfl
    · omega
    · omega
    · have := h.1
      have := hlt e he
      omega
    · exact .inr h

end Element

namespace Document

variable (d : Document)

/-- The tags of a document. -/
def tags : List Tag := Tag.scan 0 0 d.text

/-- The range of an element, without its tags unless `around`. -/
def elementRange (e : Element) (around : Bool) : Range :=
  if around then .between (d.positionAt e.opening.start) (d.positionAt e.closing.stop)
  else .between (d.positionAt e.opening.stop) (d.positionAt e.closing.start)

/-- **The innermost element is found.** The reading of a text comes to its end, and the tags are
those in the places that it reaches. Of the elements that pair among them any two are apart or one
lies between the tags of the other. If some hold the cursor, the one that lies within all others
is found, with and without its tags; if none does, nothing is found. -/
theorem tagSpan_innermost (p : Position) :
    (∃ n, n ≤ d.size ∧ Tag.reached d.text 0 n = d.size ∧
      d.tags = (List.range n).filterMap fun k => Tag.at? d.text (Tag.reached d.text 0 k)) ∧
    (∀ e f : Element, e.IsPaired d.tags → f.IsPaired d.tags →
      e = f ∨ e.IsApart f ∨ e.Encloses f ∨ f.Encloses e) ∧
    ∃ o, Element.IsInnermost (fun e => e.IsPaired d.tags ∧ e.covers (d.offsetOf p)) o ∧
      ∀ around, d.tagSpan around p = o.map (d.elementRange · around) := by
  have hlaminar (e f : Element) (he : e.IsPaired d.tags) (hf : f.IsPaired d.tags) :=
    Element.laminar (Tag.scan_bounds 0 0 d.text).2 (Element.mem_pair.2 he) (Element.mem_pair.2 hf)
  refine ⟨Tag.scan_eq_filterMap (Nat.zero_le _), hlaminar, ?_⟩
  have hmem (e : Element) : e ∈ d.elements ↔ e.IsPaired d.tags := Element.mem_pair
  have h := Element.isInnermost_innermost (o := d.offsetOf p)
    (fun e he f hf => hlaminar e f ((hmem e).1 he) ((hmem f).1 hf))
    fun e he => (within_of_mem_elements he).1
  simp only [hmem] at h
  refine ⟨_, h, fun around => ?_⟩
  unfold tagSpan elementRange
  cases Element.innermost (d.elements.filter (·.covers (d.offsetOf p))) with
  | none => rfl
  | some e => cases around <;> rfl

end Document

end ModalEdit
