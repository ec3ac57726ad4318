import ModalEdit.Span.Tag

/-!
# Where tags and elements lie

The tags of a text follow each other without overlapping, and of an element the opening tag ends
before the closing tag begins.
-/

namespace ModalEdit

namespace Tag

/-- The tag lies between two offsets. -/
def Within (first last : Nat) (tag : Tag) : Prop :=
  first ≤ tag.start ∧ tag.start < tag.stop ∧ tag.stop ≤ last

theorem read?_bounds {start : Nat} {rest : Text} {tag : Tag} (h : read? start rest = some tag) :
    tag.start = start ∧ start + 2 ≤ tag.stop ∧ tag.stop ≤ start + 1 + rest.length := by
  simp only [read?] at h
  split at h
  · rename_i hclose
    obtain ⟨hlt, -⟩ := List.getElem?_eq_some_iff.1 hclose
    generalize hinside : rest.takeWhile (fun c => c != '<' && c != '>') = inside at h hlt
    clear hinside hclose
    generalize (if (inside.head? == some '/') = true then inside.tail else inside) = label at h
    split at h
    · cases h
    · split at h <;> cases h
      dsimp only
      omega
  · cases h

/-- The tags of a text lie in what is left of it, one behind the other. -/
theorem scan_bounds (i skip : Nat) (t : Text) :
    (∀ tag ∈ scan i skip t, tag.Within (i + skip) (i + t.length)) ∧
      (scan i skip t).Pairwise fun a b => a.stop ≤ b.start := by
  induction t generalizing i skip with
  | nil => simp [scan]
  | cons c cs ih =>
    have hlen : (c :: cs).length = cs.length + 1 := rfl
    -- A tag found further on lies in this text too.
    have hskip (skip first : Nat) (hfirst : first ≤ i + 1 + skip) :
        (∀ tag ∈ scan (i + 1) skip cs, tag.Within first (i + (c :: cs).length)) ∧
          (scan (i + 1) skip cs).Pairwise fun a b => a.stop ≤ b.start := by
      refine ⟨fun tag htag => ?_, (ih (i + 1) skip).2⟩
      obtain ⟨hstart, hlt, hstop⟩ := (ih (i + 1) skip).1 tag htag
      exact ⟨by omega, hlt, by omega⟩
    cases skip with
    | succ skip => exact hskip skip _ (by omega)
    | zero =>
      simp only [scan]
      split
      · cases hread : read? i cs with
        | none => exact hskip 0 _ (by omega)
        | some tag =>
          obtain ⟨hstart, hmin, hmax⟩ := read?_bounds hread
          dsimp only
          refine ⟨List.forall_mem_cons.2 ⟨⟨by omega, by omega, by omega⟩, ?_⟩,
            List.pairwise_cons.2 ⟨fun b hb => ?_, (hskip _ i (by omega)).2⟩⟩
          · exact (hskip _ _ (by omega)).1
          · exact ((hskip (tag.stop - (i + 1)) tag.stop (by omega)).1 b hb).1
      · exact hskip 0 _ (by omega)

end Tag

/-- The tags of an element lie one behind the other in a text of a given length. -/
def Element.Within (size : Nat) (e : Element) : Prop :=
  e.opening.start < e.opening.stop ∧ e.opening.stop ≤ e.closing.start ∧
    e.closing.start < e.closing.stop ∧ e.closing.stop ≤ size

theorem Element.within_of_mem_pair {size : Nat} {stillOpen tags : List Tag} {e : Element}
    (htags : ∀ tag ∈ tags, tag.start < tag.stop ∧ tag.stop ≤ size)
    (hpairwise : tags.Pairwise fun a b => a.stop ≤ b.start)
    (hopen : ∀ o ∈ stillOpen, o.start < o.stop ∧ ∀ tag ∈ tags, o.stop ≤ tag.start)
    (h : e ∈ pair stillOpen tags) : e.Within size := by
  induction tags generalizing stillOpen with
  | nil => simp [pair] at h
  | cons tag tags ih =>
    obtain ⟨htag, htags⟩ := List.forall_mem_cons.1 htags
    obtain ⟨hbefore, hpairwise⟩ := List.pairwise_cons.1 hpairwise
    -- Whatever stays open was open before, and the tags still to come are fewer.
    have hrest {os : List Tag} (hos : ∀ o ∈ os, o ∈ stillOpen) :
        ∀ o ∈ os, o.start < o.stop ∧ ∀ tag ∈ tags, o.stop ≤ tag.start := fun o ho =>
      ⟨(hopen o (hos o ho)).1, fun tag' htag' =>
        (hopen o (hos o ho)).2 tag' (List.mem_cons_of_mem _ htag')⟩
    simp only [pair] at h
    split at h
    · exact ih htags hpairwise
        (List.forall_mem_cons.2 ⟨⟨htag.1, hbefore⟩, hrest fun _ ho => ho⟩) h
    · split at h
      · rename_i opening outer hdrop
        have hmem : ∀ o ∈ opening :: outer, o ∈ stillOpen := fun o ho =>
          (List.dropWhile_sublist _).subset (hdrop ▸ ho)
        rcases List.mem_cons.1 h with rfl | h
        · obtain ⟨hlt, hstop⟩ := hopen opening (hmem _ List.mem_cons_self)
          exact ⟨hlt, hstop tag List.mem_cons_self, htag.1, htag.2⟩
        · exact ih htags hpairwise (hrest fun o ho => hmem o (List.mem_cons_of_mem _ ho)) h
      · exact ih htags hpairwise (hrest fun _ ho => ho) h

/-- **Where the elements of a document lie.** -/
theorem Document.within_of_mem_elements {d : Document} {e : Element} (h : e ∈ d.elements) :
    e.Within d.size := by
  obtain ⟨hwithin, hpairwise⟩ := Tag.scan_bounds 0 0 d.text
  refine Element.within_of_mem_pair (fun tag htag => ?_) hpairwise (by simp) h
  obtain ⟨-, hlt, hle⟩ := hwithin tag htag
  exact ⟨hlt, by simpa [size] using hle⟩

theorem Element.innermost_eq_none {es : List Element} (h : innermost es = none) : es = [] := by
  cases es with
  | nil => rfl
  | cons e es =>
    simp only [innermost] at h
    split at h
    · split at h <;> cases h
    · cases h

/-- The element that starts last. -/
theorem Element.last_of_innermost {es : List Element} {e : Element} (h : innermost es = some e) :
    e ∈ es ∧ ∀ f ∈ es, f.opening.start ≤ e.opening.start := by
  induction es generalizing e with
  | nil => cases h
  | cons e' es ih =>
    rw [List.forall_mem_cons]
    simp only [innermost] at h
    split at h
    · rename_i best hbest
      obtain ⟨hmem, hlast⟩ := ih hbest
      split at h <;> rename_i hlt <;> cases h
      · exact ⟨List.mem_cons_of_mem _ hmem, Nat.le_of_lt hlt, hlast⟩
      · exact ⟨List.mem_cons_self, Nat.le_refl _, fun f hf =>
          Nat.le_trans (hlast f hf) (Nat.le_of_not_lt hlt)⟩
    · rename_i hnone
      cases h
      refine ⟨List.mem_cons_self, Nat.le_refl _, ?_⟩
      rw [innermost_eq_none hnone]
      exact nofun

end ModalEdit
