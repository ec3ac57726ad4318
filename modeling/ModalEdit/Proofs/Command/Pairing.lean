import Mathlib.Data.List.Basic
import ModalEdit.Command.Paste
import ModalEdit.Proofs.Operator.Merge
import ModalEdit.Proofs.Register

/-!
# Entries matched with selections

The registers hold one entry per selection in document order, while the selections may come in any
order. `byPosition` gives each selection its own entry again: whatever list of things the selections
and the entries come from, when the entries follow the order of the selections in the document every
thing finds its own entry (`byPosition_map`).

So the entry of a selection depends on how many selections begin before it in the document and not
on the order in which they are kept (`Registers.entryFor`, `State.pasteEntries_of_entryFor`).
-/

namespace ModalEdit

variable {α : Type}

/-- A list in strict order is the only list of its members in order. -/
theorem eq_of_perm_of_strict {R : α → α → Prop} {l l' : List α}
    (h : l.Pairwise fun a b => R a b ∧ ¬ R b a) (h' : l'.Pairwise R) (hperm : l.Perm l') :
    l = l' := by
  refine hperm.eq_of_pairwise (fun a b ha hb hab hba => ?_) (h.imp And.left) h'
  by_contra hne
  rcases rel_or_rel_of_mem h ha (hperm.mem_iff.2 hb) hne with hrel | hrel
  · exact hrel.2 hba
  · exact hrel.2 hab

theorem pairwise_mergeSort_start {β : Type} (f : β → Selection) (l : List β) :
    (l.mergeSort fun a b => decide ((f a).start ≤ (f b).start)).Pairwise fun a b =>
      (f a).start ≤ (f b).start := by
  refine (List.pairwise_mergeSort (fun a b c hab hbc => ?_) (fun a b => ?_) l).imp
    fun h => by simpa using h
  · simp only [decide_eq_true_eq] at hab hbc ⊢
    exact Position.le_trans hab hbc
  · simp only [Bool.or_eq_true, decide_eq_true_eq]
    exact Position.le_total _ _

variable {xs sorted : List α} {sel : α → Selection}

/-- Things with their numbers, in the order in which their selections come in the document. -/
def numbered (sel : α → Selection) (xs : List α) : List (α × Nat) :=
  xs.zipIdx.mergeSort fun a b => decide ((sel a.1).start ≤ (sel b.1).start)

theorem mem_numbered {p : α × Nat} : p ∈ numbered sel xs ↔ xs[p.2]? = some p.1 :=
  List.mem_mergeSort.trans List.mem_zipIdx_iff_getElem?

/-- A partial function that is total on the members of a list, with their numbers. -/
theorem filterMap_zipIdx_eq_map {β : Type} {l : List α} {f : α × Nat → Option β} {g : α → β}
    (h : ∀ i a, l[i]? = some a → f (a, i) = some (g a)) : l.zipIdx.filterMap f = l.map g := by
  have hmem : ∀ p ∈ l.zipIdx, f p = some (g p.1) := fun p hp =>
    h p.2 p.1 (List.mem_zipIdx_iff_getElem?.1 hp)
  rw [List.filterMap_congr hmem, List.filterMap_eq_map']
  conv_rhs => rw [← List.zipIdx_map_fst 0 l, List.map_map]
  rfl

theorem filterMap_range_eq_map {β : Type} {l : List α} {f : Nat → Option β} {g : α → β}
    (h : ∀ i a, l[i]? = some a → f i = some (g a)) :
    (List.range l.length).filterMap f = l.map g := by
  rw [List.range_eq_range', ← List.zipIdx_map_snd 0 l, List.filterMap_map]
  exact filterMap_zipIdx_eq_map h

/-- Selections are numbered as the things they belong to. -/
theorem mergeSort_zipIdx_map (sel : α → Selection) (xs : List α) :
    ((xs.map sel).zipIdx.mergeSort fun a b => decide (a.1.start ≤ b.1.start)) =
      (numbered sel xs).map (Prod.map sel id) := by
  rw [List.zipIdx_map]
  symm
  apply List.map_mergeSort
  exact fun _ _ _ _ => rfl

/-- There is only one document order. -/
theorem map_fst_numbered (hperm : sorted.Perm xs)
    (hsorted : sorted.Pairwise fun a b => (sel a).start < (sel b).start) :
    (numbered sel xs).map (·.1) = sorted := by
  have hstrict : sorted.Pairwise fun a b =>
      (sel a).start ≤ (sel b).start ∧ ¬ (sel b).start ≤ (sel a).start :=
    hsorted.imp fun h => ⟨Position.le_of_lt h, Position.not_le.2 h⟩
  have hnumbered : ((numbered sel xs).map (·.1)).Perm xs := by
    have := (List.mergeSort_perm xs.zipIdx fun a b =>
      decide ((sel a.1).start ≤ (sel b.1).start)).map (·.1)
    rwa [List.zipIdx_map_fst] at this
  symm
  refine eq_of_perm_of_strict hstrict ?_ (hperm.trans hnumbered.symm)
  exact List.pairwise_map.2 (pairwise_mergeSort_start (fun p => sel p.1) xs.zipIdx)

/-- To ask for the element at every place is to go through the list. -/
theorem filterMap_getElem?_range {β : Type} (l : List β) :
    (List.range l.length).filterMap (fun i => l[i]?) = l := by
  induction l with
  | nil => rfl
  | cons x l ih =>
    rw [List.length_cons, List.range_succ_eq_map, List.filterMap_cons, List.filterMap_map]
    exact congrArg (x :: ·) ih

/-- To look up every number is to go through the things in their own order. -/
theorem filterMap_lookup_numbered {β : Type} (f : α → β) :
    (List.range xs.length).filterMap
      (fun i => ((numbered sel xs).map fun p => (p.2, f p.1)).lookup i) = xs.map f := by
  have hlookup : ∀ i ∈ List.range xs.length,
      ((numbered sel xs).map fun p => (p.2, f p.1)).lookup i = xs[i]?.map f := by
    intro i hi
    obtain ⟨x, hx⟩ : ∃ x, xs[i]? = some x :=
      ⟨_, List.getElem?_eq_getElem (List.mem_range.1 hi)⟩
    -- A thing is known by its number.
    let thing (i : Nat) : β := (xs[i]?.map f).getD (f x)
    have hgraph : ((numbered sel xs).map fun p => (p.2, f p.1)) =
        ((numbered sel xs).map (·.2)).map fun i => (i, thing i) := by
      rw [List.map_map]
      refine List.map_congr_left fun p hp => ?_
      simp only [Function.comp_apply, thing, mem_numbered.1 hp, Option.map_some, Option.getD_some]
    have hmem : i ∈ (numbered sel xs).map (·.2) :=
      List.mem_map_of_mem (f := (·.2)) (mem_numbered (p := (x, i)).2 hx)
    rw [hgraph, List.lookup_graph thing hmem, hx]
    simp only [thing, hx, Option.map_some, Option.getD_some]
  have hthings := filterMap_getElem?_range (xs.map f)
  simp only [List.length_map, List.getElem?_map] at hthings
  rw [List.filterMap_congr hlookup, hthings]

/-- **Each selection gets its own entry** when the entries follow the order of the selections in the
document. -/
theorem byPosition_map (entry : α → RegisterEntry) (hperm : sorted.Perm xs)
    (hsorted : sorted.Pairwise fun a b => (sel a).start < (sel b).start) :
    byPosition (xs.map sel) (sorted.map entry) = xs.map entry := by
  have hassigned : (((numbered sel xs).map (Prod.map sel id)).map (·.2)).zip (sorted.map entry) =
      (numbered sel xs).map fun p => (p.2, entry p.1) := by
    rw [← map_fst_numbered hperm hsorted, List.map_map, List.map_map, List.zip_map']
    rfl
  rw [byPosition, mergeSort_zipIdx_map, hassigned, List.length_map]
  exact filterMap_lookup_numbered entry

/-! ### The entry of a selection -/

theorem Selection.start_cursor (p : Position) : (cursor p).start = p := by
  have hmin : min p p = if p ≤ p then p else p := rfl
  rw [start, cursor, hmin, ite_self]

/-- A selection that selects nothing is a cursor. -/
theorem Selection.eq_cursor {sel : Selection} (h : sel.isEmpty) : sel = .cursor sel.active := by
  obtain ⟨anchor, active⟩ := sel
  obtain rfl : anchor = active := by simpa [isEmpty] using h
  rfl

theorem Selection.start_of_isEmpty {sel : Selection} (h : sel.isEmpty) : sel.start = sel.active :=
  (congrArg start (eq_cursor h)).trans (start_cursor sel.active)

/-- How many selections begin before a selection in the document. -/
def rank (sels : List Selection) (sel : Selection) : Nat :=
  sels.countP fun x => decide (x.start < sel.start)

theorem rank_of_perm {sels sels' : List Selection} (h : sels.Perm sels') (sel : Selection) :
    rank sels sel = rank sels' sel :=
  h.countP_eq _

theorem rank_lt {sels : List Selection} {sel : Selection} (h : sel ∈ sels) :
    rank sels sel < sels.length := by
  refine Nat.lt_of_le_of_ne List.countP_le_length fun hall => ?_
  exact Position.lt_irrefl _ (by simpa using List.countP_eq_length.1 hall sel h)

/-- Selections in document order are ranked one after the other. -/
theorem map_rank_of_sorted {sels : List Selection}
    (h : sels.Pairwise fun a b => a.start < b.start) :
    sels.map (rank sels) = List.range sels.length := by
  induction sels with
  | nil => rfl
  | cons sel sels ih =>
    obtain ⟨hfirst, h⟩ := List.pairwise_cons.1 h
    have hzero : rank (sel :: sels) sel = 0 := by
      refine List.countP_eq_zero.2 fun x hx => ?_
      rw [decide_eq_true_eq, Position.not_lt]
      rcases List.mem_cons.1 hx with rfl | hx
      · exact Position.le_refl _
      · exact Position.le_of_lt (hfirst x hx)
    have hsucc : ∀ x ∈ sels, rank (sel :: sels) x = (Nat.succ ∘ rank sels) x := fun x hx =>
      List.countP_cons_of_pos (by simpa using hfirst x hx)
    rw [List.map_cons, hzero, List.map_congr_left hsucc, ← List.map_map, ih h, List.length_cons,
      List.range_succ_eq_map]

namespace Registers

variable {r : Registers} {sels : List Selection}

/-- The entry that one of several selections pastes: the one with its rank if there is one entry for
each selection, and all entries in one otherwise. -/
def entryFor (r : Registers) (sels : List Selection) (sel : Selection) : Option RegisterEntry :=
  if r.entries.length = sels.length then r.entries[rank sels sel]? else r.joined?

/-- The entry of a selection does not depend on the order of the selections. -/
theorem entryFor_of_perm {sels' : List Selection} (h : sels.Perm sels') :
    r.entryFor sels = r.entryFor sels' := by
  funext sel
  rw [entryFor, entryFor, h.length_eq, rank_of_perm h]

theorem entryFor_of_empty (h : r.entries = []) (sel : Selection) : r.entryFor sels sel = none := by
  unfold entryFor
  split
  · rw [h, List.getElem?_nil]
  · rw [joined?, h]
    rfl

/-- Registers that hold something have an entry for every selection. -/
theorem exists_entryFor (hne : r.entries ≠ []) (sels : List Selection) :
    ∃ entry : Selection → RegisterEntry, ∀ sel ∈ sels, r.entryFor sels sel = some (entry sel) := by
  have hsome : ∀ sel ∈ sels, ∃ e, r.entryFor sels sel = some e := by
    intro sel h
    unfold entryFor
    split
    · rename_i hlength
      exact ⟨_, List.getElem?_eq_getElem (hlength ▸ rank_lt h)⟩
    · exact ⟨_, joined?_of_ne_nil hne⟩
  refine ⟨fun sel => (r.entryFor sels sel).getD (.charwise []), fun sel h => ?_⟩
  obtain ⟨e, he⟩ := hsome sel h
  simp only [he, Option.getD_some]

/-- One entry for each of several selections in document order. -/
theorem forCursors_of_sorted {entry : Selection → RegisterEntry} (hne : r.entries ≠ [])
    (hentry : ∀ sel ∈ sels, r.entryFor sels sel = some (entry sel))
    (hsorted : sels.Pairwise fun a b => a.start < b.start) :
    r.forCursors sels.length = sels.map entry := by
  by_cases hlength : r.entries.length = sels.length
  · have hranked : ∀ sel ∈ sels, r.entries[rank sels sel]? = some (entry sel) := by
      simpa only [entryFor, hlength, ↓reduceIte] using hentry
    calc r.forCursors sels.length
        = (List.range sels.length).filterMap (fun i => r.entries[i]?) := by
          rw [← hlength, forCursors_length, filterMap_getElem?_range]
      _ = sels.filterMap fun sel => r.entries[rank sels sel]? := by
          rw [← map_rank_of_sorted hsorted, List.filterMap_map]
          rfl
      _ = sels.map entry := by
          rw [List.filterMap_congr hranked, List.filterMap_eq_map']
  · have hjoined : ∀ sel ∈ sels, entry sel = .make (['\n'].intercalate (r.entries.map (·.body)))
        (r.entries.all (·.linewise)) := by
      simpa only [entryFor, hlength, ↓reduceIte, joined?_of_ne_nil hne, Option.some.injEq,
        eq_comm] using hentry
    rw [forCursors_of_joined (joined?_of_ne_nil hne) (Ne.symm hlength), List.map_congr_left hjoined,
      List.map_const']

end Registers

namespace State

variable {s : State}

theorem pasteEntries_of_empty (h : s.session.registers.entries = []) : s.pasteEntries = [] := by
  have hnone : s.session.registers.forCursors s.selections.length = [] := by
    unfold Registers.forCursors
    split
    · exact h
    · rw [Registers.joined?, h]
      rfl
  rw [pasteEntries, hnone, byPosition, List.zip_nil_right]
  exact List.filterMap_eq_nil_iff.2 fun _ _ => rfl

/-- **What a selection pastes depends only on its place among the selections in the document**, when
no two of them begin at the same place. -/
theorem pasteEntries_of_entryFor {entry : Selection → RegisterEntry}
    (hne : s.session.registers.entries ≠ [])
    (hstarts : s.selections.Pairwise fun a b => a.start ≠ b.start)
    (hentry : ∀ sel ∈ s.selections,
      s.session.registers.entryFor s.selections sel = some (entry sel)) :
    s.pasteEntries = s.selections.map entry := by
  let sorted := s.selections.mergeSort fun a b => decide (a.start ≤ b.start)
  have hperm : sorted.Perm s.selections := List.mergeSort_perm _ _
  have hsorted : sorted.Pairwise fun a b => a.start < b.start := by
    have hstarts : sorted.Pairwise fun a b => a.start ≠ b.start :=
      (hperm.pairwise_iff fun h => Ne.symm h).2 hstarts
    refine ((pairwise_mergeSort_start id s.selections).and hstarts).imp fun h => ?_
    exact Position.not_le.1 fun hle => h.2 (Position.le_antisymm h.1 hle)
  have hcursors : s.session.registers.forCursors sorted.length = sorted.map entry := by
    refine Registers.forCursors_of_sorted hne (fun sel hsel => ?_) hsorted
    rw [Registers.entryFor_of_perm hperm, hentry sel (hperm.mem_iff.1 hsel)]
  have hpaired : byPosition (s.selections.map id) (sorted.map entry) = s.selections.map entry :=
    byPosition_map entry hperm hsorted
  rw [pasteEntries, ← hperm.length_eq, hcursors, ← hpaired, List.map_id]

theorem pasteEntries_eq (hstarts : s.selections.Pairwise fun a b => a.start ≠ b.start) :
    s.pasteEntries = s.selections.filterMap (s.session.registers.entryFor s.selections) := by
  by_cases hne : s.session.registers.entries = []
  · rw [pasteEntries_of_empty hne, List.filterMap_eq_nil_iff.2 fun sel _ =>
      Registers.entryFor_of_empty hne sel]
  · obtain ⟨entry, hentry⟩ := Registers.exists_entryFor hne s.selections
    rw [pasteEntries_of_entryFor hne hstarts hentry, List.filterMap_congr hentry,
      List.filterMap_eq_map']

end State

end ModalEdit
