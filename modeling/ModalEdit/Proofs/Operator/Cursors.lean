import ModalEdit.Proofs.Operator.Orderly
import ModalEdit.Proofs.Session.Invariant
import ModalEdit.Proofs.Span.Called

/-!
# What operators find at the cursors

An operator takes the first text object that finds something at one of the cursors. So that object
is the same for every order of the cursors, and what it finds at each cursor depends on the cursor
alone (`OperatorKind.findSome?_targetsOf_perm`). The ranges found are orderly in every order
(`OperatorKind.exists_rangesAt`).
-/

namespace ModalEdit

variable {d : Document} {keys : List Key} {u : Purpose}

/-! ### Lists in another order -/

/-- The first result in a list does not depend on the order if there is only one. -/
theorem findSome?_eq_of_perm {α β : Type} {f : α → Option β} {l l' : List α} (hperm : l'.Perm l)
    (h : ∀ a ∈ l, ∀ b ∈ l, ∀ x y, f a = some x → f b = some y → x = y) :
    l'.findSome? f = l.findSome? f := by
  cases hl : l.findSome? f with
  | none =>
    rw [List.findSome?_eq_none_iff] at hl ⊢
    exact fun a ha => hl a (hperm.mem_iff.1 ha)
  | some x =>
    obtain ⟨a, ha, hx⟩ := List.exists_of_findSome?_eq_some hl
    have hsome : (l'.findSome? f).isSome :=
      List.findSome?_isSome_iff.2 ⟨a, hperm.mem_iff.2 ha, by rw [hx]; rfl⟩
    obtain ⟨y, hy⟩ := Option.isSome_iff_exists.1 hsome
    obtain ⟨b, hb, hfb⟩ := List.exists_of_findSome?_eq_some hy
    rw [hy, h a ha b (hperm.mem_iff.1 hb) x y hx hfb]

/-- Every order of the results comes from an order of the elements. -/
theorem exists_filterMap_eq_of_perm {α β : Type} {f : α → Option β} {l : List α} {l' : List β}
    (hperm : l'.Perm (l.filterMap f)) : ∃ k : List α, k.Perm l ∧ k.filterMap f = l' := by
  induction l' generalizing l with
  | nil => exact ⟨l, .refl l, hperm.nil_eq.symm⟩
  | cons b l' ih =>
    obtain ⟨a, ha, hb⟩ := List.mem_filterMap.1 (hperm.mem_iff.1 List.mem_cons_self)
    obtain ⟨front, back, rfl⟩ := List.append_of_mem ha
    have hrest : l'.Perm ((front ++ back).filterMap f) := by
      rw [List.filterMap_append, List.filterMap_cons, hb] at hperm
      rw [List.filterMap_append]
      exact (hperm.trans List.perm_middle).cons_inv
    obtain ⟨k, hk, rfl⟩ := ih hrest
    exact ⟨a :: k, (hk.cons a).trans List.perm_middle.symm, by rw [List.filterMap_cons, hb]⟩

theorem perm_eraseDups {α : Type} [BEq α] [LawfulBEq α] {l l' : List α} (hperm : l'.Perm l) :
    l'.eraseDups.Perm l.eraseDups := by
  refine (List.perm_ext_iff_of_nodup (nodup_eraseDups l') (nodup_eraseDups l)).2 fun a => ?_
  rw [List.mem_eraseDups, List.mem_eraseDups, hperm.mem_iff]

/-! ### What the operator finds -/

/-- The search that a walk leaves to remember is the same from every position. -/
theorem Walk.find_eq_of_take? {w : Walk} {s : Surroundings} {key : Option Key} {p p' : Position}
    {a a' : Arrival} (h : w.take? d s key p = some a) (h' : w.take? d s key p' = some a') :
    a.find = a'.find := by
  cases w with
  | find direction distance =>
    obtain ⟨c, hc, h⟩ := Option.bind_eq_some_iff.1 h
    obtain ⟨c', hc', h'⟩ := Option.bind_eq_some_iff.1 h'
    obtain ⟨q, -, h⟩ := Option.bind_eq_some_iff.1 h
    obtain ⟨q', -, h'⟩ := Option.bind_eq_some_iff.1 h'
    cases hc.symm.trans hc'
    cases h
    cases h'
    rfl
  | findAgain reverse =>
    obtain ⟨f, -, h⟩ := Option.bind_eq_some_iff.1 h
    obtain ⟨f', -, h'⟩ := Option.bind_eq_some_iff.1 h'
    obtain ⟨q, -, h⟩ := Option.bind_eq_some_iff.1 h
    obtain ⟨q', -, h'⟩ := Option.bind_eq_some_iff.1 h'
    cases h
    cases h'
    rfl
  | bracket =>
    obtain ⟨q, -, h⟩ := Option.bind_eq_some_iff.1 h
    obtain ⟨q', -, h'⟩ := Option.bind_eq_some_iff.1 h'
    cases h
    cases h'
    rfl
  | _ =>
    cases h
    cases h'
    rfl

/-- The search to remember is the same at every cursor. -/
theorem TextObject.find_eq_of_compute {o : TextObject} {p p' : Position} {rest rest' : List Key}
    {res res' : ObjectRange} (h : o.compute d u p keys = .some res rest)
    (h' : o.compute d u p' keys = .some res' rest') : res.find = res'.find := by
  cases o with
  | structural name pattern kind around =>
    simp only [compute] at h h'
    obtain ⟨key, h, h'⟩ := Found.exists_of_ofMatch h h'
    obtain ⟨r, -, rfl⟩ := Option.map_eq_some_iff.1 h
    obtain ⟨r', -, rfl⟩ := Option.map_eq_some_iff.1 h'
    rfl
  | walked m =>
    simp only [compute] at h h'
    obtain ⟨key, h, h'⟩ := Found.exists_of_ofMatch h h'
    obtain ⟨a, ha, rfl⟩ := Option.map_eq_some_iff.1 h
    obtain ⟨a', ha', rfl⟩ := Option.map_eq_some_iff.1 h'
    exact Walk.find_eq_of_take? ha ha'
  | line pattern withBreak =>
    simp only [compute] at h h'
    obtain ⟨key, h, h'⟩ := Found.exists_of_ofMatch h h'
    cases h
    cases h'
    rfl

namespace OperatorKind

variable {sels sels' : List Selection}

/-- What a text object finds at a selection. -/
def foundBy (d : Document) (u : Purpose) (keys : List Key) (o : TextObject) (sel : Selection) :
    Selection × Option ObjectRange :=
  (sel, (o.compute d u sel.active keys).result?)

/-- What is found is decided by the first object that finds something at one of the selections. -/
theorem findSome?_targetsOf_eq (objects : List TextObject) (sels : List Selection) :
    objects.findSome? (targetsOf d u sels keys) =
      (objects.find? fun o => sels.any fun sel => (foundBy d u keys o sel).2.isSome).map
        fun o => sels.map (foundBy d u keys o) := by
  induction objects with
  | nil => rfl
  | cons o objects ih =>
    rw [List.findSome?_cons, List.find?_cons]
    have htargets : targetsOf d u sels keys o =
        if sels.any fun sel => (foundBy d u keys o sel).2.isSome then
          some (sels.map (foundBy d u keys o)) else none := by
      simp only [targetsOf, List.any_map]
      rfl
    rw [htargets]
    cases sels.any fun sel => (foundBy d u keys o sel).2.isSome with
    | true => rfl
    | false => exact ih

/-- **Every order of the cursors finds the same in that order**, or none of them finds anything. -/
theorem findSome?_targetsOf_perm (d : Document) (u : Purpose) (keys : List Key)
    (objects : List TextObject) (sels : List Selection) :
    (∀ sels', sels'.Perm sels → objects.findSome? (targetsOf d u sels' keys) = none) ∨
      ∃ o, ∀ sels', sels'.Perm sels →
        targetsOf d u sels' keys o = some (sels'.map (foundBy d u keys o)) ∧
        objects.findSome? (targetsOf d u sels' keys) = some (sels'.map (foundBy d u keys o)) := by
  have hsame : ∀ sels' : List Selection, sels'.Perm sels →
      (objects.find? fun o => sels'.any fun sel => (foundBy d u keys o sel).2.isSome) =
        objects.find? fun o => sels.any fun sel => (foundBy d u keys o sel).2.isSome := by
    intro sels' hperm
    simp only [hperm.any_eq]
  cases hfirst : objects.find? fun o => sels.any fun sel => (foundBy d u keys o sel).2.isSome with
  | none =>
    refine .inl fun sels' hperm => ?_
    rw [findSome?_targetsOf_eq, hsame sels' hperm, hfirst, Option.map_none]
  | some o =>
    refine .inr ⟨o, fun sels' hperm => ⟨?_, ?_⟩⟩
    · have hfinds := List.find?_some hfirst
      rw [← hperm.any_eq] at hfinds
      simp only [targetsOf, List.any_map]
      exact if_pos hfinds
    · rw [findSome?_targetsOf_eq, hsame sels' hperm, hfirst, Option.map_some]

/-- What the operator finds at the selections, by the first object that finds something at one of
them; nothing if there is no such object. -/
def foundAt (kind : OperatorKind) (d : Document) (lastFind : Option Find) (keys : List Key)
    (sels : List Selection) : List (Selection × Option ObjectRange) :=
  ((TextObject.behind kind).findSome? (targetsOf d ⟨some kind, lastFind⟩ sels keys)).getD []

/-- The search to remember is the same for every order. -/
theorem findSome?_find_perm {o : TextObject} {sels sels' : List Selection}
    (hperm : sels'.Perm sels) :
    ((sels'.map (foundBy d u keys o)).findSome? fun t => t.2.bind (·.find)) =
      (sels.map (foundBy d u keys o)).findSome? fun t => t.2.bind (·.find) := by
  refine findSome?_eq_of_perm (hperm.map _) fun t ht t' ht' f f' hf hf' => ?_
  obtain ⟨sel, -, rfl⟩ := List.mem_map.1 ht
  obtain ⟨sel', -, rfl⟩ := List.mem_map.1 ht'
  obtain ⟨res, hres, hf⟩ := Option.bind_eq_some_iff.1 hf
  obtain ⟨res', hres', hf'⟩ := Option.bind_eq_some_iff.1 hf'
  obtain ⟨rest, hc⟩ := Found.exists_of_result? hres
  obtain ⟨rest', hc'⟩ := Found.exists_of_result? hres'
  have hsame := TextObject.find_eq_of_compute hc hc'
  rw [hf, hf'] at hsame
  exact Option.some.inj hsame

/-- The keys are the beginning of an object for every order or for none. -/
theorem awaits_perm {sels sels' : List Selection} (hperm : sels'.Perm sels)
    (objects : List TextObject) : awaits d u sels' keys objects = awaits d u sels keys objects := by
  simp only [awaits, hperm.any_eq]

/-- The ranges found are orderly. -/
theorem orderly_of_targets {o : TextObject} {sels : List Selection}
    {found : List (Selection × Option ObjectRange)} (h : targetsOf d u sels keys o = some found) :
    d.Orderly (o.takesBreak u)
      ((found.map fun t => (t.1, t.2.map (·.range))).filterMap (·.2)) := by
  rw [filterMap_targets]
  exact orderly_of_targetsOf h

/-- What an operator finds at the selections in any order: what it finds at each of them. -/
theorem exists_rangesAt (kind : OperatorKind) (d : Document) (lastFind : Option Find)
    (object : List Key) (sels : List Selection) :
    ∃ (range : Selection → Option Range) (withBreak : Bool), ∀ sels', sels'.Perm sels →
      rangesOf (kind.foundAt d lastFind object sels') = sels'.filterMap range ∧
      d.Orderly withBreak (sels'.filterMap range) := by
  rcases findSome?_targetsOf_perm d ⟨some kind, lastFind⟩ object
    (TextObject.behind kind) sels with hnone | ⟨o, hfound⟩
  · refine ⟨fun _ => none, false, fun sels' hperm => ?_⟩
    rw [foundAt, hnone sels' hperm, List.filterMap_none]
    exact ⟨rfl, ⟨⟨by simp, fun h => by cases h⟩, by simp⟩⟩
  · refine ⟨fun sel => (foundBy d ⟨some kind, lastFind⟩ object o sel).2.map (·.range),
      o.takesBreak ⟨some kind, lastFind⟩, fun sels' hperm => ?_⟩
    obtain ⟨htargets, hfirst⟩ := hfound sels' hperm
    have hranges : rangesOf (sels'.map (foundBy d ⟨some kind, lastFind⟩ object o)) =
        sels'.filterMap fun sel => (foundBy d ⟨some kind, lastFind⟩ object o sel).2.map (·.range) :=
      List.filterMap_map
    refine ⟨?_, hranges ▸ orderly_of_targetsOf htargets⟩
    rw [foundAt, hfirst, Option.getD_some, hranges]

end OperatorKind

end ModalEdit
