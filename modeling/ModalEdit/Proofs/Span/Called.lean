import Mathlib.Data.List.Pairwise
import ModalEdit.Proofs.Operator.Merge
import ModalEdit.Proofs.Pattern.Keys

/-!
# The keys that call a text object

Behind an operator a text object is called by one or two keys: fixed ones, or the key of a search
and the character searched for (`TextObject.exists_fixedKeys_or_search`). No object's keys are the
beginning of another's, so the keys that call an object call no other (`TextObject.eq_of_isFull`),
and after the first of two keys every object waits or is out of the question
(`TextObject.keys_of_parse`).
-/

namespace ModalEdit

/-- The first result is that of the only element that has one. -/
theorem findSome?_eq_of_unique {α β : Type} {f : α → Option β} {l : List α} {a : α} {b : β}
    (ha : a ∈ l) (hb : f a = some b) (h : ∀ x ∈ l, (f x).isSome → x = a) :
    l.findSome? f = some b := by
  have hsome : (l.findSome? f).isSome := List.findSome?_isSome_iff.2 ⟨a, ha, by rw [hb]; rfl⟩
  obtain ⟨b', hb'⟩ := Option.isSome_iff_exists.1 hsome
  obtain ⟨x, hx, hfx⟩ := List.exists_of_findSome?_eq_some hb'
  obtain rfl := h x hx (by rw [hfx]; rfl)
  rw [hb', ← hfx, hb]

theorem Found.match_of_ofMatch {α : Type} {m : Match} {f : Option Key → Option α} {a : α}
    {rest : List Key} (h : Found.ofMatch m f = .some a rest) :
    ∃ captured, m = .full captured rest := by
  cases m with
  | full captured remainder =>
    simp only [ofMatch] at h
    split at h
    · cases h
      exact ⟨captured, rfl⟩
    · cases h
  | partly => cases h
  | none => cases h

namespace TextObject

/-- The pattern of the keys that call an object. -/
def pattern : TextObject → Pattern
  | structural _ pattern _ _ => pattern
  | walked m => m.pattern
  | line pattern _ => pattern

/-- The objects that can follow an operator, in the order in which they are tried. -/
def behind (kind : OperatorKind) : List TextObject := wholeLine kind :: defaults

/-- The keys that call an object, if they are all fixed. -/
def fixedKeys? (o : TextObject) : Option (List Key) :=
  match o.pattern with
  | .literal ks => some ks
  | .placeholder _ => none

/-- The searches for a character that can follow an operator, by their keys. -/
def searches : List (Char × TextObject) :=
  [('f', walked (.onTarget "find-forward" 'f' .after .further)),
    ('F', walked (.onTarget "find-backward" 'F' .before .further)),
    ('t', walked (.onTarget "till-forward" 't' .after .nearer)),
    ('T', walked (.onTarget "till-backward" 'T' .before .nearer))]

variable {kind : OperatorKind} {o o' : TextObject} {keys ks ls : List Key}

theorem walked_mem_behind (kind : OperatorKind) {m : Motion} (hm : m ∈ Motion.defaults) :
    walked m ∈ behind kind :=
  List.mem_cons_of_mem _ (List.mem_append_right _ (List.mem_map_of_mem hm))

theorem pattern_of_fixedKeys? (h : o.fixedKeys? = some ks) : o.pattern = .literal ks := by
  unfold fixedKeys? at h
  split at h <;> cases h
  assumption

theorem pattern_of_mem_searches {c : Char} (h : (c, o) ∈ searches) :
    IsPlain c ∧ o.pattern = .placeholder (.after [.char c] "char".toList) := by
  simp only [searches, List.mem_cons, List.not_mem_nil, or_false, Prod.mk.injEq] at h
  rcases h with ⟨rfl, rfl⟩ | ⟨rfl, rfl⟩ | ⟨rfl, rfl⟩ | ⟨rfl, rfl⟩ <;> exact ⟨by decide, rfl⟩

/-- Each search has a key of its own. -/
theorem eq_of_mem_searches {c : Char} (h : (c, o) ∈ searches) (h' : (c, o') ∈ searches) :
    o' = o := by
  have hnodup : (searches.map (·.1)).Nodup := by decide
  have heq := List.inj_on_of_nodup_map hnodup h h' rfl
  exact (Prod.mk.inj heq).2.symm

/-- The keys with which the structures begin. -/
def structureLeads : List Key := ['i', 'a'].map .char

/-- **A structure is called by two keys.** -/
theorem fixedKeys?_of_mem_structures (ho : o ∈ structures) :
    ∃ k ∈ structureLeads, ∃ k', o.fixedKeys? = some [k, k'] := by
  obtain ⟨name, c, kind, around, rfl⟩ := exists_ofStructure ho
  refine ⟨.char (leadOf around), ?_, .char c, rfl⟩
  cases around <;> decide

/-- **An object is called by fixed keys or is a search.** -/
theorem exists_fixedKeys_or_search (ho : o ∈ behind kind) :
    (∃ ks, o.fixedKeys? = some ks) ∨ ∃ c, (c, o) ∈ searches := by
  suffices h : ∀ o ∈ behind kind, o.fixedKeys?.isSome ∨ ∃ c, (c, o) ∈ searches from
    (h o ho).imp_left Option.isSome_iff_exists.1
  have hstructures : ∀ o ∈ structures, o.fixedKeys?.isSome := by
    intro o ho
    obtain ⟨k, -, k', hkeys⟩ := fixedKeys?_of_mem_structures ho
    rw [hkeys]
    rfl
  simp only [behind, defaults, List.forall_mem_cons, List.forall_mem_append]
  refine ⟨.inl rfl, fun o ho => .inl (hstructures o ho), ?_⟩
  simp [Motion.defaults, fixedKeys?, pattern, Motion.onChar, Motion.onChars, Motion.onNamed,
    Motion.onTarget, Pattern.ofChar, searches]

/-- Fixed keys are one or two, and do not begin with the key of a search. -/
theorem fixedKeys_spec (ho : o ∈ behind kind) (h : o.fixedKeys? = some ks) :
    (ks.length = 1 ∨ ks.length = 2) ∧ ∀ x ∈ searches, ks.head? ≠ some (.char x.1) := by
  have hall : ∀ ks ∈ (behind kind).filterMap fixedKeys?, (ks.length = 1 ∨ ks.length = 2) ∧
      ∀ x ∈ searches, ks.head? ≠ some (.char x.1) := by
    cases kind <;> decide +kernel
  exact hall ks (List.mem_filterMap.2 ⟨o, ho, h⟩)

/-- **No fixed keys are the beginning of others.** -/
theorem eq_of_isPrefix (ho : o ∈ behind kind) (ho' : o' ∈ behind kind)
    (h : o.fixedKeys? = some ks) (h' : o'.fixedKeys? = some ls) (hle : ls <+: ks) : o' = o := by
  have hdefaults : (defaults.filterMap fixedKeys?).Pairwise fun ks ls =>
      ¬ ks <+: ls ∧ ¬ ls <+: ks := by decide +kernel
  have hline : ∀ ls ∈ defaults.filterMap fixedKeys?,
      ¬ [kind.key] <+: ls ∧ ¬ ls <+: [kind.key] := by
    cases kind <;> decide +kernel
  have hfree : ((behind kind).filterMap fixedKeys?).Pairwise fun ks ls =>
      ¬ ks <+: ls ∧ ¬ ls <+: ks := List.pairwise_cons.2 ⟨hline, hdefaults⟩
  rw [List.pairwise_filterMap] at hfree
  by_contra hne
  rcases rel_or_rel_of_mem hfree ho' ho hne with hrel | hrel
  · exact (hrel ls h' ks h).1 hle
  · exact (hrel ks h ls h').2 hle

/-- Keys that begin otherwise than the fixed keys and than every search are none to the object. -/
theorem parse_eq_none {k : Key} (ho : o ∈ behind kind)
    (hfixed : ∀ ks, o.fixedKeys? = some ks → ks ≠ [] ∧ ks.head? ≠ some k)
    (hsearch : ∀ x ∈ searches, k ≠ .char x.1) (keys : List Key) :
    o.pattern.parse (k :: keys) = .none := by
  rcases exists_fixedKeys_or_search ho with ⟨ks, hks⟩ | ⟨c, hc⟩
  · obtain ⟨hne, hhead⟩ := hfixed ks hks
    rw [pattern_of_fixedKeys? hks]
    match ks with
    | [] => exact absurd rfl hne
    | l :: ks =>
      have hl : l ≠ k := fun h => hhead (congrArg some h)
      rw [Pattern.parse, Pattern.parseLiteral, if_neg hl]
  · obtain ⟨hplain, hpattern⟩ := pattern_of_mem_searches hc
    rw [hpattern, Placeholder.parse_after_of_ne hplain (hsearch _ hc)]

/-- The keys with which the motions begin. -/
def motionLeads : List Key :=
  ((Motion.defaults.map walked).filterMap fixedKeys?).filterMap List.head? ++
    searches.map fun x => .char x.1

/-- **Keys that begin with none of these** are none to the motions. -/
theorem parse_of_not_mem_motionLeads {m : Motion} (hm : m ∈ Motion.defaults) {k : Key}
    (hk : k ∉ motionLeads) (keys : List Key) : m.pattern.parse (k :: keys) = .none := by
  have hmem : walked m ∈ Motion.defaults.map walked := List.mem_map_of_mem hm
  obtain ⟨hfixed, hsearch⟩ := not_or.1 (mt List.mem_append.2 hk)
  refine parse_eq_none (walked_mem_behind .delete hm) (fun ks hks => ⟨?_, fun hhead => ?_⟩)
    (fun x hx heq => ?_) keys
  · rintro rfl
    have hlength := (fixedKeys_spec (walked_mem_behind .delete hm) hks).1
    simp at hlength
  · exact hfixed (List.mem_filterMap.2 ⟨ks, List.mem_filterMap.2 ⟨_, hmem, hks⟩, hhead⟩)
  · exact hsearch (List.mem_map.2 ⟨x, hx, heq.symm⟩)

/-- Keys with which the structures begin are none to the motions. -/
theorem parse_structureLead {m : Motion} (hm : m ∈ Motion.defaults) {k : Key}
    (hk : k ∈ structureLeads) (keys : List Key) : m.pattern.parse (k :: keys) = .none := by
  have hfree : ∀ k ∈ structureLeads, k ∉ motionLeads := by decide +kernel
  exact parse_of_not_mem_motionLeads hm (hfree k hk) keys

/-- Keys that match in full begin with the fixed keys, or with the key of the search and one
more. -/
theorem isFull_cases (ho : o ∈ behind kind) (h : (o.pattern.parse keys).isFull = true) :
    (∃ ks, o.fixedKeys? = some ks ∧ ks <+: keys) ∨
      ∃ c k rest, (c, o) ∈ searches ∧ keys = .char c :: k :: rest := by
  rcases exists_fixedKeys_or_search ho with ⟨ks, hks⟩ | ⟨c, hc⟩
  · refine .inl ⟨ks, hks, ?_⟩
    rw [pattern_of_fixedKeys? hks, Pattern.parse] at h
    cases hparse : Pattern.parseLiteral ks keys with
    | full captured rest => exact ⟨rest, (Pattern.parseLiteral_eq_full hparse).symm⟩
    | partly => simp [hparse, Match.isFull] at h
    | none => simp [hparse, Match.isFull] at h
  · obtain ⟨hplain, hpattern⟩ := pattern_of_mem_searches hc
    rw [hpattern] at h
    obtain ⟨k, rest, rfl⟩ := Placeholder.exists_of_isFull_parse_after hplain h
    exact .inr ⟨c, k, rest, hc, rfl⟩

/-- Keys that match in full with nothing left are the fixed keys, or the key of the search and one
more. -/
theorem parse_eq_full_cases (ho : o ∈ behind kind) {captured : Option (List Char × Key)}
    (h : o.pattern.parse keys = .full captured []) :
    o.fixedKeys? = some keys ∨ ∃ c k, (c, o) ∈ searches ∧ keys = [.char c, k] := by
  rcases exists_fixedKeys_or_search ho with ⟨ks, hks⟩ | ⟨c, hc⟩
  · rw [pattern_of_fixedKeys? hks, Pattern.parse] at h
    have heq := Pattern.parseLiteral_eq_full h
    rw [List.append_nil] at heq
    exact .inl (heq ▸ hks)
  · obtain ⟨hplain, hpattern⟩ := pattern_of_mem_searches hc
    rw [hpattern] at h
    obtain ⟨k, rfl⟩ := Placeholder.keys_of_parse_after hplain h
    exact .inr ⟨c, k, hc, rfl⟩

theorem not_isPrefix_of_search (ho : o ∈ behind kind) (h : o.fixedKeys? = some ks) {c : Char}
    (hc : (c, o') ∈ searches) (rest : List Key) : ¬ ks <+: .char c :: rest := by
  intro hprefix
  obtain ⟨hlen, hhead⟩ := fixedKeys_spec ho h
  match ks with
  | [] => simp at hlen
  | k :: ks =>
    obtain ⟨rfl, -⟩ := List.cons_prefix_cons.1 hprefix
    exact hhead _ hc rfl

/-- **The keys that call an object call no other.** -/
theorem eq_of_isFull (ho : o ∈ behind kind) (ho' : o' ∈ behind kind)
    {captured : Option (List Char × Key)} (h : o.pattern.parse keys = .full captured [])
    (h' : (o'.pattern.parse keys).isFull = true) : o' = o := by
  rcases parse_eq_full_cases ho h with hks | ⟨c, k, hc, rfl⟩
  · rcases isFull_cases ho' h' with ⟨ls, hls, hprefix⟩ | ⟨c, k, rest, hc, rfl⟩
    · exact eq_of_isPrefix ho ho' hks hls hprefix
    · exact absurd (List.prefix_refl _) (not_isPrefix_of_search ho hks hc _)
  · rcases isFull_cases ho' h' with ⟨ls, hls, hprefix⟩ | ⟨c', k', rest, hc', heq⟩
    · exact absurd hprefix (not_isPrefix_of_search ho' hls hc _)
    · cases heq
      exact eq_of_mem_searches hc hc'

/-- What only keys in full can find is found by the object that they call. -/
theorem findSome?_of_parse {β : Type} {f : TextObject → Option β} {b : β}
    {objects : List TextObject} (hobjects : objects ⊆ behind kind) (ho : o ∈ objects)
    {captured : Option (List Char × Key)} (h : o.pattern.parse keys = .full captured [])
    (hfull : ∀ o', (f o').isSome → (o'.pattern.parse keys).isFull = true) (hf : f o = some b) :
    objects.findSome? f = some b :=
  findSome?_eq_of_unique ho hf fun o' ho' hsome =>
    eq_of_isFull (hobjects ho) (hobjects ho') h (hfull o' hsome)

/-- Keys that call a structure are the two of the structure. -/
theorem keys_of_mem_structures (ho : o ∈ structures) {captured : Option (List Char × Key)}
    (h : o.pattern.parse keys = .full captured []) :
    ∃ k ∈ structureLeads, ∃ k', keys = [k, k'] ∧ o.fixedKeys? = some [k, k'] := by
  obtain ⟨k, hk, k', hkeys⟩ := fixedKeys?_of_mem_structures ho
  rw [pattern_of_fixedKeys? hkeys] at h
  have heq := Pattern.parseLiteral_eq_full h
  rw [List.append_nil] at heq
  exact ⟨k, hk, k', heq, hkeys⟩

/-- **An object is called by one key or by two**, and after the first of two the object waits while
no other is called. -/
theorem keys_of_parse (ho : o ∈ behind kind) {captured : Option (List Char × Key)}
    (h : o.pattern.parse keys = .full captured []) :
    (∃ k, keys = [k]) ∨ ∃ k k', keys = [k, k'] ∧ o.pattern.parse [k] = .partly ∧
      ∀ o' ∈ behind kind, (o'.pattern.parse [k]).isFull = false := by
  rcases parse_eq_full_cases ho h with hks | ⟨c, k, hc, rfl⟩
  · rcases (fixedKeys_spec ho hks).1 with hlen | hlen
    · exact .inl (List.length_eq_one_iff.1 hlen)
    · obtain ⟨k, k', rfl⟩ := List.length_eq_two.1 hlen
      have hwaits : o.pattern.parse [k] = .partly := by
        rw [pattern_of_fixedKeys? hks]
        simp [Pattern.parse, Pattern.parseLiteral]
      refine .inr ⟨k, k', rfl, hwaits, fun o' ho' => Bool.eq_false_iff.2 fun hfull => ?_⟩
      rcases isFull_cases ho' hfull with ⟨ls, hls, hprefix⟩ | ⟨c, k, rest, -, heq⟩
      · -- The one key would be the beginning of the two, so it would call the same object.
        have hprefix' : ls <+: [k, k'] := hprefix.trans ⟨[k'], rfl⟩
        obtain rfl := eq_of_isPrefix ho ho' hks hls hprefix'
        rw [hwaits] at hfull
        cases hfull
      · cases heq
  · obtain ⟨hplain, hpattern⟩ := pattern_of_mem_searches hc
    refine .inr ⟨.char c, k, rfl, hpattern ▸ Placeholder.parse_after_singleton hplain,
      fun o' ho' => Bool.eq_false_iff.2 fun hfull => ?_⟩
    rcases isFull_cases ho' hfull with ⟨ls, hls, hprefix⟩ | ⟨c', k', rest, -, heq⟩
    · exact not_isPrefix_of_search ho' hls hc _ hprefix
    · cases heq

/-! ### What the keys find -/

section compute

variable {d : Document} {u : Purpose} {p : Position}

/-- Keys that find something match, and what is behind the match is left. -/
theorem parse_of_compute {res : ObjectRange} {rest : List Key}
    (h : o.compute d u p keys = .some res rest) :
    ∃ captured, o.pattern.parse keys = .full captured rest := by
  cases o <;> (rw [compute] at h; exact Found.match_of_ofMatch h)

theorem isFull_of_result? (h : (o.compute d u p keys).result?.isSome) :
    (o.pattern.parse keys).isFull = true := by
  cases hc : o.compute d u p keys with
  | some res rest =>
    obtain ⟨captured, hparse⟩ := parse_of_compute hc
    rw [hparse]
    rfl
  | partly => simp [hc, Found.result?] at h
  | none => simp [hc, Found.result?] at h

/-- An object waits for more keys wherever the cursor is. -/
theorem isPartly_compute (h : o.pattern.parse keys = .partly) (d : Document) (u : Purpose)
    (p : Position) : (o.compute d u p keys).isPartly = true := by
  have hpartly {α : Type} (f : Option Key → Option α) :
      (Found.ofMatch (o.pattern.parse keys) f).isPartly = true := by
    rw [h]
    rfl
  cases o <;> (rw [compute]; exact hpartly _)

end compute

end TextObject

end ModalEdit
