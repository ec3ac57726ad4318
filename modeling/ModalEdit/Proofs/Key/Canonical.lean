import ModalEdit.Key.Script
import ModalEdit.Proofs.Pattern.Keys

/-!
# The keys that scripts can spell

A key is canonical if it is a character, a named key whose number fits a byte and is not zero, or
one of these with some modifiers held down. Scripts spell these keys and no others
(`canonical_of_parseKeys`): inside angle brackets the name of a canonical key is read as that key
(`Key.readGroup_body`), while modifiers alone name nothing (`Mods.readGroup_render`).

The writing of a canonical key ends where it says it does, so that no writing is the beginning of
another (`Key.eq_of_render_append`). Only one key is written with a closing bracket in its name: the
key of that bracket with modifiers.
-/

namespace ModalEdit

/-- The number of a function key is not zero and fits a byte. -/
def NamedKey.IsNumbered : NamedKey → Prop
  | f n => 0 < n ∧ n < 256
  | _ => True

instance : DecidablePred NamedKey.IsNumbered
  | .f _ => inferInstanceAs (Decidable (_ ∧ _))
  | .enter | .esc | .backspace | .tab | .up | .down | .left | .right | .home | .endKey | .pageUp
  | .pageDown | .insert | .delete => .isTrue trivial

namespace Key

/-- A key by itself, with no modifiers held down. -/
def IsSingle : Key → Prop
  | char _ => True
  | named k => k.IsNumbered
  | chord .. => False

/-- A key that scripts can spell: a key by itself, or one with some modifiers held down. -/
def Canonical : Key → Prop
  | chord base mods => base.IsSingle ∧ mods ≠ .none
  | k => k.IsSingle

instance : DecidablePred IsSingle
  | char _ => .isTrue trivial
  | named k => inferInstanceAs (Decidable k.IsNumbered)
  | chord .. => .isFalse id

instance : DecidablePred Canonical
  | char _ => .isTrue trivial
  | named k => inferInstanceAs (Decidable k.IsNumbered)
  | chord .. => inferInstanceAs (Decidable (_ ∧ _))

theorem canonical_withMods {base : Key} (h : base.IsSingle) (mods : Mods) :
    (base.withMods mods).Canonical := by
  unfold withMods
  split
  · cases base with
    | chord => exact h.elim
    | char => exact h
    | named => exact h
  · exact ⟨h, ‹_›⟩

end Key

/-! ### Modifiers -/

theorem Modifier.ofLetter?_letter (m : Modifier) : ofLetter? m.letter = some m := by
  cases m <;> rfl

theorem splitMods_letter (m : Modifier) {name : List Char} (hne : name ≠ []) :
    splitMods (m.letter :: '-' :: name) =
      ((splitMods name).1.insert m, (splitMods name).2) := by
  obtain ⟨c, rest, rfl⟩ := List.exists_cons_of_ne_nil hne
  rw [splitMods, Modifier.ofLetter?_letter]

theorem splitMods_letters (ms : List Modifier) {name : List Char} (hne : name ≠ []) :
    splitMods ((ms.flatMap fun m => [m.letter, '-']) ++ name) =
      (ms.foldr (fun m s => s.insert m) (splitMods name).1, (splitMods name).2) := by
  induction ms with
  | nil => rfl
  | cons m ms ih =>
    have hrest : (ms.flatMap fun m => [m.letter, '-']) ++ name ≠ [] := by simp [hne]
    simp only [List.flatMap_cons, List.cons_append, List.nil_append, splitMods_letter m hrest, ih,
      List.foldr_cons]

theorem splitMods_of_ne {name : List Char} (h : name[1]? ≠ some '-') :
    splitMods name = (.none, name) := by
  unfold splitMods
  split
  · simp at h
  · rfl

namespace Mods

theorem foldr_insert_toList (s : Mods) : s.toList.foldr (fun m s => s.insert m) .none = s := by
  obtain ⟨_ | _, _ | _, _ | _, _ | _, _ | _⟩ := s <;> rfl

theorem toList_ne_nil {s : Mods} (h : s ≠ .none) : s.toList ≠ [] := by
  intro hnil
  have heq := s.foldr_insert_toList
  rw [hnil] at heq
  exact h heq.symm

/-- The modifiers in writing end in the letter of one of them and a dash. -/
theorem exists_render_eq {s : Mods} (h : s ≠ .none) : ∃ (ms : List Modifier) (m : Modifier),
    s.render = (ms.flatMap fun m => [m.letter, '-']) ++ [m.letter, '-'] := by
  obtain ⟨ms, m, hms⟩ := (List.eq_nil_or_concat s.toList).resolve_left (toList_ne_nil h)
  refine ⟨ms, m, ?_⟩
  rw [render, hms, List.concat_eq_append, List.flatMap_append, List.flatMap_singleton]

theorem getLast?_render {s : Mods} (h : s ≠ .none) : s.render.getLast? = some '-' := by
  obtain ⟨ms, m, hrender⟩ := exists_render_eq h
  rw [hrender, List.getLast?_append]
  rfl

theorem not_mem_render (s : Mods) {c : Char} (hc : c = '<' ∨ c = '>') : c ∉ s.render := by
  intro hmem
  obtain ⟨m, -, hm⟩ := List.mem_flatMap.1 hmem
  rcases hc with rfl | rfl <;> cases m <;> simp [Modifier.letter] at hm

theorem render_ne_nil {s : Mods} (h : s ≠ .none) : s.render ≠ [] := by
  intro hnil
  have hlast := getLast?_render h
  rw [hnil] at hlast
  cases hlast

/-- The modifiers in front of a name that has none are split off. -/
theorem splitMods_render_append (s : Mods) {name : List Char} (hne : name ≠ [])
    (hname : splitMods name = (.none, name)) : splitMods (s.render ++ name) = (s, name) := by
  rw [render, splitMods_letters s.toList hne, hname, foldr_insert_toList]

/-- **Modifiers alone name no key.** -/
theorem readGroup_render {s : Mods} (h : s ≠ .none) :
    ∃ name, readGroup s.render = .error (.unknownKey name) := by
  obtain ⟨ms, m, hrender⟩ := exists_render_eq h
  refine ⟨[m.letter, '-'], ?_⟩
  have hlast : splitMods [m.letter, '-'] = (.none, [m.letter, '-']) := rfl
  have hname : readName [m.letter, '-'] = .error (.unknownKey [m.letter, '-']) := by
    cases m <;> rfl
  rw [readGroup, hrender, splitMods_letters ms (List.cons_ne_nil _ _), hlast]
  simp only [hname]
  rfl

end Mods

/-! ### Names -/

theorem toLower_of_isDigit {c : Char} (h : c.isDigit = true) : c.toLower = c := by
  simp only [Char.isDigit, Bool.and_eq_true, decide_eq_true_eq, UInt32.le_iff_toNat_le] at h
  have hnine : '9'.val.toNat = 57 := rfl
  have hupper : 'A'.val.toNat = 65 := rfl
  refine dif_neg fun hrange => ?_
  have hle := UInt32.le_iff_toNat_le.1 hrange.1
  omega

/-- The number of a function key is written with digits only. -/
theorem not_mem_toDigits (n : Nat) {c : Char} (hc : c.isDigit = false) :
    c ∉ Nat.toDigits 10 n := by
  intro hmem
  rw [Nat.isDigit_of_mem_toDigits (by decide) (by decide) hmem] at hc
  cases hc

theorem readByte?_toDigits {n : Nat} (h : n < 256) : readByte? (Nat.toDigits 10 n) = some n := by
  have hdigit : ∀ c ∈ Nat.toDigits 10 n, c.isDigit = true := fun c hc =>
    Nat.isDigit_of_mem_toDigits (by decide) (by decide) hc
  have hplus : (Nat.toDigits 10 n).head? ≠ some '+' := fun hhead =>
    not_mem_toDigits n (by decide) (List.mem_of_head? hhead)
  have hvalue : (Nat.toDigits 10 n).foldl (fun n c => 10 * n + (c.toNat - '0'.toNat)) 0 = n :=
    Nat.ofDigitChars_toDigits (by decide) (by decide)
  have hempty : (Nat.toDigits 10 n).isEmpty = false := by simp [Nat.toDigits_ne_nil]
  simp only [readByte?, hplus, ↓reduceIte, hempty, Bool.false_eq_true, List.all_eq_true.2 hdigit,
    hvalue, h]

/-- The name of a function key is read as that key. -/
theorem readName_function {n : Nat} (h : (NamedKey.f n).IsNumbered) :
    readName (NamedKey.f n).name = .ok (.named (.f n)) := by
  have hdigits : (Nat.toDigits 10 n).map Char.toLower = Nat.toDigits 10 n := by
    refine (List.map_congr_left fun c hc => ?_).trans (List.map_id _)
    exact toLower_of_isDigit (Nat.isDigit_of_mem_toDigits (by decide) (by decide) hc)
  have hnumber : functionKey? ('f' :: Nat.toDigits 10 n) = some (.f n) := by
    rw [functionKey?, readByte?_toDigits h.2, Option.bind_some, if_neg (Nat.ne_of_gt h.1)]
  have hlower : ('F' :: Nat.toDigits 10 n).map Char.toLower = 'f' :: Nat.toDigits 10 n := by
    rw [List.map_cons, hdigits]
    rfl
  have hchars : charNames.lookup ('f' :: Nat.toDigits 10 n) = none := by
    simp [List.lookup_eq_none_iff, charNames]
  have hkeys : keyNames.lookup ('f' :: Nat.toDigits 10 n) = none := by
    simp [List.lookup_eq_none_iff, keyNames]
  have hlong : ∀ c, NamedKey.name (.f n) ≠ [c] := by
    simp [NamedKey.name, Nat.toDigits_ne_nil]
  unfold readName
  split
  · exact absurd ‹_› (hlong _)
  · simp only [NamedKey.name, hlower, hchars, hkeys, hnumber, Option.none_or]

/-- What a key by itself is called is read as that key, and no modifier is read in front. -/
theorem Key.IsSingle.read_body {base : Key} (h : base.IsSingle) :
    base.body ≠ [] ∧ splitMods base.body = (.none, base.body) ∧ readName base.body = .ok base := by
  cases base with
  | chord => exact h.elim
  | char c =>
    rw [Key.body]
    split
    · subst c
      exact ⟨List.cons_ne_nil _ _, rfl, rfl⟩
    · split
      · subst c
        exact ⟨List.cons_ne_nil _ _, rfl, rfl⟩
      · exact ⟨List.cons_ne_nil _ _, rfl, rfl⟩
  | named k =>
    cases k with
    | f n =>
      refine ⟨List.cons_ne_nil _ _, splitMods_of_ne fun hdash => ?_, readName_function h⟩
      exact not_mem_toDigits n (by decide) (List.mem_of_getElem? (i := 0) hdash)
    | _ => exact ⟨List.cons_ne_nil _ _, rfl, rfl⟩

theorem lt_of_readByte? {cs : List Char} {n : Nat} (h : readByte? cs = some n) : n < 256 := by
  unfold readByte? at h
  dsimp only at h
  generalize (if cs.head? = some '+' then cs.tail else cs) = digits at h
  split at h
  · cases h
  · split at h
    · split at h
      · cases h
        assumption
      · cases h
    · cases h

theorem isNumbered_of_functionKey? {name : List Char} {k : NamedKey}
    (h : functionKey? name = some k) : k.IsNumbered := by
  unfold functionKey? at h
  split at h
  · obtain ⟨n, hn, hk⟩ := Option.bind_eq_some_iff.1 h
    split at hk
    · cases hk
    · cases hk
      exact ⟨Nat.pos_of_ne_zero ‹_›, lt_of_readByte? hn⟩
  · cases h

/-- What is read as a name is a key by itself. -/
theorem isSingle_of_readName {name : List Char} {k : Key} (h : readName name = .ok k) :
    k.IsSingle := by
  have hnames : ∀ e ∈ keyNames, e.2.IsNumbered := by decide
  unfold readName at h
  split at h
  · cases h
    trivial
  · dsimp only at h
    split at h
    · cases h
      trivial
    · split at h
      · cases h
        rename_i k' hk'
        rcases Option.or_eq_some_iff.1 hk' with hname | ⟨-, hfunction⟩
        · obtain ⟨before, after, heq, -⟩ := List.lookup_eq_some_iff.1 hname
          exact hnames (_, k') (heq ▸ List.mem_append_right _ List.mem_cons_self)
        · exact isNumbered_of_functionKey? hfunction
      · cases h

/-! ### Groups -/

/-- **What a canonical key is called inside angle brackets is read as that key.** -/
theorem Key.readGroup_body {k : Key} (h : k.Canonical) : readGroup k.body = .ok k := by
  cases k with
  | chord base mods =>
    obtain ⟨hbase, hmods⟩ := h
    obtain ⟨hne, hsplit, hname⟩ := hbase.read_body
    rw [body, readGroup, mods.splitMods_render_append hne hsplit]
    simp only [hname]
    exact congrArg Except.ok (if_neg hmods)
  | char c =>
    have hsingle : (char c).IsSingle := h
    obtain ⟨-, hsplit, hname⟩ := hsingle.read_body
    rw [readGroup, hsplit]
    simp only [hname]
    rfl
  | named k =>
    have hsingle : (named k).IsSingle := h
    obtain ⟨-, hsplit, hname⟩ := hsingle.read_body
    rw [readGroup, hsplit]
    simp only [hname]
    rfl

/-- What two readers give one after the other, the second gives on what the first gave. -/
theorem exists_of_bind_eq_ok {ε α β : Type} {m : Except ε α} {f : α → Except ε β} {b : β}
    (h : m >>= f = .ok b) : ∃ a, m = .ok a ∧ f a = .ok b := by
  cases m with
  | ok a => exact ⟨a, rfl, h⟩
  | error e => cases h

/-- Groups spell canonical keys. -/
theorem canonical_of_readGroup {group : List Char} {k : Key} (h : readGroup group = .ok k) :
    k.Canonical := by
  obtain ⟨base, hname, hk⟩ := exists_of_bind_eq_ok h
  cases hk
  exact Key.canonical_withMods (isSingle_of_readName hname) _

/-- What is read behind a key comes behind that key. -/
theorem exists_of_cons_eq_ok {ε : Type} {m : Except ε (List Key)} {k : Key} {ks : List Key}
    (h : (do let rest ← m; return k :: rest : Except ε (List Key)) = .ok ks) :
    ∃ rest, m = .ok rest ∧ ks = k :: rest := by
  obtain ⟨rest, hrest, hks⟩ := exists_of_bind_eq_ok h
  cases hks
  exact ⟨rest, hrest, rfl⟩

/-- What is read are canonical keys, one at least if anything is written. -/
theorem canonical_of_parseKeysFrom {i : Nat} {cs : List Char} {ks : List Key}
    (h : parseKeysFrom i cs = .ok ks) : (∀ k ∈ ks, k.Canonical) ∧ (ks = [] → cs = []) := by
  have hcons {k : Key} {keys : List Key} {cs : List Char} (hk : k.Canonical)
      (hkeys : ∀ k ∈ keys, k.Canonical) :
      (∀ l ∈ k :: keys, l.Canonical) ∧ (k :: keys = [] → cs = []) :=
    ⟨List.forall_mem_cons.2 ⟨hk, hkeys⟩, fun hnil => absurd hnil (List.cons_ne_nil k keys)⟩
  fun_induction parseKeysFrom i cs generalizing ks with
  | case1 =>
    cases h
    exact ⟨List.forall_mem_nil _, fun _ => rfl⟩
  | case2 i rest hgroup ih =>
    obtain ⟨keys, hkeys, rfl⟩ := exists_of_cons_eq_ok h
    exact hcons trivial (ih hkeys).1
  | case3 => cases h
  | case4 i rest group rest' hgroup hne ih =>
    cases hkey : readGroup group with
    | ok key =>
      rw [hkey] at h
      obtain ⟨keys, hkeys, rfl⟩ := exists_of_cons_eq_ok h
      exact hcons (canonical_of_readGroup hkey) (ih hkeys).1
    | error e =>
      rw [hkey] at h
      cases h
  | case5 i c rest hc ih =>
    obtain ⟨keys, hkeys, rfl⟩ := exists_of_cons_eq_ok h
    exact hcons trivial (ih hkeys).1

/-- **Scripts spell canonical keys only**, and one at least. -/
theorem canonical_of_parseKeys {script : List Char} {ks : List Key}
    (h : parseKeys script = .ok ks) : (∀ k ∈ ks, k.Canonical) ∧ ks ≠ [] := by
  unfold parseKeys at h
  split at h
  · cases h
  · rename_i hscript
    obtain ⟨hcanonical, hnil⟩ := canonical_of_parseKeysFrom h
    exact ⟨hcanonical, fun hks => hscript (List.isEmpty_iff.2 (hnil hks))⟩

/-! ### Brackets in names -/

namespace Key

theorem Canonical.body_ne_nil {k : Key} (hk : k.Canonical) : k.body ≠ [] := by
  intro hnil
  have hread := readGroup_body hk
  rw [hnil] at hread
  cases hread

/-- Of the keys by themselves only that of the closing bracket has a bracket in its name. -/
theorem IsSingle.eq_of_mem_body {base : Key} (h : base.IsSingle) {c : Char}
    (hc : c = '<' ∨ c = '>') (hmem : c ∈ base.body) : base = .char '>' := by
  cases base with
  | chord => exact h.elim
  | char b =>
    rw [body] at hmem
    split at hmem
    · rcases hc with rfl | rfl <;> simp at hmem
    · split at hmem
      · rcases hc with rfl | rfl <;> simp at hmem
      · obtain rfl := List.mem_singleton.1 hmem
        rcases hc with rfl | rfl
        · contradiction
        · rfl
  | named k =>
    cases k with
    | f n =>
      rcases List.mem_cons.1 hmem with rfl | hdigit
      · rcases hc with hc | hc <;> cases hc
      · rcases hc with rfl | rfl <;> exact absurd hdigit (not_mem_toDigits n (by decide))
    | _ => rcases hc with rfl | rfl <;> exact absurd hmem (by decide)

/-- **How a canonical key is written**: as one character, or in brackets around a name that has no
brackets, unless it is the key of the closing bracket with modifiers. -/
theorem Canonical.writing_cases {k : Key} (h : k.Canonical) :
    (∃ c, k = .char c ∧ IsPlain c ∧ k.render = [c]) ∨
      (k.render = '<' :: (k.body ++ ['>']) ∧ ∀ c ∈ k.body, c ≠ '<' ∧ c ≠ '>') ∨
      ∃ mods, mods ≠ .none ∧ k = .chord (.char '>') mods ∧
        k.render = '<' :: (mods.render ++ ['>', '>']) := by
  have hfree {base : Key} (hbase : base.IsSingle) (hne : base ≠ .char '>') :
      ∀ c ∈ base.body, c ≠ '<' ∧ c ≠ '>' := fun c hmem =>
    ⟨fun hc => hne (hbase.eq_of_mem_body (.inl hc) hmem),
      fun hc => hne (hbase.eq_of_mem_body (.inr hc) hmem)⟩
  cases k with
  | char c =>
    by_cases hc : c = '<' ∨ c = ' '
    · refine .inr (.inl ⟨by simp [render, hc], hfree h ?_⟩)
      rcases hc with rfl | rfl <;> simp
    · have hplain : IsPlain c := not_or.1 hc
      exact .inl ⟨c, rfl, hplain, render_of_isPlain hplain⟩
  | named k => exact .inr (.inl ⟨rfl, hfree h (by simp)⟩)
  | chord base mods =>
    by_cases hbase : base = .char '>'
    · subst hbase
      refine .inr (.inr ⟨mods, h.2, rfl, ?_⟩)
      simp [render, body]
    · refine .inr (.inl ⟨rfl, fun c hmem => ?_⟩)
      rcases List.mem_append.1 hmem with hmods | hname
      · exact ⟨fun hc => mods.not_mem_render (.inl hc) hmods,
          fun hc => mods.not_mem_render (.inr hc) hmods⟩
      · exact hfree h.1 hbase c hname

end Key

/-- Two texts cut at their first closing bracket have the same front. -/
theorem eq_of_append_closing_eq {x y rest rest' : List Char} (hx : '>' ∉ x) (hy : '>' ∉ y)
    (h : x ++ '>' :: rest = y ++ '>' :: rest') : x = y ∧ rest = rest' := by
  have hlength := Nat.le_antisymm (length_le_of_append_eq hx h.symm) (length_le_of_append_eq hy h)
  obtain ⟨rfl, hrest⟩ := List.append_inj h hlength
  exact ⟨rfl, (List.cons.inj hrest).2⟩

namespace Key

variable {k l : Key} {t u : List Char}

theorem eq_of_body_eq (hk : k.Canonical) (hl : l.Canonical) (h : k.body = l.body) : k = l := by
  have hread := readGroup_body hk
  rw [h, readGroup_body hl] at hread
  cases hread
  rfl

theorem body_ne_render (hk : k.Canonical) {mods : Mods} (hmods : mods ≠ .none) :
    k.body ≠ mods.render := by
  intro heq
  obtain ⟨name, herror⟩ := Mods.readGroup_render hmods
  rw [← heq, readGroup_body hk] at herror
  cases herror

theorem render_ne_nil (k : Key) : k.render ≠ [] := by
  rcases k.render_cases with ⟨c, -, -, hrender⟩ | ⟨body, hrender⟩ <;> simp [hrender]

theorem eq_of_cons_eq_render_append {c : Char} (hc : IsPlain c) (h : c :: t = l.render ++ u) :
    .char c = l ∧ t = u := by
  obtain ⟨x, rest, hrender⟩ := List.exists_cons_of_ne_nil l.render_ne_nil
  rw [hrender] at h
  obtain ⟨rfl, -⟩ := List.cons.inj h
  obtain rfl := eq_char_of_head?_render hc (k := l) (by rw [hrender]; rfl)
  rw [render_of_isPlain hc] at hrender
  cases hrender
  exact ⟨rfl, (List.cons.inj h).2⟩

/-- **The writing of a key is not the beginning of another's**: whatever is written behind two
canonical keys, the texts are the same only if the keys are. -/
theorem eq_of_render_append (hk : k.Canonical) (hl : l.Canonical)
    (h : k.render ++ t = l.render ++ u) : k = l ∧ t = u := by
  rcases hk.writing_cases with ⟨c, rfl, hc, hrender⟩ | ⟨hrender, hfree⟩ |
    ⟨mods, hmods, rfl, hrender⟩
  · rw [hrender] at h
    exact eq_of_cons_eq_render_append hc h
  all_goals
    rcases hl.writing_cases with ⟨c, rfl, hc, hrender'⟩ | ⟨hrender', hfree'⟩ |
      ⟨mods', hmods', rfl, hrender'⟩
    · rw [hrender'] at h
      exact (eq_of_cons_eq_render_append hc h.symm).imp Eq.symm Eq.symm
    all_goals
      simp only [hrender, hrender', List.cons_append, List.append_assoc, List.nil_append,
        List.cons.injEq, true_and] at h
  · obtain ⟨hbody, hrest⟩ := eq_of_append_closing_eq (fun hc => (hfree _ hc).2 rfl)
      (fun hc => (hfree' _ hc).2 rfl) h
    exact ⟨eq_of_body_eq hk hl hbody, hrest⟩
  · obtain ⟨hbody, -⟩ := eq_of_append_closing_eq (fun hc => (hfree _ hc).2 rfl)
      (mods'.not_mem_render (.inr rfl)) h
    exact absurd hbody (body_ne_render hk hmods')
  · obtain ⟨hbody, -⟩ := eq_of_append_closing_eq (mods.not_mem_render (.inr rfl))
      (fun hc => (hfree' _ hc).2 rfl) h
    exact absurd hbody.symm (body_ne_render hl hmods)
  · obtain ⟨hbody, hrest⟩ := eq_of_append_closing_eq (mods.not_mem_render (.inr rfl))
      (mods'.not_mem_render (.inr rfl)) h
    refine ⟨eq_of_body_eq hk hl ?_, (List.cons.inj hrest).2⟩
    simp only [body, hbody]

end Key

end ModalEdit
