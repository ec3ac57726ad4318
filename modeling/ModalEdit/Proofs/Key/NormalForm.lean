import Mathlib.Data.List.TakeWhile
import ModalEdit.Proofs.Config.Entry
import ModalEdit.Proofs.Key.RoundTrip

/-!
# The normal form of a script

A script may spell a key in several ways: names have aliases, letters either case, and modifiers any
order. Reading a script and writing the keys again picks one spelling, its `normalForm`.

Not every list of canonical keys is read back from its writing (`Key.RunsInto`), but those that come
from a script are. A dash with modifiers can only be spelled by a group that ends in a dash; had a
closing bracket followed, it would have become part of that group (`keepApart_of_parseKeysFrom`). So
`parseKeys_normalForm` has no exception: the normal form of every script is read as the same keys,
and is its own normal form. This covers the keys of all bindings, which come from scripts.
-/

namespace ModalEdit

/-- A script in the spelling of `renderKeys`. -/
def normalForm (script : List Char) : Except KeyError (List Char) :=
  (parseKeys script).map renderKeys

/-- The keys are those of some script in normal form: canonical keys, one at least, that are read
back from their writing. -/
def IsSpelled (ks : List Key) : Prop :=
  ks ≠ [] ∧ (∀ k ∈ ks, k.Canonical) ∧ parseKeys (renderKeys ks) = .ok ks

/-! ### What groups can spell -/

/-- The name that is left when the modifiers have been split off ends the group. -/
theorem splitMods_suffix (group : List Char) :
    ∃ front, group = front ++ (splitMods group).2 ∧ ((splitMods group).1 = .none → front = []) := by
  fun_induction splitMods group with
  | case1 x c rest m hm mods name hsplit ih =>
    obtain ⟨front, hgroup, -⟩ := ih
    rw [hsplit] at hgroup
    refine ⟨x :: '-' :: front, by simp [hgroup], fun hnone => ?_⟩
    -- a modifier has been read, so the set is not empty
    cases m <;> simp [Mods.insert, Mods.none] at hnone
  | case2 x c rest hx => exact ⟨[], rfl, fun _ => rfl⟩
  | case3 name hname => exact ⟨[], rfl, fun _ => rfl⟩

/-- The names of single characters are these characters, three with a name of their own apart. -/
theorem eq_of_readName_char {name : List Char} {c : Char} (h : readName name = .ok (.char c)) :
    name = [c] ∨ c ∈ charNames.map (·.2) := by
  unfold readName at h
  split at h
  · cases h
    exact .inl rfl
  · dsimp only at h
    split at h
    · cases h
      rename_i hname
      obtain ⟨before, after, heq, -⟩ := List.lookup_eq_some_iff.1 hname
      refine .inr ?_
      rw [heq]
      simp
    · split at h <;> cases h

/-- A group is a name behind the letters of its modifiers. -/
theorem exists_of_readGroup {group : List Char} {k : Key} (h : readGroup group = .ok k) :
    ∃ front name base mods, group = front ++ name ∧ readName name = .ok base ∧
      k = base.withMods mods ∧ (mods = .none → front = []) := by
  obtain ⟨front, hgroup, hfront⟩ := splitMods_suffix group
  obtain ⟨base, hname, hk⟩ := exists_of_bind_eq_ok h
  cases hk
  exact ⟨front, _, base, _, hgroup, hname, rfl, hfront⟩

theorem Key.withMods_eq_char {base : Key} {mods : Mods} {c : Char}
    (h : base.withMods mods = .char c) : mods = .none ∧ base = .char c := by
  unfold Key.withMods at h
  split at h
  · exact ⟨‹_›, h⟩
  · cases h

/-- The closing bracket by itself is spelled by no group but its own character. -/
theorem eq_of_readGroup_closing {group : List Char} (h : readGroup group = .ok (.char '>')) :
    group = ['>'] := by
  obtain ⟨front, name, base, mods, rfl, hname, hk, hfront⟩ := exists_of_readGroup h
  obtain ⟨hmods, rfl⟩ := Key.withMods_eq_char hk.symm
  obtain rfl := hfront hmods
  exact (eq_of_readName_char hname).resolve_right (by decide)

/-- A group that spells a dash with modifiers ends in a dash. -/
theorem getLast?_of_readGroup {group : List Char} {k : Key} (h : readGroup group = .ok k)
    (hdash : k.isHeldDash = true) : group.getLast? = some '-' := by
  obtain ⟨front, name, base, mods, rfl, hname, hk, -⟩ := exists_of_readGroup h
  obtain ⟨held, rfl⟩ := Key.exists_of_isHeldDash hdash
  have hbase : base = .char '-' := by
    unfold Key.withMods at hk
    split at hk
    · -- a name by itself spells no key with modifiers
      subst hk
      exact (isSingle_of_readName hname).elim
    · cases hk
      rfl
  subst hbase
  obtain rfl := (eq_of_readName_char hname).resolve_right (by decide)
  simp

/-- **Where a group ends.** Either it holds no closing bracket, and does not end in a dash if
another bracket follows, or its only closing bracket stands behind a dash at its end. -/
theorem splitGroup?_cases {cs group rest : List Char} (h : splitGroup? cs = some (group, rest)) :
    ('>' ∉ group ∧ (group.getLast? = some '-' → rest.head? ≠ some '>')) ∨
      ∃ front, front.getLast? = some '-' ∧ group = front ++ ['>'] := by
  have hfree : '>' ∉ cs.takeWhile (· != '>') := by
    intro hmem
    simpa using List.mem_takeWhile_imp hmem
  unfold splitGroup? at h
  split at h
  · cases h
  · dsimp only at h
    split at h <;> cases h
    · rename_i hdash
      exact .inr ⟨_, hdash.1, rfl⟩
    · rename_i hdash
      exact .inl ⟨hfree, fun hlast hhead => hdash ⟨hlast, hhead⟩⟩

/-- No group spells the closing bracket by itself. -/
theorem readGroup_ne_closing {cs group rest : List Char}
    (h : splitGroup? cs = some (group, rest)) : readGroup group ≠ .ok (.char '>') := by
  intro hread
  obtain rfl := eq_of_readGroup_closing hread
  rcases splitGroup?_cases h with ⟨hfree, -⟩ | ⟨front, hdash, hgroup⟩
  · exact hfree List.mem_cons_self
  · obtain rfl : front = [] := by simpa using hgroup.symm
    cases hdash

/-- No closing bracket follows a group that spells a dash with modifiers. -/
theorem head?_ne_of_heldDash {cs group rest : List Char} {k : Key}
    (h : splitGroup? cs = some (group, rest)) (hread : readGroup group = .ok k)
    (hdash : k.isHeldDash = true) : rest.head? ≠ some '>' := by
  have hlast := getLast?_of_readGroup hread hdash
  rcases splitGroup?_cases h with ⟨-, hrest⟩ | ⟨front, -, rfl⟩
  · exact hrest hlast
  · simp at hlast

/-! ### What scripts can spell -/

/-- The key of the closing bracket comes from that character. -/
theorem head?_of_parseKeysFrom {i : Nat} {cs : List Char} {ks : List Key}
    (h : parseKeysFrom i cs = .ok ks) (hhead : ks.head? = some (.char '>')) :
    cs.head? = some '>' := by
  -- only the first key is looked at, so a case distinction will do
  unfold parseKeysFrom at h
  split at h
  · cases h
    cases hhead
  · rename_i c rest
    split at h
    · split at h
      · obtain ⟨keys, -, rfl⟩ := exists_of_cons_eq_ok h
        cases ‹c = '<'›
        cases hhead
      · rename_i group rest' hgroup
        split at h
        · cases h
        · cases hkey : readGroup group with
          | ok key =>
            rw [hkey] at h
            obtain ⟨keys, -, rfl⟩ := exists_of_cons_eq_ok h
            obtain rfl : key = .char '>' := by simpa using hhead
            exact absurd hkey (readGroup_ne_closing hgroup)
          | error e =>
            rw [hkey] at h
            cases h
    · obtain ⟨keys, -, rfl⟩ := exists_of_cons_eq_ok h
      obtain rfl : c = '>' := by simpa using hhead
      rfl

/-- **No key of a script runs into the next one.** -/
theorem keepApart_of_parseKeysFrom {i : Nat} {cs : List Char} {ks : List Key}
    (h : parseKeysFrom i cs = .ok ks) : KeepApart ks := by
  have hplain {c : Char} {keys : List Key} (hkeys : KeepApart keys) :
      KeepApart (.char c :: keys) :=
    keepApart_cons.2 ⟨fun hruns => absurd hruns.1.1 Bool.false_ne_true, hkeys⟩
  fun_induction parseKeysFrom i cs generalizing ks with
  | case1 =>
    cases h
    exact List.isChain_nil
  | case2 i rest hgroup ih =>
    obtain ⟨keys, hkeys, rfl⟩ := exists_of_cons_eq_ok h
    exact hplain (ih hkeys)
  | case3 => cases h
  | case4 i rest group rest' hgroup hne ih =>
    cases hkey : readGroup group with
    | ok key =>
      rw [hkey] at h
      obtain ⟨keys, hkeys, rfl⟩ := exists_of_cons_eq_ok h
      refine keepApart_cons.2 ⟨?_, ih hkeys⟩
      rintro ⟨hruns, hhead⟩
      exact head?_ne_of_heldDash hgroup hkey hruns.1 (head?_of_parseKeysFrom hkeys hhead)
    | error e =>
      rw [hkey] at h
      cases h
  | case5 i c rest hc ih =>
    obtain ⟨keys, hkeys, rfl⟩ := exists_of_cons_eq_ok h
    exact hplain (ih hkeys)

/-- The keys of a script are read back from their writing. -/
theorem isSpelled_of_parseKeys {script : List Char} {ks : List Key}
    (h : parseKeys script = .ok ks) : IsSpelled ks := by
  obtain ⟨hcanonical, hne⟩ := canonical_of_parseKeys h
  have hapart : KeepApart ks := by
    unfold parseKeys at h
    split at h
    · cases h
    · exact keepApart_of_parseKeysFrom h
  have hwritten : (renderKeys ks).isEmpty = false := by
    obtain ⟨k, ks, rfl⟩ := List.exists_cons_of_ne_nil hne
    simp [k.render_ne_nil]
  refine ⟨hne, hcanonical, ?_⟩
  rw [parseKeys, if_neg (by simp [hwritten])]
  exact (parseKeysFrom_renderKeys hcanonical 0).1 hapart

/-- A normal form is its own. -/
theorem normalForm_renderKeys {ks : List Key} (h : IsSpelled ks) :
    normalForm (renderKeys ks) = .ok (renderKeys ks) := by
  rw [normalForm, h.2.2]
  rfl

/-! ### Bindings -/

namespace Binding

/-- The keys of a binding come from a script. -/
theorem exists_script_of_read {i : Nat} {v : Toml.Value} {b : Binding} (h : read i v = .ok b) :
    ∃ script, parseKeys script = .ok b.keys := by
  obtain ⟨t, -, hdescribes⟩ := read_eq_ok_iff.1 h
  obtain ⟨script, -, hparse⟩ := hdescribes.keys
  exact ⟨_, hparse⟩

theorem exists_script_of_readFrom {i : Nat} {vs : List Toml.Value} {b : Binding}
    (h : b ∈ (readFrom i vs).1) : ∃ script, parseKeys script = .ok b.keys := by
  induction vs generalizing i with
  | nil => cases h
  | cons v vs ih =>
    unfold readFrom at h
    cases hread : read i v with
    | ok b' =>
      simp only [hread, List.mem_cons] at h
      rcases h with rfl | h
      · exact exists_script_of_read hread
      · exact ih h
    | error e =>
      simp only [hread] at h
      exact ih h

/-- The keys of every binding of a configuration come from a script. -/
theorem exists_script_of_readAll {bindings : Option Toml.Value} {b : Binding}
    (h : b ∈ (readAll bindings).1) : ∃ script, parseKeys script = .ok b.keys := by
  unfold readAll at h
  split at h
  · cases h
  · split at h
    · exact exists_script_of_readFrom h
    · cases h

end Binding

/-- **Writing after reading is a normal form.** The keys of every script, and those of every binding
that is accepted from a configuration, are canonical keys, one at least, and are read back from
their writing. So the normal form of a script is its own normal form. -/
theorem parseKeys_normalForm :
    (∀ (script : List Char) (ks : List Key), parseKeys script = .ok ks →
      IsSpelled ks ∧ normalForm script = .ok (renderKeys ks)) ∧
    (∀ (bindings : Option Toml.Value), ∀ b ∈ (Binding.readAll bindings).1, IsSpelled b.keys) ∧
    ∀ script : List Char, (normalForm script >>= normalForm) = normalForm script := by
  refine ⟨?_, ?_, ?_⟩
  · intro script ks h
    exact ⟨isSpelled_of_parseKeys h, by rw [normalForm, h]; rfl⟩
  · intro bindings b hb
    obtain ⟨script, hscript⟩ := Binding.exists_script_of_readAll hb
    exact isSpelled_of_parseKeys hscript
  · intro script
    cases h : parseKeys script with
    | ok ks =>
      have hform : normalForm script = .ok (renderKeys ks) := by rw [normalForm, h]; rfl
      rw [hform]
      exact normalForm_renderKeys (isSpelled_of_parseKeys h)
    | error e =>
      have hform : normalForm script = .error e := by rw [normalForm, h]; rfl
      rw [hform]
      rfl

/-- Aliases in either case, a modifier given twice, brackets behind dashes, and an angle bracket
that is never closed. -/
theorem parseKeys_normalForm_aliases :
    let script := "<s-C-c-RETURN><d-->x<C->>-><F+5><bar><".toList
    let ks : List Key := [.chord (.named .enter) { ctrl := true, shift := true },
      .chord (.char '-') { super := true }, .char 'x', .chord (.char '>') { ctrl := true },
      .char '-', .char '>', .named (.f 5), .char '|', .char '<']
    parseKeys script = .ok ks ∧ renderKeys ks = "<C-S-CR><D-->x<C->>-><F5>|<lt>".toList ∧
      IsSpelled ks ∧ normalForm script = .ok (renderKeys ks) := by
  intro script ks
  have h : parseKeys script = .ok ks := by decide +kernel
  exact ⟨h, by decide, parseKeys_normalForm.1 script ks h⟩

end ModalEdit
