import Mathlib.Data.List.Chain
import ModalEdit.Proofs.Key.Canonical

/-!
# Writing keys and reading them back

Canonical keys that have been written are read back as the same keys, with one exception: the dash
with modifiers ends in `->`, and if the key of the closing bracket follows, the reader takes its `>`
for the one that closes the group (`Key.RunsInto`).

`parseKeys_renderKeys_iff` says that this is the only exception.
-/

namespace ModalEdit

namespace Key

/-- The key is a dash with modifiers held down. -/
def isHeldDash : Key → Bool
  | chord base _ => base = .char '-'
  | _ => false

/-- The reader takes the writing of the second key for a part of the first: a dash with modifiers
stands before a closing bracket. -/
def RunsInto (k l : Key) : Prop := k.isHeldDash = true ∧ l = .char '>'

instance (k l : Key) : Decidable (k.RunsInto l) := inferInstanceAs (Decidable (_ ∧ _))

end Key

/-- No key runs into the next one. -/
def KeepApart (ks : List Key) : Prop := ks.IsChain fun k l => ¬ k.RunsInto l

instance (ks : List Key) : Decidable (KeepApart ks) :=
  inferInstanceAs (Decidable (List.IsChain _ _))

/-! ### One key -/

namespace Key

theorem exists_of_isHeldDash {k : Key} (h : k.isHeldDash = true) :
    ∃ mods, k = .chord (.char '-') mods := by
  cases k with
  | chord base mods => exact ⟨mods, by rw [of_decide_eq_true h]⟩
  | char c => cases h
  | named k => cases h

/-- Of the keys by themselves only the dash has a name that ends in one. -/
theorem IsSingle.eq_of_getLast?_body {base : Key} (h : base.IsSingle)
    (hlast : base.body.getLast? = some '-') : base = .char '-' := by
  cases base with
  | chord => exact h.elim
  | char c =>
    rw [body] at hlast
    split at hlast
    · simp at hlast
    · split at hlast
      · simp at hlast
      · cases hlast
        rfl
  | named k =>
    cases k with
    | f n =>
      rcases List.mem_cons.1 (List.mem_of_getLast? hlast) with hdash | hdigit
      · cases hdash
      · exact absurd hdigit (not_mem_toDigits n (by decide))
    | _ => exact absurd hlast (by decide)

/-- The name of a canonical key ends in a dash only if the key is a dash, with modifiers or
without. -/
theorem Canonical.eq_or_runsInto {k : Key} (hk : k.Canonical)
    (hlast : k.body.getLast? = some '-') : k = .char '-' ∨ k.RunsInto (.char '>') := by
  cases k with
  | chord base mods =>
    have hbase : base.body.getLast? = some '-' := by
      rwa [body, List.getLast?_append_of_ne_nil _ hk.1.read_body.1] at hlast
    obtain rfl := hk.1.eq_of_getLast?_body hbase
    exact .inr ⟨rfl, rfl⟩
  | char c =>
    have hsingle : (char c).IsSingle := hk
    exact .inl (hsingle.eq_of_getLast?_body hlast)
  | named k =>
    have hsingle : (named k).IsSingle := hk
    exact .inl (hsingle.eq_of_getLast?_body hlast)

end Key

variable {k : Key} {rest : List Char}

/-- A group is read up to the bracket that closes it. -/
theorem splitGroup?_of_free {group : List Char} (hfree : '>' ∉ group)
    (hdash : ¬ (group.getLast? = some '-' ∧ rest.head? = some '>')) :
    splitGroup? (group ++ '>' :: rest) = some (group, rest) := by
  have hall : ∀ c ∈ group, (c != '>') = true := fun c hc => by
    simpa using ne_of_mem_of_not_mem hc hfree
  simp only [splitGroup?, List.takeWhile_append_of_pos hall, List.dropWhile_append_of_pos hall]
  simp [hdash]

/-- A bracket right behind the one that would close a group ending in a dash closes it instead. -/
theorem splitGroup?_of_dash {group : List Char} (hfree : '>' ∉ group)
    (hdash : group.getLast? = some '-') :
    splitGroup? (group ++ '>' :: '>' :: rest) = some (group ++ ['>'], rest) := by
  have hall : ∀ c ∈ group, (c != '>') = true := fun c hc => by
    simpa using ne_of_mem_of_not_mem hc hfree
  simp only [splitGroup?, List.takeWhile_append_of_pos hall, List.dropWhile_append_of_pos hall]
  simp [hdash]

/-- A script that begins with a group. -/
theorem parseKeysFrom_of_group {group cs : List Char} (hgroup : splitGroup? cs = some (group, rest))
    (hne : group ≠ []) (i : Nat) :
    parseKeysFrom i ('<' :: cs) = do
      let key ← readGroup group
      let keys ← parseKeysFrom (i + group.length + 2) rest
      return key :: keys := by
  rw [parseKeysFrom, if_pos rfl]
  split
  · rename_i hnone
    rw [hgroup] at hnone
    cases hnone
  · rename_i group' rest' hsome
    rw [hgroup] at hsome
    cases hsome
    rw [if_neg (by simpa using hne)]

/-- **A key that has been written is read back**, unless it runs into what is written behind. -/
theorem parseKeysFrom_render (hk : k.Canonical) (rest : List Char)
    (hrest : rest.head? = some '>' → ¬ k.RunsInto (.char '>')) (i : Nat) :
    parseKeysFrom i (k.render ++ rest) = do
      let keys ← parseKeysFrom (i + k.render.length) rest
      return k :: keys := by
  rcases hk.writing_cases with ⟨c, rfl, hc, hrender⟩ | ⟨hrender, hfree⟩ |
    ⟨mods, hmods, rfl, hrender⟩
  · rw [hrender, List.singleton_append, parseKeysFrom, if_neg hc.1]
    rfl
  · have hgroup : splitGroup? (k.body ++ '>' :: rest) = some (k.body, rest) := by
      refine splitGroup?_of_free (fun hc => (hfree _ hc).2 rfl) ?_
      rintro ⟨hlast, hhead⟩
      rcases hk.eq_or_runsInto hlast with rfl | hruns
      · cases hrender
      · exact hrest hhead hruns
    rw [hrender, List.cons_append, List.append_assoc, List.singleton_append,
      parseKeysFrom_of_group hgroup hk.body_ne_nil, Key.readGroup_body hk]
    simp [Nat.add_assoc]
    rfl
  · have hgroup : splitGroup? (mods.render ++ '>' :: '>' :: rest) =
        some (mods.render ++ ['>'], rest) :=
      splitGroup?_of_dash (mods.not_mem_render (.inr rfl)) (mods.getLast?_render hmods)
    have hread : readGroup (mods.render ++ ['>']) = .ok (.chord (.char '>') mods) :=
      Key.readGroup_body hk
    rw [hrender, List.cons_append, List.append_assoc, List.cons_append, List.singleton_append,
      parseKeysFrom_of_group hgroup (by simp), hread]
    simp [Nat.add_assoc]
    rfl

/-- A key that runs into the bracket behind it spoils the script. -/
theorem parseKeysFrom_of_runsInto (hruns : k.RunsInto (.char '>')) (rest : List Char) (i : Nat) :
    parseKeysFrom i (k.render ++ '>' :: rest) = .error (.unknownKey ['-', '>']) := by
  obtain ⟨mods, rfl⟩ := Key.exists_of_isHeldDash hruns.1
  have hgroup : splitGroup? (mods.render ++ ['-'] ++ '>' :: '>' :: rest) =
      some (mods.render ++ ['-'] ++ ['>'], rest) :=
    splitGroup?_of_dash (by simpa using mods.not_mem_render (.inr rfl)) (by simp)
  have hread : readGroup (mods.render ++ ['-', '>']) = .error (.unknownKey ['-', '>']) := by
    rw [readGroup, mods.splitMods_render_append (List.cons_ne_nil _ _) rfl]
    rfl
  have hrender : (Key.chord (.char '-') mods).render ++ '>' :: rest =
      '<' :: (mods.render ++ ['-'] ++ '>' :: '>' :: rest) := by
    simp [Key.render, Key.body]
  rw [hrender, parseKeysFrom_of_group hgroup (by simp), List.append_assoc, List.singleton_append,
    hread]
  rfl

/-! ### Lists of keys -/

/-- Only the key of the closing bracket is written with this bracket in front. -/
theorem head?_renderKeys_eq_iff {ks : List Key} :
    (renderKeys ks).head? = some '>' ↔ ks.head? = some (.char '>') := by
  cases ks with
  | nil => simp
  | cons k ks =>
    rw [renderKeys_cons, List.head?_append_of_ne_nil _ k.render_ne_nil, List.head?_cons,
      Option.some_inj]
    refine ⟨fun h => Key.eq_char_of_head?_render (by decide) h, ?_⟩
    rintro rfl
    rfl

theorem keepApart_cons {ks : List Key} :
    KeepApart (k :: ks) ↔
      ¬ (k.RunsInto (.char '>') ∧ ks.head? = some (.char '>')) ∧ KeepApart ks := by
  rw [KeepApart, List.isChain_cons]
  refine and_congr_left fun _ => ⟨fun h hruns => h _ hruns.2 hruns.1, fun h l hl hruns => ?_⟩
  obtain ⟨hdash, rfl⟩ := hruns
  exact h ⟨⟨hdash, rfl⟩, hl⟩

/-- Written keys are read back if they keep apart, and otherwise the script has an unknown name. -/
theorem parseKeysFrom_renderKeys {ks : List Key} (hks : ∀ k ∈ ks, k.Canonical) (i : Nat) :
    (KeepApart ks → parseKeysFrom i (renderKeys ks) = .ok ks) ∧
      (¬ KeepApart ks → parseKeysFrom i (renderKeys ks) = .error (.unknownKey ['-', '>'])) := by
  induction ks generalizing i with
  | nil =>
    refine ⟨fun _ => ?_, fun h => absurd List.isChain_nil h⟩
    rw [renderKeys_nil, parseKeysFrom]
  | cons k ks ih =>
    obtain ⟨hk, hks⟩ := List.forall_mem_cons.1 hks
    rw [renderKeys_cons, keepApart_cons]
    by_cases hruns : k.RunsInto (.char '>') ∧ ks.head? = some (.char '>')
    · obtain ⟨ks, rfl⟩ := List.head?_eq_some_iff.1 hruns.2
      refine ⟨fun h => absurd hruns h.1, fun _ => ?_⟩
      exact parseKeysFrom_of_runsInto hruns.1 _ i
    · have hread := parseKeysFrom_render hk (renderKeys ks)
        (fun hhead hk => hruns ⟨hk, head?_renderKeys_eq_iff.1 hhead⟩) i
      obtain ⟨hok, herror⟩ := ih hks (i + k.render.length)
      rw [hread]
      refine ⟨fun h => ?_, fun h => ?_⟩
      · rw [hok h.2]
        rfl
      · rw [herror fun hapart => h ⟨hruns, hapart⟩]
        rfl

/-- **Written keys are read back exactly if they keep apart.** A list of canonical keys is read back
from its writing, unless a dash with modifiers stands before the key of the closing bracket; then
the reader finds a name that no key has. -/
theorem parseKeys_renderKeys_iff {ks : List Key} (hne : ks ≠ []) (hks : ∀ k ∈ ks, k.Canonical) :
    (parseKeys (renderKeys ks) = .ok ks ↔ KeepApart ks) ∧
      (¬ KeepApart ks → parseKeys (renderKeys ks) = .error (.unknownKey ['-', '>'])) := by
  have hwritten : (renderKeys ks).isEmpty = false := by
    obtain ⟨k, ks, rfl⟩ := List.exists_cons_of_ne_nil hne
    simp [k.render_ne_nil]
  obtain ⟨hok, herror⟩ := parseKeysFrom_renderKeys hks 0
  simp only [parseKeys, hwritten, Bool.false_eq_true, ↓reduceIte]
  refine ⟨⟨fun h => ?_, hok⟩, herror⟩
  by_contra hapart
  rw [herror hapart] at h
  cases h

/-- Dashes and closing brackets with modifiers, none of which runs into the next key. -/
theorem parseKeys_renderKeys_brackets :
    let ks : List Key := [.chord (.char '-') { ctrl := true }, .char '<',
      .chord (.char '>') { alt := true, super := true }, .char '>', .named (.f 12)]
    ks ≠ [] ∧ (∀ k ∈ ks, k.Canonical) ∧ KeepApart ks ∧ parseKeys (renderKeys ks) = .ok ks := by
  intro ks
  have hks : ∀ k ∈ ks, k.Canonical := by decide
  have hapart : KeepApart ks := by decide
  exact ⟨List.cons_ne_nil _ _, hks, hapart,
    (parseKeys_renderKeys_iff (List.cons_ne_nil _ _) hks).1.2 hapart⟩

/-- The dash with a modifier and the closing bracket behind it are not read back. -/
theorem not_parseKeys_renderKeys :
    let ks : List Key := [.chord (.char '-') { ctrl := true }, .char '>']
    ks ≠ [] ∧ (∀ k ∈ ks, k.Canonical) ∧ renderKeys ks = "<C-->>".toList ∧
      parseKeys (renderKeys ks) ≠ .ok ks := by
  intro ks
  refine ⟨List.cons_ne_nil _ _, by decide, by decide, ?_⟩
  have herror : parseKeysFrom 0 (renderKeys ks) = .error (.unknownKey ['-', '>']) :=
    parseKeysFrom_of_runsInto (k := .chord (.char '-') { ctrl := true }) (by decide) [] 0
  intro h
  rw [show parseKeys (renderKeys ks) = parseKeysFrom 0 (renderKeys ks) from rfl, herror] at h
  cases h

end ModalEdit
