import ModalEdit.Proofs.Pattern.Exact
import ModalEdit.Proofs.Pattern.Expression

/-!
# Placeholders read key by key

A placeholder matches an expression against the keys in writing. On canonical keys it finds what a
reader finds that goes from key to key and knows nothing of writing (`Placeholder.parse_after`):
first the fixed keys, then one more key, which is captured if the expression for one key takes all
of it (`Key.IsCapturable`).

Two consequences. The pattern captures any key behind the fixed ones, except a line feed and the key
of the closing bracket with modifiers (`Placeholder.takesOneBehind_iff`). More keys do not change
what has been found (`Pattern.IsBuilt.parse_append`).
-/

namespace ModalEdit

/-! ### Keys in writing -/

section Writing

variable {fixed keys : List Key} {t : List Char}

theorem renderKeys_eq_nil_iff : renderKeys keys = [] ↔ keys = [] := by
  cases keys with
  | nil => simp
  | cons k keys => simp [k.render_ne_nil]

/-- Canonical keys whose writing begins with that of others begin with these keys. -/
theorem exists_of_renderKeys_eq_append (hfixed : ∀ k ∈ fixed, k.Canonical)
    (hkeys : ∀ k ∈ keys, k.Canonical) (h : renderKeys keys = renderKeys fixed ++ t) :
    ∃ rest, keys = fixed ++ rest ∧ t = renderKeys rest := by
  induction fixed generalizing keys with
  | nil => exact ⟨keys, rfl, h.symm⟩
  | cons f fixed ih =>
    rw [List.forall_mem_cons] at hfixed
    rw [renderKeys_cons, List.append_assoc] at h
    cases keys with
    | nil => simp [f.render_ne_nil] at h
    | cons k keys =>
      rw [List.forall_mem_cons] at hkeys
      rw [renderKeys_cons] at h
      obtain ⟨rfl, hbehind⟩ := Key.eq_of_render_append hkeys.1 hfixed.1 h
      obtain ⟨rest, rfl, ht⟩ := ih hfixed.2 hkeys.2 hbehind
      exact ⟨rest, rfl, ht⟩

/-- Canonical keys are told by their writing. -/
theorem renderKeys_inj (hkeys : ∀ k ∈ keys, k.Canonical) (hfixed : ∀ k ∈ fixed, k.Canonical) :
    renderKeys keys = renderKeys fixed ↔ keys = fixed := by
  refine ⟨fun h => ?_, congrArg renderKeys⟩
  obtain ⟨rest, rfl, hrest⟩ :=
    exists_of_renderKeys_eq_append hfixed hkeys (h.trans (List.append_nil _).symm)
  rw [renderKeys_eq_nil_iff.1 hrest.symm, List.append_nil]

end Writing

/-! ### One key at a time -/

namespace Pattern

/-- Match fixed keys and one more key behind them, key by key. -/
def parseAfter (var : List Char) : List Key → List Key → Match
  | [], [] | _ :: _, [] => .partly
  | [], k :: rest => if k.IsCapturable then .full (some (var, k)) rest else .none
  | l :: ls, k :: ks => if k = l then parseAfter var ls ks else .none

variable {var : List Char} {fixed keys : List Key}

theorem parseAfter_append (fixed rest : List Key) :
    parseAfter var fixed (fixed ++ rest) = parseAfter var [] rest := by
  induction fixed with
  | nil => rfl
  | cons f fixed ih => rw [List.cons_append, parseAfter, if_pos rfl, ih]

theorem parseAfter_eq_full_iff {captured : Option (List Char × Key)} {rest : List Key} :
    parseAfter var fixed keys = .full captured rest ↔
      ∃ k, captured = some (var, k) ∧ keys = fixed ++ k :: rest ∧ k.IsCapturable := by
  fun_induction parseAfter var fixed keys with
  | case1 => simp
  | case2 => simp
  | case3 k ks hk =>
    simp only [Match.full.injEq, List.nil_append, List.cons.injEq]
    constructor
    · rintro ⟨rfl, rfl⟩
      exact ⟨k, rfl, ⟨rfl, rfl⟩, hk⟩
    · rintro ⟨k', rfl, ⟨rfl, rfl⟩, -⟩
      exact ⟨rfl, rfl⟩
  | case4 k ks hk =>
    simp only [reduceCtorEq, List.nil_append, List.cons.injEq, false_iff, not_exists]
    rintro k' ⟨-, ⟨rfl, -⟩, hk'⟩
    exact hk hk'
  | case5 l ls ks ih => simpa using ih
  | case6 l ls k ks hne => simp [hne]

/-- The beginnings are told rightly whatever can be captured. -/
theorem parseAfter_eq_partly_iff : parseAfter var fixed keys = .partly ↔ keys <+: fixed := by
  fun_induction parseAfter var fixed keys with
  | case1 => simp
  | case2 => simp
  | case3 k ks hk => simp
  | case4 k ks hk => simp
  | case5 l ls ks ih => simpa using ih
  | case6 l ls k ks hne => simp [List.cons_prefix_cons, hne]

theorem parseAfter_eq_none (h : ¬ keys <+: fixed)
    (hcapturable : ∀ k rest, keys = fixed ++ k :: rest → ¬ k.IsCapturable) :
    parseAfter var fixed keys = .none := by
  cases hparse : parseAfter var fixed keys with
  | full captured rest =>
    obtain ⟨k, -, hkeys, hk⟩ := parseAfter_eq_full_iff.1 hparse
    exact absurd hk (hcapturable k rest hkeys)
  | partly => exact absurd (parseAfter_eq_partly_iff.1 hparse) h
  | none => rfl

end Pattern

/-! ### The expressions of a placeholder -/

namespace Placeholder

variable {fixed keys : List Key} {var : List Char}

/-- Behind the fixed keys the full expression captures what the group for one key does. -/
theorem captured_after_append (fixed : List Key) (var t : List Char) : ∃ before,
    ((after fixed var).full.matchStart? (renderKeys fixed ++ t)).bind
        (fun s => s.captured.map (s.done, ·)) =
      Expr.capture? (renderKeys fixed).length before t := by
  obtain ⟨before, hrun⟩ := Expr.run_literal_append (renderKeys fixed) 0 none t none
  refine ⟨before, ?_⟩
  rw [Nat.zero_add] at hrun
  simp only [after, Expr.matchStart?, Expr.capture?, Expr.atStart]
  rw [Expr.run, Expr.run, Edge.holds, if_pos (by rfl), List.flatMap_singleton, Expr.run, hrun,
    List.flatMap_singleton]

theorem matchStart?_of_not_prefix {t : List Char} (h : ¬ renderKeys fixed <+: t) :
    (after fixed var).full.matchStart? t = none := by
  simp only [after, Expr.matchStart?, Expr.atStart]
  rw [Expr.run, Expr.run, Edge.holds, if_pos (by rfl), List.flatMap_singleton, Expr.run,
    Expr.run_literal_eq_nil h]
  rfl

/-- The expression for the beginnings matches the writing of the first one, two, … fixed keys. -/
theorem matchesIn_beginningOf {t : List Char} :
    (beginningOf fixed).matchesIn t = true ↔ fixed = [] ∧ t = [] ∨
      ∃ n, n < fixed.length ∧ t = renderKeys (fixed.take (n + 1)) := by
  cases fixed with
  | nil =>
    rw [beginningOf, if_pos (by rfl), Expr.matchesIn_atStart, Expr.run_atEnd]
    simp
  | cons f fixed =>
    rw [beginningOf, if_neg (by simp), Expr.matchesIn_atStart, Expr.run]
    simp only [ne_eq, List.flatMap_eq_nil_iff, Expr.mem_run_oneOf, List.mem_map, List.mem_range,
      not_forall, reduceCtorEq, false_and, false_or]
    constructor
    · rintro ⟨s, ⟨-, ⟨n, hn, rfl⟩, hs⟩, hend⟩
      refine ⟨n, hn, ?_⟩
      refine (Expr.run_literal_atEnd_ne_nil 0 none none).1 ?_
      rw [Expr.run, ne_eq, List.flatMap_eq_nil_iff]
      exact fun hnil => hend (hnil s hs)
    · rintro ⟨n, hn, ht⟩
      have hend := (Expr.run_literal_atEnd_ne_nil 0 none none).2 ht
      rw [Expr.run, ne_eq, List.flatMap_eq_nil_iff] at hend
      simp only [not_forall] at hend
      obtain ⟨s, hs, hend⟩ := hend
      exact ⟨s, ⟨_, ⟨n, hn, rfl⟩, hs⟩, hend⟩

/-- **The expression for the beginnings matches the beginnings of the fixed keys.** -/
theorem matchesIn_beginningOf_iff (hfixed : ∀ k ∈ fixed, k.Canonical) (hne : keys ≠ [])
    (hkeys : ∀ k ∈ keys, k.Canonical) :
    (beginningOf fixed).matchesIn (renderKeys keys) = true ↔ keys <+: fixed := by
  have htake (n : Nat) : ∀ k ∈ fixed.take n, k.Canonical := fun k hk =>
    hfixed k (List.mem_of_mem_take hk)
  rw [matchesIn_beginningOf]
  constructor
  · rintro (⟨-, hnil⟩ | ⟨n, -, hwritten⟩)
    · exact absurd (renderKeys_eq_nil_iff.1 hnil) hne
    · rw [(renderKeys_inj hkeys (htake _)).1 hwritten]
      exact List.take_prefix _ _
  · intro hfront
    obtain ⟨n, hn⟩ := Nat.exists_eq_add_one_of_ne_zero (mt List.length_eq_zero_iff.1 hne)
    have hle := hfront.length_le
    rw [hn] at hle
    refine .inr ⟨n, hle, congrArg renderKeys ?_⟩
    rw [← hn]
    exact List.prefix_iff_eq_take.1 hfront

/-- What a match uses up to the end of some keys leaves what is behind them. -/
theorem remainderAfter_append (ks rest : List Key) :
    remainderAfter (renderKeys ks).length (ks ++ rest) = rest := by
  induction ks with
  | nil => exact remainderAfter_zero rest
  | cons k ks ih =>
    have hpos : 0 < (renderKeys (k :: ks)).length := by
      rw [List.length_pos_iff, ne_eq, renderKeys_eq_nil_iff]
      exact List.cons_ne_nil _ _
    rw [List.cons_append, remainderAfter_cons hpos, renderKeys_cons, List.length_append,
      Nat.add_sub_cancel_left, ih]

/-- A key in writing is read as that key. -/
theorem parseKeys_render {k : Key} (hk : k.Canonical) : parseKeys k.render = .ok [k] := by
  have hread := parseKeysFrom_render hk [] nofun 0
  rw [List.append_nil] at hread
  rw [parseKeys, if_neg (by simpa using k.render_ne_nil), hread, parseKeysFrom]
  rfl

/-- Without its last bracket the key of the closing bracket with modifiers is not read. -/
theorem exists_parseKeys_eq_error {mods : Mods} (hmods : mods ≠ .none) :
    ∃ e, parseKeys ('<' :: (mods.render ++ ['>'])) = .error e := by
  obtain ⟨name, herror⟩ := Mods.readGroup_render hmods
  have hgroup : splitGroup? (mods.render ++ ['>']) = some (mods.render, []) :=
    splitGroup?_of_free (mods.not_mem_render (.inr rfl)) (by simp)
  refine ⟨.unknownKey name, ?_⟩
  rw [parseKeys, if_neg (by simp), parseKeysFrom_of_group hgroup (Mods.render_ne_nil hmods), herror]
  rfl

/-- One more key behind the fixed ones is captured if it can be. -/
theorem parse_append_cons (hfixed : ∀ k ∈ fixed, k.Canonical) {k : Key} {rest : List Key}
    (hk : k.Canonical) (hrest : ∀ k ∈ rest, k.Canonical) :
    (after fixed var).parse (fixed ++ k :: rest) =
      if k.IsCapturable then .full (some (var, k)) rest else .none := by
  have hkeys : ∀ l ∈ fixed ++ k :: rest, l.Canonical :=
    List.forall_mem_append.2 ⟨hfixed, List.forall_mem_cons.2 ⟨hk, hrest⟩⟩
  have hbeginning : (beginningOf fixed).matchesIn (renderKeys (fixed ++ k :: rest)) = false := by
    refine Bool.eq_false_iff.2 fun hmatches => ?_
    have hle := ((matchesIn_beginningOf_iff hfixed (by simp) hkeys).1 hmatches).length_le
    rw [List.length_append, List.length_cons] at hle
    omega
  obtain ⟨before, hcapture⟩ := captured_after_append fixed var (k.render ++ renderKeys rest)
  rw [← renderKeys_cons, ← renderKeys_append] at hcapture
  have hvar : (after fixed var).var = var := rfl
  have hbeginnings : (after fixed var).beginning = beginningOf fixed := rfl
  simp only [parse, hcapture, hvar, hbeginnings, hbeginning]
  by_cases hcapturable : k.IsCapturable
  · have hleft : fixed ++ k :: rest = (fixed ++ [k]) ++ rest := by simp
    have hlength : (renderKeys fixed).length + k.render.length =
        (renderKeys (fixed ++ [k])).length := by simp [renderKeys_append]
    rw [if_pos hcapturable, renderKeys_cons, Expr.capture?_render hk hcapturable]
    simp only [parseKeys_render hk]
    rw [hleft, hlength, remainderAfter_append]
  · rw [if_neg hcapturable]
    cases k with
    | char c =>
      obtain rfl : c = '\n' := Classical.not_not.1 hcapturable
      have hrender : renderKeys (.char '\n' :: rest) = '\n' :: renderKeys rest := rfl
      simp only [hrender, Expr.capture?_lineFeed]
      rfl
    | named => exact absurd trivial hcapturable
    | chord base mods =>
      obtain rfl : base = .char '>' := Classical.not_not.1 hcapturable
      obtain ⟨e, herror⟩ := exists_parseKeys_eq_error hk.2
      have hrender : renderKeys (.chord (.char '>') mods :: rest) =
          '<' :: (mods.render ++ '>' :: '>' :: renderKeys rest) := by
        simp [Key.render, Key.body]
      simp only [hrender, Expr.capture?_heldBracket hk.2, herror]

/-- **A placeholder reads canonical keys key by key.** -/
theorem parse_after (var : List Char) (hfixed : ∀ k ∈ fixed, k.Canonical)
    (hkeys : ∀ k ∈ keys, k.Canonical) :
    (Pattern.placeholder (after fixed var)).parse keys = Pattern.parseAfter var fixed keys := by
  cases keys with
  | nil => cases fixed <;> rfl
  | cons k₀ keys₀ =>
    rw [Pattern.parse]
    generalize hall : k₀ :: keys₀ = keys at hkeys ⊢
    have hne : keys ≠ [] := hall ▸ List.cons_ne_nil _ _
    have hbeginning : (after fixed var).beginning = beginningOf fixed := rfl
    have hmatches := matchesIn_beginningOf_iff hfixed hne hkeys
    by_cases hfront : fixed <+: keys
    · obtain ⟨rest, rfl⟩ := hfront
      rw [Pattern.parseAfter_append]
      obtain ⟨-, hrest⟩ := List.forall_mem_append.1 hkeys
      cases rest with
      | nil =>
        obtain ⟨before, hcapture⟩ := captured_after_append fixed var []
        rw [Expr.capture?_nil] at hcapture
        rw [List.append_nil] at hcapture hmatches
        simp only [parse, List.append_nil, hcapture, hbeginning, hmatches.2 (List.prefix_refl _)]
        rfl
      | cons k rest =>
        obtain ⟨hk, hrest⟩ := List.forall_mem_cons.1 hrest
        exact parse_append_cons hfixed hk hrest
    · have hwritten : ¬ renderKeys fixed <+: renderKeys keys := by
        rintro ⟨t, ht⟩
        obtain ⟨rest, hrest, -⟩ := exists_of_renderKeys_eq_append hfixed hkeys ht.symm
        exact hfront ⟨rest, hrest.symm⟩
      have hbehind (k : Key) (rest : List Key) (h : keys = fixed ++ k :: rest) :
          ¬ k.IsCapturable := absurd ⟨k :: rest, h.symm⟩ hfront
      simp only [parse, matchStart?_of_not_prefix hwritten, Option.bind_none, hbeginning, hmatches]
      split_ifs with hbegins
      · exact (Pattern.parseAfter_eq_partly_iff.2 hbegins).symm
      · exact (Pattern.parseAfter_eq_none hbegins hbehind).symm

/-- Of two characters the second one is captured, unless it is a line feed. -/
theorem parse_after_chars (var : List Char) (lead c : Char) :
    (Pattern.placeholder (after [.char lead] var)).parse [.char lead, .char c] =
      if c ≠ '\n' then .full (some (var, .char c)) [] else .none := by
  have hcanonical (c : Char) : (Key.char c).Canonical := trivial
  have hparse := parse_after var (List.forall_mem_singleton.2 (hcanonical lead))
    (List.forall_mem_cons.2 ⟨hcanonical lead, List.forall_mem_singleton.2 (hcanonical c)⟩)
  refine hparse.trans ?_
  simp only [Pattern.parseAfter, ↓reduceIte, Key.IsCapturable]
  rfl

/-- The pattern of a plain character and one more key waits for that character and behind it,
whatever the keys. -/
theorem parse_after_eq_partly {c : Char} (hc : IsPlain c)
    (h : (Pattern.placeholder (after [.char c] var)).parse keys = .partly) :
    keys = [] ∨ keys = [.char c] := by
  cases keys with
  | nil => exact .inl rfl
  | cons k keys =>
    have hmatches : (beginningOf [.char c]).matchesIn (renderKeys (k :: keys)) = true := by
      rw [Pattern.parse, parse] at h
      split at h
      · split at h <;> cases h
      · split at h
        · assumption
        · cases h
    rcases matchesIn_beginningOf.1 hmatches with ⟨hnil, -⟩ | ⟨n, -, hwritten⟩
    · cases hnil
    · rw [List.take_succ_cons, List.take_nil, renderKeys_char hc, renderKeys_cons] at hwritten
      have hhead : k.render.head? = some c := by
        rw [← List.head?_append_of_ne_nil _ k.render_ne_nil, hwritten]
        rfl
      obtain rfl := Key.eq_char_of_head?_render hc hhead
      rw [Key.render_of_isPlain hc] at hwritten
      have hkeys := renderKeys_eq_nil_iff.1 (List.append_cancel_left (hwritten.trans
        (List.append_nil [c]).symm))
      exact .inr (by rw [hkeys])

/-! ### What a placeholder takes -/

/-- The pattern is given for a proper name, and read from its text for any other. -/
theorem ofScript_of_lead {lead : List Char}
    (hlead : lead = [] ∧ fixed = [] ∨ parseKeys lead = .ok fixed) (var : List Char) :
    ofScript lead var =
      if isGroupName var then .ok (after fixed var)
      else
        match readExpr? (sourceOf fixed var) with
        | some e => ofExprs (sourceOf fixed var) e (beginningOf fixed)
        | none => .error .expression := by
  rcases hlead with ⟨rfl, rfl⟩ | hread
  · rfl
  · have hne : lead.isEmpty = false := by
      rw [List.isEmpty_eq_false_iff]
      rintro rfl
      cases hread
    simp only [ofScript, hne, hread]
    rfl

/-- Only fixed keys that are spelled right give a pattern. -/
theorem exists_fixed_of_ofScript {lead var : List Char} {p : Placeholder}
    (h : ofScript lead var = .ok p) :
    ∃ fixed, lead = [] ∧ fixed = [] ∨ parseKeys lead = .ok fixed := by
  by_cases hlead : lead = []
  · exact ⟨[], .inl ⟨hlead, rfl⟩⟩
  · cases hread : parseKeys lead with
    | ok fixed => exact ⟨fixed, .inr rfl⟩
    | error e => simp [ofScript, hlead, hread, Except.mapError, bind, Except.bind] at h

/-- The pattern for fixed keys, which are none or those of a script, and a proper name. -/
theorem ofScript_eq {lead : List Char} (hlead : lead = [] ∧ fixed = [] ∨ parseKeys lead = .ok fixed)
    (hvar : isGroupName var = true) :
    ofScript lead var = .ok (after fixed var) ∧ ∀ k ∈ fixed, k.Canonical := by
  refine ⟨by rw [ofScript_of_lead hlead, if_pos hvar], ?_⟩
  rcases hlead with ⟨-, rfl⟩ | hread
  · exact List.forall_mem_nil _
  · exact (canonical_of_parseKeys hread).1

/-- The pattern finds a full match in keys that are the fixed ones, one more and some left over, the
beginning of one in keys that are the first of the fixed ones, and nothing in all others. -/
structure TakesOneBehind (p : Placeholder) (fixed : List Key) (var : List Char)
    (keys : List Key) : Prop where
  /-- The full matches. -/
  full_iff : ∀ captured rest, (Pattern.placeholder p).parse keys = .full captured rest ↔
    ∃ k, captured = some (var, k) ∧ keys = fixed ++ k :: rest
  /-- The beginnings. -/
  partly_iff : (Pattern.placeholder p).parse keys = .partly ↔ keys <+: fixed
  /-- All others. -/
  none_iff : (Pattern.placeholder p).parse keys = .none ↔
    ¬ keys <+: fixed ∧ ∀ k rest, keys ≠ fixed ++ k :: rest

/-- The pattern takes one key behind the fixed ones unless this key cannot be captured. -/
theorem takesOneBehind_after_iff (hfixed : ∀ k ∈ fixed, k.Canonical)
    (hkeys : ∀ k ∈ keys, k.Canonical) :
    (after fixed var).TakesOneBehind fixed var keys ↔
      ∀ k rest, keys = fixed ++ k :: rest → k.IsCapturable := by
  have hparse := parse_after var hfixed hkeys
  constructor
  · intro htakes k rest hk
    have hfull := (htakes.full_iff (some (var, k)) rest).2 ⟨k, rfl, hk⟩
    obtain ⟨k', hcaptured, -, hk'⟩ := Pattern.parseAfter_eq_full_iff.1 (hparse ▸ hfull)
    cases hcaptured
    exact hk'
  · intro hcapturable
    refine ⟨fun captured rest => ?_, hparse ▸ Pattern.parseAfter_eq_partly_iff, fun h => ?_, ?_⟩
    · rw [hparse, Pattern.parseAfter_eq_full_iff]
      refine exists_congr fun k => and_congr_right fun _ => ?_
      exact and_iff_left_of_imp (hcapturable k rest)
    · rw [hparse] at h
      refine ⟨fun hfront => ?_, fun k rest hk => ?_⟩
      · rw [Pattern.parseAfter_eq_partly_iff.2 hfront] at h
        cases h
      · rw [Pattern.parseAfter_eq_full_iff.2 ⟨k, rfl, hk, hcapturable k rest hk⟩] at h
        cases h
    · rintro ⟨hfront, hbehind⟩
      rw [hparse]
      exact Pattern.parseAfter_eq_none hfront fun k rest hk => absurd hk (hbehind k rest)

/-- **A placeholder takes one key behind the fixed ones**, whatever the keys, unless this key cannot
be captured: then it finds nothing. -/
theorem takesOneBehind_iff {lead : List Char}
    (hlead : lead = [] ∧ fixed = [] ∨ parseKeys lead = .ok fixed) (hvar : isGroupName var = true) :
    ∃ p, ofScript lead var = .ok p ∧ ∀ keys, (∀ k ∈ keys, k.Canonical) →
      (p.TakesOneBehind fixed var keys ↔
        ∀ k rest, keys = fixed ++ k :: rest → k.IsCapturable) ∧
      ∀ k rest, keys = fixed ++ k :: rest → ¬ k.IsCapturable →
        (Pattern.placeholder p).parse keys = .none := by
  obtain ⟨hp, hfixed⟩ := ofScript_eq hlead hvar
  refine ⟨_, hp, fun keys hkeys => ⟨takesOneBehind_after_iff hfixed hkeys, ?_⟩⟩
  rintro k rest rfl hcapturable
  rw [parse_after var hfixed hkeys, Pattern.parseAfter_append, Pattern.parseAfter,
    if_neg hcapturable]

/-- Behind two fixed keys the key of enter is captured. -/
theorem takesOneBehind_enter :
    let fixed : List Key := [.char 'g', .chord (.char 'k') { ctrl := true }]
    let keys : List Key := fixed ++ [.named .enter, .char 'j']
    ∃ p, ofScript "g<C-k>".toList "char".toList = .ok p ∧
      p.TakesOneBehind fixed "char".toList keys ∧
      (Pattern.placeholder p).parse keys =
        .full (some ("char".toList, .named .enter)) [.char 'j'] := by
  intro fixed keys
  have hread : parseKeys "g<C-k>".toList = .ok fixed := by decide +kernel
  have hvar : isGroupName "char".toList = true := by decide
  obtain ⟨p, hp, htakes⟩ := takesOneBehind_iff (.inr hread) hvar
  have hone : p.TakesOneBehind fixed "char".toList keys := by
    refine (htakes keys (by decide)).1.2 fun k rest h => ?_
    cases List.append_cancel_left h
    trivial
  exact ⟨p, hp, hone, (hone.full_iff _ _).2 ⟨_, rfl, rfl⟩⟩

/-- A line feed and the key of the closing bracket with a modifier are nothing behind the fixed
key. -/
theorem not_takesOneBehind :
    ∃ p, ofScript "f".toList "char".toList = .ok p ∧
      ∀ k : Key, k = .char '\n' ∨ k = .chord (.char '>') { ctrl := true } →
        k.Canonical ∧ (Pattern.placeholder p).parse [.char 'f', k] = .none ∧
        ¬ p.TakesOneBehind [.char 'f'] "char".toList [.char 'f', k] := by
  have hread : parseKeys "f".toList = .ok [.char 'f'] := by decide +kernel
  have hvar : isGroupName "char".toList = true := by decide
  obtain ⟨hp, hfixed⟩ := ofScript_eq (.inr hread) hvar
  refine ⟨_, hp, fun k hk => ?_⟩
  have hcanonical : k.Canonical := by rcases hk with rfl | rfl <;> decide
  have hnone : (Pattern.placeholder (after [.char 'f'] "char".toList)).parse [.char 'f', k] =
      .none := by
    have hkeys : ∀ l ∈ [.char 'f', k], l.Canonical :=
      List.forall_mem_cons.2 ⟨trivial, List.forall_mem_singleton.2 hcanonical⟩
    rw [parse_after _ hfixed hkeys]
    rcases hk with rfl | rfl <;> rfl
  refine ⟨hcanonical, hnone, fun htakes => ?_⟩
  rw [(htakes.full_iff (some ("char".toList, k)) []).2 ⟨k, rfl, rfl⟩] at hnone
  cases hnone

end Placeholder

/-! ### More keys -/

namespace Pattern

variable {p : Pattern} {var : List Char} {fixed keys more : List Key}

/-- The pattern of the keys of a script, or one for the keys of a script and one more that is
captured under a proper name. -/
inductive IsBuilt : Pattern → Prop
  /-- The keys of a script. -/
  | keys {script : List Char} {p : Pattern} (h : ofScript script = .ok p) : IsBuilt p
  /-- The keys of a script, or none, and one more. -/
  | placeholder {lead var : List Char} {p : Placeholder} (hvar : isGroupName var = true)
    (h : Placeholder.ofScript lead var = .ok p) : IsBuilt (.placeholder p)

theorem exists_of_ofScript {script : List Char} (h : ofScript script = .ok p) :
    ∃ ks, p = literal ks := by
  unfold ofScript at h
  cases hread : parseKeys script with
  | ok ks =>
    rw [hread] at h
    cases h
    exact ⟨ks, rfl⟩
  | error e =>
    rw [hread] at h
    cases h

theorem exists_of_placeholder_ofScript {lead : List Char} {p : Placeholder}
    (hvar : isGroupName var = true) (h : Placeholder.ofScript lead var = .ok p) :
    ∃ fixed, p = .after fixed var ∧ ∀ k ∈ fixed, k.Canonical := by
  obtain ⟨fixed, hlead⟩ := Placeholder.exists_fixed_of_ofScript h
  obtain ⟨hp, hfixed⟩ := Placeholder.ofScript_eq hlead hvar
  rw [hp] at h
  cases h
  exact ⟨fixed, rfl, hfixed⟩

/-- What fixed keys have found stays found. -/
theorem parseLiteral_more {captured : Option (List Char × Key)} {rest : List Key}
    (h : parseLiteral fixed keys = .full captured rest) :
    parseLiteral fixed (keys ++ more) = .full captured (rest ++ more) := by
  obtain rfl := parseLiteral_eq_full h
  rw [parseLiteral_append] at h
  cases h
  rw [List.append_assoc, parseLiteral_append]

theorem parseLiteral_more_of_none (h : parseLiteral fixed keys = .none) :
    parseLiteral fixed (keys ++ more) = .none := by
  fun_induction parseLiteral fixed keys with
  | case1 => cases h
  | case2 => cases h
  | case3 k ks ls ih => simpa [parseLiteral] using ih h
  | case4 k ks l ls hne => simp [parseLiteral, hne]

/-- What has been found key by key stays found. -/
theorem parseAfter_more {captured : Option (List Char × Key)} {rest : List Key}
    (h : parseAfter var fixed keys = .full captured rest) :
    parseAfter var fixed (keys ++ more) = .full captured (rest ++ more) := by
  obtain ⟨k, hcaptured, rfl, hk⟩ := parseAfter_eq_full_iff.1 h
  exact parseAfter_eq_full_iff.2 ⟨k, hcaptured, by simp, hk⟩

theorem parseAfter_more_of_none (h : parseAfter var fixed keys = .none) :
    parseAfter var fixed (keys ++ more) = .none := by
  fun_induction parseAfter var fixed keys with
  | case1 => cases h
  | case2 => cases h
  | case3 => cases h
  | case4 k ks hk => simp [parseAfter, hk]
  | case5 l ls ks ih => simpa [parseAfter] using ih h
  | case6 l ls k ks hne => simp [parseAfter, hne]

/-- **More keys do not change what has been found.** A full match stays one, with the same key
captured and the new keys left over, and nothing stays nothing. -/
theorem IsBuilt.parse_append (hp : p.IsBuilt) (hkeys : ∀ k ∈ keys, k.Canonical)
    (hmore : ∀ k ∈ more, k.Canonical) :
    (∀ captured rest, p.parse keys = .full captured rest →
      p.parse (keys ++ more) = .full captured (rest ++ more)) ∧
      (p.parse keys = .none → p.parse (keys ++ more) = .none) := by
  cases hp with
  | keys h =>
    obtain ⟨ks, rfl⟩ := exists_of_ofScript h
    exact ⟨fun _ _ => parseLiteral_more, parseLiteral_more_of_none⟩
  | placeholder hvar h =>
    obtain ⟨fixed, rfl, hfixed⟩ := exists_of_placeholder_ofScript hvar h
    rw [Placeholder.parse_after _ hfixed hkeys,
      Placeholder.parse_after _ hfixed (List.forall_mem_append.2 ⟨hkeys, hmore⟩)]
    exact ⟨fun _ _ => parseAfter_more, parseAfter_more_of_none⟩

/-- A bracket that has been captured is not read together with the keys that follow. -/
theorem parse_append_bracket :
    ∃ p, Placeholder.ofScript "f".toList "char".toList = .ok p ∧
      (placeholder p).parse [.char 'f', .char '<'] =
        .full (some ("char".toList, .char '<')) [] ∧
      (placeholder p).parse ([.char 'f', .char '<'] ++ [.char 'a', .char '>']) =
        .full (some ("char".toList, .char '<')) ([] ++ [.char 'a', .char '>']) := by
  have hread : parseKeys "f".toList = .ok [.char 'f'] := by decide +kernel
  have hvar : isGroupName "char".toList = true := by decide
  obtain ⟨hp, hfixed⟩ := Placeholder.ofScript_eq (.inr hread) hvar
  have hfull : (placeholder (.after [.char 'f'] "char".toList)).parse [.char 'f', .char '<'] =
      .full (some ("char".toList, .char '<')) [] := Placeholder.parse_after _ hfixed (by decide)
  exact ⟨_, hp, hfull, ((IsBuilt.placeholder hvar hp).parse_append (by decide)
    (by decide)).1 _ _ hfull⟩

/-- A name that goes on as an expression makes the pattern prefer two keys to one, so that a full
match is lost when the second key comes. -/
theorem not_parse_append :
    ∃ p, Placeholder.ofScript "f".toList "n>ab|".toList = .ok p ∧
      (placeholder p).parse [.char 'f', .char 'a'] = .full (some ("n".toList, .char 'a')) [] ∧
      (placeholder p).parse ([.char 'f', .char 'a'] ++ [.char 'b']) = .none := by
  have hread : (match Placeholder.ofScript "f".toList "n>ab|".toList with
      | .ok p => decide (
        (placeholder p).parse [.char 'f', .char 'a'] = .full (some ("n".toList, .char 'a')) [] ∧
          (placeholder p).parse ([.char 'f', .char 'a'] ++ [.char 'b']) = .none)
      | .error _ => false) = true := by decide +kernel
  split at hread
  · exact ⟨_, ‹_›, of_decide_eq_true hread⟩
  · cases hread

end Pattern

end ModalEdit
