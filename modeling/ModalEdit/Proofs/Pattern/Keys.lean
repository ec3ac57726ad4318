import ModalEdit.Pattern.Basic

/-!
# The keys that a pattern matches

A pattern of fixed keys matches these keys. A pattern that asks for one more key behind the key of a
character matches this key and any other, whatever is behind them
(`Placeholder.parse_after_append`); keys that begin otherwise are nothing to it
(`Placeholder.parse_after_of_ne`).

The second fact needs the expression for one key in writing to stop at the end of that key: a group
in angle brackets ends with its first closing bracket (`done_le_of_mem_run_keyExpr`). It also needs
the expression to find the same whatever is written behind the key (`Expr.run_keyExpr_append`).
-/

namespace ModalEdit

/-- The pattern does not match in full when the keys begin with `k`. -/
def Pattern.Spares (k : Key) (p : Pattern) : Prop := ∀ keys, (p.parse (k :: keys)).isFull = false

theorem Pattern.spares_literal {k k' : Key} {ks : List Key} (h : k' ≠ k) :
    (Pattern.literal (k' :: ks)).Spares k := by
  intro keys
  simp [parse, parseLiteral, h, Match.isFull]

/-- Fixed keys match themselves and leave what is behind them. -/
theorem Pattern.parseLiteral_eq_full {ks keys rest : List Key} {captured : Option (List Char × Key)}
    (h : parseLiteral ks keys = .full captured rest) : keys = ks ++ rest := by
  fun_induction parseLiteral ks keys with
  | case1 keys =>
    cases h
    rfl
  | case2 => cases h
  | case3 k ks ls ih => rw [ih h, List.cons_append]
  | case4 => cases h

/-- The key of a character is all that its pattern asks for. -/
@[simp] theorem Pattern.parse_ofChar (c : Char) (rest : List Key) :
    (ofChar c).parse (.char c :: rest) = .full none rest := by
  simp only [ofChar, parse, parseLiteral, ↓reduceIte]

/-! ### Keys in writing -/

/-- A character that stands for itself in writing. -/
def IsPlain (c : Char) : Prop := c ≠ '<' ∧ c ≠ ' '

instance (c : Char) : Decidable (IsPlain c) := inferInstanceAs (Decidable (_ ∧ _))

theorem Key.render_of_isPlain {c : Char} (hc : IsPlain c) : (Key.char c).render = [c] := by
  simp [render, hc.1, hc.2]

/-- A key is written as one character or in angle brackets. -/
theorem Key.render_cases (k : Key) :
    (∃ c, k = .char c ∧ IsPlain c ∧ k.render = [c]) ∨
      ∃ body, k.render = '<' :: body ++ ['>'] := by
  cases k with
  | char c =>
    by_cases hc : c = '<' ∨ c = ' '
    · exact .inr ⟨_, by rw [render, if_pos hc]⟩
    · have hplain : IsPlain c := not_or.1 hc
      exact .inl ⟨c, rfl, hplain, render_of_isPlain hplain⟩
  | named k => exact .inr ⟨_, rfl⟩
  | chord base mods => exact .inr ⟨_, rfl⟩

/-- Only the key of a plain character is written with that character in front. -/
theorem Key.eq_char_of_head?_render {k : Key} {c : Char} (hc : IsPlain c)
    (h : k.render.head? = some c) : k = .char c := by
  rcases k.render_cases with ⟨c', rfl, -, hrender⟩ | ⟨body, hrender⟩
  · rw [hrender] at h
    cases h
    rfl
  · rw [hrender] at h
    cases h
    exact absurd rfl hc.1

/-! ### The expression for one key -/

theorem CharSet.has_one (c x : Char) : (CharSet.one c).has x = decide (x = c) := by
  rw [one, has, Bool.eq_iff_iff]
  simp only [Bool.and_eq_true, decide_eq_true_eq]
  exact ⟨fun h => Char.le_antisymm h.2 h.1, fun h => h ▸ ⟨Char.le_refl _, Char.le_refl _⟩⟩

namespace Expr

variable {s s' : Place}

/-- One character of a set moves one character on. -/
theorem exists_of_mem_run_one {set : CharSet} (h : s' ∈ run (.one set) s) :
    ∃ c, s.rest = c :: s'.rest ∧ set.has c = true ∧ s'.done = s.done + 1 := by
  rw [run] at h
  cases hrest : s.rest with
  | nil => simp [hrest] at h
  | cons c cs =>
    by_cases hc : set.has c = true
    · simp only [hrest, hc, ↓reduceIte, List.mem_singleton] at h
      subst h
      exact ⟨c, rfl, hc, rfl⟩
    · simp [hrest, hc] at h

/-- Repeating one character of a set passes over characters of the set. -/
theorem exists_of_mem_onceOrMore {set : CharSet} {fuel : Nat} {greedy : Bool}
    (h : s' ∈ onceOrMore (run (.one set)) greedy fuel s) :
    ∃ x, s.rest = x ++ s'.rest ∧ s'.done = s.done + x.length ∧ ∀ c ∈ x, set.has c = true := by
  induction fuel generalizing s with
  | zero => cases h
  | succ fuel ih =>
    rw [onceOrMore] at h
    obtain ⟨s₁, hs₁, hmem⟩ := List.mem_flatMap.1 h
    obtain ⟨c, hrest, hc, hdone₁⟩ := exists_of_mem_run_one hs₁
    rw [if_neg (by omega)] at hmem
    have hcases : s' = s₁ ∨ s' ∈ onceOrMore (run (.one set)) greedy fuel s₁ := by
      unfold prefer at hmem
      split at hmem
      · simpa [or_comm] using hmem
      · simpa using hmem
    rcases hcases with rfl | hmem
    · exact ⟨[c], hrest, hdone₁, by simpa using hc⟩
    · obtain ⟨x, hx, hdone, hall⟩ := ih hmem
      refine ⟨c :: x, ?_, ?_, List.forall_mem_cons.2 ⟨hc, hall⟩⟩
      · rw [hrest, hx, List.cons_append]
      · rw [hdone, hdone₁, List.length_cons]
        omega

end Expr

/-- A group in angle brackets ends with its first closing bracket. -/
theorem length_le_of_append_eq {x body rest rest' : List Char} (hx : '>' ∉ x)
    (h : body ++ '>' :: rest = x ++ '>' :: rest') : x.length ≤ body.length := by
  refine Nat.le_of_not_lt fun hlt => ?_
  have hget := congrArg (·[body.length]?) h
  rw [List.getElem?_append_right (Nat.le_refl _), Nat.sub_self, List.getElem?_cons_zero,
    List.getElem?_append_left (by omega)] at hget
  exact hx (List.mem_of_getElem? hget.symm)

/-- The expression for one key moves on, and not past the key in front. -/
theorem done_le_of_mem_run_keyExpr {s s' : Place} {k : Key} {rest : List Char}
    (hs : s.rest = k.render ++ rest) (h : s' ∈ Expr.run keyExpr s) :
    s.done < s'.done ∧ s'.done ≤ s.done + k.render.length := by
  have hpos : 0 < k.render.length := by
    rcases k.render_cases with ⟨c, -, -, hrender⟩ | ⟨body, hrender⟩ <;> simp [hrender]
  rw [keyExpr, Expr.run, List.mem_append] at h
  rcases h with hgroup | hdot
  · simp only [Expr.run, Expr.repeated, Expr.times, List.flatMap_cons, List.flatMap_nil,
      List.append_nil, List.mem_flatMap] at hgroup
    obtain ⟨s₁, hs₁, s₂, hs₂, hs'⟩ := hgroup
    obtain ⟨c, hopen, hc, hdone₁⟩ := Expr.exists_of_mem_run_one hs₁
    obtain ⟨x, hx, hdone₂, hall⟩ := Expr.exists_of_mem_onceOrMore hs₂
    obtain ⟨c', hclose, hc', hdone'⟩ := Expr.exists_of_mem_run_one hs'
    obtain rfl : c = '<' := by simpa [CharSet.has_one] using hc
    obtain rfl : c' = '>' := by simpa [CharSet.has_one] using hc'
    have hfree : '>' ∉ x := by
      intro hmem
      have := hall _ hmem
      simp [CharSet.has, CharSet.hasAny, CharSet.has_one] at this
    rcases k.render_cases with ⟨c, -, hplain, hrender⟩ | ⟨body, hrender⟩
    · rw [hrender, hopen] at hs
      cases hs
      exact absurd rfl hplain.1
    · rw [hrender, hopen, hx, hclose] at hs
      have hsplit : body ++ '>' :: rest = x ++ '>' :: s'.rest := by simpa using hs.symm
      have hle := length_le_of_append_eq hfree hsplit
      simp only [hrender, List.length_append, List.length_cons]
      omega
  · obtain ⟨c, -, -, hdone⟩ := Expr.exists_of_mem_run_one hdot
    omega

/-- The place with more text behind it. -/
def Place.extend (t : List Char) (s : Place) : Place := { s with rest := s.rest ++ t }

namespace Expr

variable {s : Place} {t : List Char}

theorem run_one_cons (set : CharSet) (done : Nat) (before : Option Char) (c : Char)
    (cs : List Char) (captured : Option (List Char)) :
    run (.one set) ⟨done, before, c :: cs, captured⟩ =
      if set.has c then [⟨done + 1, some c, cs, captured⟩] else [] := rfl

/-- A fixed character takes itself. -/
theorem run_char_self (done : Nat) (before : Option Char) (c : Char) (cs : List Char)
    (captured : Option (List Char)) :
    run (char c) ⟨done, before, c :: cs, captured⟩ = [⟨done + 1, some c, cs, captured⟩] := by
  rw [char, run_one_cons, if_pos (by simp [CharSet.has_one])]

/-- A fixed character takes no other one. -/
theorem run_char_of_ne {c x : Char} (h : x ≠ c) (done : Nat) (before : Option Char)
    (cs : List Char) (captured : Option (List Char)) :
    run (char c) ⟨done, before, x :: cs, captured⟩ = [] := by
  rw [char, run_one_cons, if_neg (by simp [CharSet.has_one, h])]

/-- Before a character it makes no difference what is behind it. -/
theorem run_one_extend (set : CharSet) (h : s.rest ≠ []) :
    run (.one set) (s.extend t) = (run (.one set) s).map (Place.extend t) := by
  obtain ⟨done, before, rest, captured⟩ := s
  cases rest with
  | nil => exact absurd rfl h
  | cons c cs =>
    simp only [Place.extend, List.cons_append, run_one_cons]
    split <;> rfl

/-- Repeating one character of a set up to a given one makes no difference to what is behind a
character that is not in the set. -/
theorem onceOrMore_extend {set : CharSet} (stop : Char) (h : ∃ c ∈ s.rest, set.has c = false)
    {fuel fuel' : Nat} (hfuel : s.rest.length < fuel) (hfuel' : s.rest.length < fuel') :
    (onceOrMore (run (.one set)) true fuel (s.extend t)).flatMap (run (char stop)) =
      ((onceOrMore (run (.one set)) true fuel' s).flatMap (run (char stop))).map
        (Place.extend t) := by
  obtain ⟨done, before, rest, captured⟩ := s
  induction rest generalizing done before fuel fuel' with
  | nil => simp at h
  | cons c cs ih =>
    obtain ⟨fuel, rfl⟩ := Nat.exists_eq_succ_of_ne_zero (Nat.ne_of_gt (Nat.zero_lt_of_lt hfuel))
    obtain ⟨fuel', rfl⟩ := Nat.exists_eq_succ_of_ne_zero (Nat.ne_of_gt (Nat.zero_lt_of_lt hfuel'))
    simp only [onceOrMore, Place.extend, List.cons_append, run_one_cons]
    by_cases hc : set.has c = true
    · have hcs : ∃ c ∈ cs, set.has c = false := by
        obtain ⟨b, hb, hbset⟩ := h
        rcases List.mem_cons.1 hb with rfl | hb
        · rw [hc] at hbset
          cases hbset
        · exact ⟨b, hb, hbset⟩
      have hne : cs ≠ [] := fun hnil => by simp [hnil] at hcs
      have hrest := ih (done + 1) (some c) hcs (Nat.lt_of_succ_lt_succ hfuel)
        (Nat.lt_of_succ_lt_succ hfuel')
      have hnext := run_one_extend (s := ⟨done + 1, some c, cs, captured⟩) (t := t) (.one stop) hne
      simp only [Place.extend] at hrest hnext
      simp only [hc, ↓reduceIte, List.flatMap_cons, List.flatMap_nil, List.append_nil,
        Nat.succ_ne_self, prefer, List.flatMap_append, List.map_append]
      rw [hrest]
      exact congrArg (_ ++ ·) hnext
    · simp [hc]

/-- The characters inside angle brackets. -/
def inBrackets : CharSet := .not (.any [.one '<', .one '>'])

/-- A key is in angle brackets or a single character. -/
theorem run_keyExpr (s : Place) :
    run keyExpr s = ((run (char '<') s).flatMap fun s' =>
      (onceOrMore (run (.one inBrackets)) true (s'.rest.length + 1) s').flatMap
        (run (char '>'))) ++ run dot s := by
  change (run (char '<') s).flatMap (fun s' => ([s'].flatMap fun s' =>
    onceOrMore (run (.one inBrackets)) true (s'.rest.length + 1) s').flatMap (run (char '>'))) ++
      run dot s = _
  simp only [List.flatMap_cons, List.flatMap_nil, List.append_nil]

/-- **The expression for one key finds the same in the writing of a key**, whatever is written
behind it. -/
theorem run_keyExpr_append (done : Nat) (before : Option Char) (k : Key) (t : List Char) :
    run keyExpr ⟨done, before, k.render ++ t, none⟩ =
      (run keyExpr ⟨done, before, k.render, none⟩).map (Place.extend t) := by
  rw [run_keyExpr, run_keyExpr, List.map_append]
  rcases k.render_cases with ⟨c, -, hplain, hrender⟩ | ⟨body, hrender⟩
  · -- A plain character is no angle bracket.
    rw [hrender, List.singleton_append, run_char_of_ne hplain.1, run_char_of_ne hplain.1]
    exact run_one_extend (s := ⟨done, before, [c], none⟩) _ (List.cons_ne_nil _ _)
  · have hclose : ∃ c ∈ body ++ ['>'], inBrackets.has c = false := ⟨'>', by simp, by decide⟩
    simp only [hrender, List.cons_append, run_char_self, List.flatMap_cons, List.flatMap_nil,
      List.append_nil]
    have hlength : (body ++ ['>']).length < (body ++ ['>'] ++ t).length + 1 := by
      simp only [List.length_append]
      omega
    have hgroup := onceOrMore_extend (s := ⟨done + 1, some '<', body ++ ['>'], none⟩) (t := t) '>'
      hclose hlength (Nat.lt_succ_self _)
    have hdot := run_one_extend (s := ⟨done, before, '<' :: (body ++ ['>']), none⟩) (t := t)
      (.not (.one '\n')) (List.cons_ne_nil _ _)
    simp only [Place.extend] at hgroup
    rw [hgroup]
    exact congrArg (_ ++ ·) hdot

end Expr

/-! ### The key of a character and one more -/

namespace Placeholder

variable {c : Char} {var : List Char}

theorem renderKeys_char (hc : IsPlain c) : renderKeys [.char c] = [c] := by
  rw [renderKeys_cons, renderKeys_nil, List.append_nil, Key.render_of_isPlain hc]

/-- The place behind the key of a plain character. -/
theorem matchStart?_after (hc : IsPlain c) (x : Char) (t : List Char) :
    (after [.char c] var).full.matchStart? (x :: t) =
      if x = c then (Expr.run (.group 1 keyExpr) ⟨1, some c, t, none⟩).head? else none := by
  simp only [after, renderKeys_char hc, Expr.matchStart?, Expr.literal, List.foldr, Expr.char,
    Expr.atStart]
  by_cases hx : x = c
  · simp [Expr.run, Edge.holds, CharSet.has_one, hx]
  · simp [Expr.run, Edge.holds, CharSet.has_one, hx]

/-- A text that begins otherwise is not the beginning of a match. -/
theorem matchesIn_beginning_of_ne (hc : IsPlain c) {x : Char} (hx : x ≠ c) (t : List Char) :
    (after [.char c] var).beginning.matchesIn (x :: t) = false := by
  simp only [after, beginningOf, List.isEmpty_cons, Bool.false_eq_true, ↓reduceIte,
    List.length_singleton, List.range_one, List.map_cons, List.map_nil, List.take_succ_cons,
    List.take_zero, renderKeys_char hc, Expr.oneOf, Expr.matchesIn]
  refine List.any_eq_false.2 fun i _ => ?_
  -- The start of the text is only in front of its first character.
  cases i with
  | zero => simp [Expr.run, Expr.atStart, Expr.literal, Expr.char, Edge.holds, CharSet.has_one, hx]
  | succ i => simp [Expr.run, Expr.atStart, Edge.holds]

/-- **Keys that begin otherwise are nothing** to the pattern of a character and one more key. -/
theorem parse_after_of_ne (hc : IsPlain c) {k : Key} (hk : k ≠ .char c) (keys : List Key) :
    (Pattern.placeholder (after [.char c] var)).parse (k :: keys) = .none := by
  obtain ⟨x, t, hwritten⟩ : ∃ x t, k.render = x :: t := by
    rcases k.render_cases with ⟨c', -, -, h⟩ | ⟨body, h⟩
    · exact ⟨_, _, h⟩
    · exact ⟨_, _, h⟩
  have hx : x ≠ c := fun h => hk (Key.eq_char_of_head?_render hc (by rw [hwritten, h]; rfl))
  rw [Pattern.parse, parse, renderKeys_cons, hwritten, List.cons_append,
    matchStart?_after hc, if_neg hx, matchesIn_beginning_of_ne hc hx]
  rfl

theorem remainderAfter_zero (ks : List Key) : remainderAfter 0 ks = ks := by
  cases ks <;> rfl

theorem remainderAfter_cons {n : Nat} (hn : 0 < n) (k : Key) (ks : List Key) :
    remainderAfter n (k :: ks) = remainderAfter (n - k.render.length) ks := by
  obtain ⟨n, rfl⟩ := Nat.exists_eq_succ_of_ne_zero (Nat.ne_of_gt hn)
  rfl

/-- A match that ends with the key behind the character leaves what is behind that key. -/
theorem remainderAfter_pair (hc : IsPlain c) {k : Key} {n : Nat} (hlt : 1 < n)
    (hle : n ≤ 1 + k.render.length) (rest : List Key) :
    remainderAfter n (.char c :: k :: rest) = rest := by
  rw [remainderAfter_cons (by omega), Key.render_of_isPlain hc, List.length_singleton,
    remainderAfter_cons (by omega), Nat.sub_eq_zero_of_le (by omega), remainderAfter_zero]

theorem parse_after_self (hc : IsPlain c) (keys : List Key) :
    (Pattern.placeholder (after [.char c] var)).parse (.char c :: keys) =
      match ((Expr.run (.group 1 keyExpr) ⟨1, some c, renderKeys keys, none⟩).head?).bind
          fun s => s.captured.map (s.done, ·) with
      | some (done, group) =>
        match parseKeys group with
        | .ok [key] => .full (some (var, key)) (remainderAfter done (.char c :: keys))
        | _ => .none
      | none =>
        if (after [.char c] var).beginning.matchesIn (c :: renderKeys keys) then .partly
        else .none := by
  rw [Pattern.parse, parse, renderKeys_cons, Key.render_of_isPlain hc, List.singleton_append,
    matchStart?_after hc, if_pos rfl]
  rfl

/-- The key of the character alone is the beginning of a match. -/
theorem parse_after_singleton (hc : IsPlain c) :
    (Pattern.placeholder (after [.char c] var)).parse [.char c] = .partly := by
  have hnone : Expr.run keyExpr ⟨1, some c, [], none⟩ = [] := by
    simp [keyExpr, Expr.run, Expr.char, Expr.dot]
  have hbeginning : (after [.char c] var).beginning.matchesIn [c] = true := by
    simp [after, beginningOf, renderKeys_char hc, Expr.oneOf, Expr.matchesIn, Expr.run,
      Expr.atStart, Expr.atEnd, Expr.literal, Expr.char, Edge.holds, CharSet.has_one,
      List.range_succ]
  rw [parse_after_self hc, renderKeys_nil, Expr.run, hnone, hbeginning]
  rfl

/-- A full match takes the key of the character and one more. -/
theorem exists_of_isFull_parse_after (hc : IsPlain c) {keys : List Key}
    (h : ((Pattern.placeholder (after [.char c] var)).parse keys).isFull = true) :
    ∃ k rest, keys = .char c :: k :: rest := by
  match keys with
  | [] => cases h
  | k₀ :: keys =>
    obtain rfl : k₀ = .char c := by
      refine Classical.byContradiction fun hne => ?_
      rw [parse_after_of_ne hc hne] at h
      cases h
    match keys with
    | [] =>
      rw [parse_after_singleton hc] at h
      cases h
    | k :: rest => exact ⟨k, rest, rfl⟩

/-- The key of a character and one more match whatever is behind them. -/
theorem parse_after_append (hc : IsPlain c) {k : Key}
    {rest rest' : List Key} {captured : Option (List Char × Key)}
    (h : (Pattern.placeholder (after [.char c] var)).parse (.char c :: k :: rest) =
      .full captured rest') :
    rest' = rest ∧
      (Pattern.placeholder (after [.char c] var)).parse [.char c, k] = .full captured [] := by
  rw [parse_after_self hc, renderKeys_cons] at h
  rw [parse_after_self hc, renderKeys_cons, renderKeys_nil, List.append_nil]
  have hrun := Expr.run_keyExpr_append 1 (some c) k (renderKeys rest)
  simp only [Expr.run, List.head?_map, hrun] at h ⊢
  cases hhead : (Expr.run keyExpr ⟨1, some c, k.render, none⟩).head? with
  | none =>
    simp only [hhead, Option.map_none, Option.bind_none] at h
    split at h <;> cases h
  | some s =>
    obtain ⟨hlt, hle⟩ := done_le_of_mem_run_keyExpr (List.append_nil _).symm
      (List.mem_of_head? hhead)
    dsimp only at hlt hle
    have htake : (k.render ++ renderKeys rest).take (s.done - 1) = k.render.take (s.done - 1) :=
      List.take_append_of_le_length (Nat.sub_le_iff_le_add'.2 hle)
    simp only [hhead, Option.map_some, Option.bind_some, Place.extend, if_true, htake,
      remainderAfter_pair hc hlt hle] at h ⊢
    split at h
    · cases h
      exact ⟨rfl, rfl⟩
    · cases h

/-- **A full match with nothing left** is the key of the character and one more. -/
theorem keys_of_parse_after (hc : IsPlain c) {keys : List Key}
    {captured : Option (List Char × Key)}
    (h : (Pattern.placeholder (after [.char c] var)).parse keys = .full captured []) :
    ∃ k, keys = [.char c, k] := by
  obtain ⟨k, rest, rfl⟩ := exists_of_isFull_parse_after hc (by rw [h]; rfl)
  exact ⟨k, by rw [← (parse_after_append hc h).1]⟩

end Placeholder

/-- The keys of a pattern of a plain character and one more key begin with that character. -/
theorem Pattern.spares_after {c : Char} (hc : IsPlain c) {k : Key} (hk : k ≠ .char c)
    (var : List Char) : (Pattern.placeholder (.after [.char c] var)).Spares k := by
  intro keys
  rw [Placeholder.parse_after_of_ne hc hk]
  rfl

end ModalEdit
