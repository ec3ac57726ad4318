import ModalEdit.Proofs.Pattern.KeyByKey

/-!
# The text of a placeholder

The pattern for fixed keys and one more key comes with the text of an expression, and under a proper
name `Placeholder.ofScript` gives the expression without reading that text. Reading it gives an
expression with one group, of that name, which matches as the given one does
(`Placeholder.readExpr?_sourceOf`). So every pattern that is built matches as its text does
(`Placeholder.exists_read_of_ofScript`).

The reader goes along the text from left to right. An escaped text is read character by character,
and no character of it is a repetition of the one before (`Expr.readSequence?_escape`); behind it is
the group for one key, whose text is always the same (`Expr.readAlternatives?_keyExprText`).
-/

namespace ModalEdit

/-! ### Escaped texts -/

theorem escape_cons (c : Char) (t : List Char) :
    escape (c :: t) = (if isMeta c then ['\\', c] else [c]) ++ escape t :=
  List.flatMap_cons

theorem length_le_length_escape (t : List Char) : t.length ≤ (escape t).length := by
  induction t with
  | nil => exact Nat.le_refl _
  | cons c t ih =>
    have hone : 1 ≤ (if isMeta c then ['\\', c] else [c]).length := by split <;> simp
    rw [escape_cons, List.length_append, List.length_cons]
    omega

/-- An escaped text does not begin with a repetition. -/
theorem isRepetition_escape_append (t : List Char) {cs : List Char}
    (hcs : Expr.isRepetition cs = false) : Expr.isRepetition (escape t ++ cs) = false := by
  cases t with
  | nil => exact hcs
  | cons c t =>
    rw [escape_cons, List.append_assoc]
    split
    · rfl
    · next hc =>
      have hne : ∀ x, isMeta x = true → c ≠ x := fun x hx h => hc (h ▸ hx)
      simp [Expr.isRepetition, hne '*' rfl, hne '+' rfl, hne '?' rfl, hne '\x7b' rfl]

/-- Behind a backslash a character that means something stands for itself. -/
theorem Escape.read?_of_isMeta {c : Char} (h : isMeta c = true) (cs : List Char) :
    read? (c :: cs) = some (.char c, cs) := by
  have hmeta : "\\.+*?()|[]\x7b\x7d^$#&-~".toList.all (fun c => c != 'b' && (width? c).isNone &&
      (ofLetter? c).isNone && (c.toNat < 128 && !c.isAlphanum)) = true := by
    decide
  have hc := List.all_eq_true.1 hmeta c (List.contains_iff_mem.1 h)
  rw [Bool.and_eq_true, Bool.and_eq_true, Bool.and_eq_true, bne_iff_ne, Option.isNone_iff_eq_none,
    Option.isNone_iff_eq_none] at hc
  obtain ⟨⟨⟨hb, hwidth⟩, hletter⟩, hascii⟩ := hc
  simp only [read?, if_neg hb, hwidth, hletter, hascii, if_true]

/-- There is no closing bracket in the name of a group. -/
theorem not_mem_of_isGroupName {name : List Char} (h : isGroupName name = true) : '>' ∉ name := by
  have hletter : isLetter '>' = false := by decide
  have hnumber : isNumber '>' = false := by decide
  intro hmem
  cases name with
  | nil => cases hmem
  | cons c name =>
    simp only [isGroupName, Bool.and_eq_true, List.all_eq_true] at h
    rcases List.mem_cons.1 hmem with rfl | hmem
    · simp [hletter] at h
    · simpa [hletter, hnumber] using h.2 _ hmem

namespace Expr

variable {fuel : Nat} {c : Char} {cs : List Char} {names : GroupNames} {e e' others : Expr}
  {r r' r'' r''' : Reading}

/-! ### One step of the reader -/

theorem readRepetitions?_of_not (h : isRepetition cs = false) (fuel : Nat) (e : Expr) :
    readRepetitions? fuel e ⟨cs, {}, names⟩ = some (e, ⟨cs, {}, names⟩) := by
  cases fuel with
  | zero => rfl
  | succ fuel => simp [readRepetitions?, Reading.skip, Flags.skip, h]

theorem readRepetitions?_plus (h : isRepetition cs = false) (fuel : Nat) (e : Expr) :
    readRepetitions? (fuel + 1) e ⟨'+' :: cs, {}, names⟩ =
      some (.rep e 1 none true, ⟨cs, {}, names⟩) := by
  have hhead : cs.head? ≠ some '?' := by
    intro hhead
    rw [isRepetition, hhead] at h
    cases h
  -- No `?` inverts the repetition.
  rw [readRepetitions?]
  simp [Reading.skip, Flags.skip, Reading.go, readTimes?, isRepetition, repetition, hhead,
    beq_eq_false_iff_ne.2 hhead, readRepetitions?_of_not h]

/-- A character that means nothing is read as itself. -/
theorem readAtom?_char (h : isMeta c = false) (fuel : Nat) (cs : List Char) (names : GroupNames) :
    readAtom? (fuel + 1) ⟨c :: cs, {}, names⟩ = some (some (char c), ⟨cs, {}, names⟩) := by
  have hrepeat : isRepetition [c] = false := by
    have hone : isRepetition (escape [c] ++ []) = false := isRepetition_escape_append [c] rfl
    rwa [escape_cons, if_neg (by simp [h])] at hone
  unfold readAtom?
  -- All branches but the last are for characters that mean something.
  split
  case h_7 =>
    rw [hrepeat]
    rfl
  all_goals cases h

/-- Behind a backslash a character that means something is read as itself. -/
theorem readAtom?_escaped (h : isMeta c = true) (fuel : Nat) (cs : List Char)
    (names : GroupNames) :
    readAtom? (fuel + 1) ⟨'\\' :: c :: cs, {}, names⟩ = some (some (char c), ⟨cs, {}, names⟩) := by
  change (Escape.read? (c :: cs)).map _ = _
  rw [Escape.read?_of_isMeta h]
  rfl

/-- One expression with its repetitions, and the others behind it. -/
theorem readSequence?_cons (hflags : r.flags.spaced = false)
    (hstart : r.rest.head?.all ['|', ')'].contains = false)
    (hatom : readAtom? fuel r = some (some e, r'))
    (hrepeat : readRepetitions? r'.rest.length e r' = some (e', r''))
    (hothers : readSequence? fuel r'' = some (others, r''')) :
    readSequence? (fuel + 1) r = some (.seq e' others, r''') := by
  have hskip : r.skip = r := by simp [Reading.skip, Flags.skip, hflags]
  rw [readSequence?]
  simp only [hskip, hstart, Bool.false_eq_true, ↓reduceIte, hatom, Option.bind_eq_bind,
    Option.bind_some, hrepeat, hothers]
  rfl

theorem readSequence?_nil (hflags : r.flags.spaced = false)
    (hstart : r.rest.head?.all ['|', ')'].contains = true) (fuel : Nat) :
    readSequence? (fuel + 1) r = some (.empty, r) := by
  have hskip : r.skip = r := by simp [Reading.skip, Flags.skip, hflags]
  rw [readSequence?]
  simp only [hskip, hstart, ↓reduceIte]

theorem readSequence?_char (h : isMeta c = false) (hnext : isRepetition cs = false)
    (hothers : readSequence? (fuel + 1) ⟨cs, {}, names⟩ = some (others, r)) :
    readSequence? (fuel + 2) ⟨c :: cs, {}, names⟩ = some (.seq (char c) others, r) := by
  have hstart : (some c).all ['|', ')'].contains = false := by
    have hbar : c ≠ '|' := by rintro rfl; cases h
    have hclose : c ≠ ')' := by rintro rfl; cases h
    simp [hbar, hclose]
  exact readSequence?_cons rfl hstart (readAtom?_char h _ _ _) (readRepetitions?_of_not hnext _ _)
    hothers

theorem readSequence?_escaped (h : isMeta c = true) (hnext : isRepetition cs = false)
    (hothers : readSequence? (fuel + 1) ⟨cs, {}, names⟩ = some (others, r)) :
    readSequence? (fuel + 2) ⟨'\\' :: c :: cs, {}, names⟩ = some (.seq (char c) others, r) :=
  readSequence?_cons rfl rfl (readAtom?_escaped h _ _ _) (readRepetitions?_of_not hnext _ _) hothers

theorem readAlternatives?_of_bar (hfirst : readSequence? fuel r = some (e, r'))
    (hbar : r'.rest = '|' :: cs) (hother : readAlternatives? fuel (r'.go cs) = some (e', r'')) :
    readAlternatives? (fuel + 1) r = some (.alt e e', r'') := by
  rw [readAlternatives?]
  simp only [hfirst, hbar, hother, Option.bind_eq_bind, Option.bind_some]
  rfl

theorem readAlternatives?_of_ne (hfirst : readSequence? fuel r = some (e, r'))
    (hbar : r'.rest.head? ≠ some '|') : readAlternatives? (fuel + 1) r = some (e, r') := by
  rw [readAlternatives?]
  simp only [hfirst, Option.bind_eq_bind, Option.bind_some]
  split
  · next hrest => simp [hrest] at hbar
  · rfl

/-! ### A text and what is behind it -/

/-- A fixed text and an expression behind it. -/
def textThen (t : List Char) (e : Expr) : Expr :=
  t.foldr (fun c others => .seq (char c) others) e

theorem run_textThen (t : List Char) (e : Expr) (s : Place) :
    run (textThen t e) s = run (.seq (literal t) e) s := by
  induction t generalizing s with
  | nil => exact (List.flatMap_singleton _ _).symm
  | cons c t ih =>
    change (run (char c) s).flatMap (run (textThen t e)) =
      ((run (char c) s).flatMap (run (literal t))).flatMap (run e)
    rw [List.flatMap_assoc, funext ih]
    rfl

theorem groups_textThen (t : List Char) (e : Expr) : (textThen t e).groups = e.groups := by
  induction t with
  | nil => rfl
  | cons c t ih => exact ih

/-- **An escaped text is read as that text.** -/
theorem readSequence?_escape (t : List Char) (hnext : isRepetition cs = false)
    (hothers : readSequence? (fuel + 1) ⟨cs, {}, names⟩ = some (others, r)) :
    readSequence? (fuel + t.length + 1) ⟨escape t ++ cs, {}, names⟩ =
      some (textThen t others, r) := by
  induction t with
  | nil => exact hothers
  | cons c t ih =>
    -- What is behind the character does not repeat it.
    have hbehind := isRepetition_escape_append t hnext
    rw [escape_cons, List.append_assoc]
    by_cases hc : isMeta c = true
    · rw [if_pos hc]
      exact readSequence?_escaped hc hbehind ih
    · rw [if_neg hc]
      exact readSequence?_char (Bool.eq_false_iff.2 hc) hbehind ih

/-! ### The group for one key -/

/-- A key in brackets, as the reader makes it. -/
def readBrackets : Expr :=
  .seq (char '<') (.seq (.rep (.one inBrackets) 1 none true) (.seq (char '>') .empty))

/-- Any character but a line feed, as the reader makes it. -/
def readDot : Expr := .seq (.one (.not (.any [.one '\n']))) .empty

theorem readAtom?_inBrackets (fuel : Nat) (names : GroupNames) :
    readAtom? (fuel + 1) ⟨"[^<>]+>|.)".toList, {}, names⟩ =
      some (some (.one inBrackets), ⟨"+>|.)".toList, {}, names⟩) := by
  have hset : CharSet.readBracket? 20 {} "^<>]+>|.)".toList =
      some (inBrackets, "+>|.)".toList) := rfl
  unfold readAtom?
  change (CharSet.readBracket? 20 {} "^<>]+>|.)".toList).map _ = _
  rw [hset]
  rfl

/-- The text of the expression for one key, up to the end of its group. -/
theorem readAlternatives?_keyExprText (fuel : Nat) (names : GroupNames) :
    readAlternatives? (fuel + 5) ⟨keyExprText ++ [')'], {}, names⟩ =
      some (.alt readBrackets readDot, ⟨[')'], {}, names⟩) := by
  -- What is behind a part is read before the part is put in front of it.
  have hempty : readSequence? (fuel + 1) ⟨"|.)".toList, {}, names⟩ =
      some (.empty, ⟨"|.)".toList, {}, names⟩) := readSequence?_nil rfl rfl _
  have hclosing := readSequence?_char (c := '>') rfl rfl hempty
  have hinside := readSequence?_cons rfl rfl (readAtom?_inBrackets _ names)
    (readRepetitions?_plus rfl _ _) hclosing
  have hbrackets := readSequence?_char (c := '<') rfl rfl hinside
  have hatom : readAtom? (fuel + 2) ⟨".)".toList, {}, names⟩ =
      some (some (.one (.not (.any [.one '\n']))), ⟨[')'], {}, names⟩) := by
    unfold readAtom?
    rfl
  have hdot : readSequence? (fuel + 3) ⟨".)".toList, {}, names⟩ =
      some (readDot, ⟨[')'], {}, names⟩) :=
    readSequence?_cons rfl rfl hatom (readRepetitions?_of_not rfl _ _) (readSequence?_nil rfl rfl _)
  exact readAlternatives?_of_bar hbrackets rfl (readAlternatives?_of_ne hdot (by simp))

/-- The inside of a group up to its closing bracket. -/
theorem readInside?_of_readAlternatives? {wrap : Expr → Expr} {outer : Flags}
    (hinside : readAlternatives? fuel r = some (e, r')) (hclose : r'.rest = ')' :: cs) :
    readInside? (fuel + 1) wrap outer r = some (some (wrap e), ⟨cs, outer, r'.names⟩) := by
  rw [readInside?]
  simp only [hinside, hclose, Option.bind_eq_bind, Option.bind_some]
  rfl

theorem readNamed?_of_isGroupName {name : List Char} (h : isGroupName name = true) (fuel : Nat)
    (cs : List Char) :
    readNamed? (fuel + 1) ⟨name ++ '>' :: cs, {}, []⟩ =
      readNumbered? fuel (some name) ⟨cs, {}, []⟩ := by
  have hname : (name ++ '>' :: cs).takeWhile (· != '>') = name := by
    rw [List.takeWhile_append_of_pos]
    · simp
    · intro x hx
      rw [bne_iff_ne]
      rintro rfl
      exact not_mem_of_isGroupName h hx
  have hbehind : (name ++ '>' :: cs).drop (name.length + 1) = cs := by
    rw [← List.drop_drop, List.drop_left]
    rfl
  rw [readNamed?]
  simp only [hname, h, hbehind, Reading.go]
  rfl

/-- The text of the group for one key. -/
def keyGroupText (var : List Char) : List Char :=
  "(?P<".toList ++ (var ++ '>' :: (keyExprText ++ [')']))

/-- The group for one key, as the reader makes it. -/
def readKeyGroup : Expr := .seq (.group 1 (.alt readBrackets readDot)) .empty

/-- **The group for one key is read** as a group of the given name. -/
theorem readSequence?_keyGroupText {var : List Char} (h : isGroupName var = true) (fuel : Nat) :
    readSequence? (fuel + 11) ⟨keyGroupText var, {}, []⟩ =
      some (readKeyGroup, ⟨[], {}, [some var]⟩) := by
  have hatom : readAtom? (fuel + 10) ⟨keyGroupText var, {}, []⟩ =
      some (some (.group 1 (.alt readBrackets readDot)), ⟨[], {}, [some var]⟩) := by
    calc readAtom? (fuel + 10) ⟨keyGroupText var, {}, []⟩
        = readGroup? (fuel + 9)
            ⟨"?P<".toList ++ (var ++ '>' :: (keyExprText ++ [')'])), {}, []⟩ := by
          unfold readAtom?
          rfl
      _ = readNamed? (fuel + 8) ⟨var ++ '>' :: (keyExprText ++ [')']), {}, []⟩ := by
          unfold readGroup?
          rfl
      _ = readNumbered? (fuel + 7) (some var) ⟨keyExprText ++ [')'], {}, []⟩ :=
          readNamed?_of_isGroupName h _ _
      _ = readInside? (fuel + 6) (.group 1) {} ⟨keyExprText ++ [')'], {}, [some var]⟩ := by
          unfold readNumbered?
          rfl
      _ = some (some (.group 1 (.alt readBrackets readDot)), ⟨[], {}, [some var]⟩) :=
          readInside?_of_readAlternatives? (readAlternatives?_keyExprText _ _) rfl
  exact readSequence?_cons rfl rfl hatom (readRepetitions?_of_not rfl _ _)
    (readSequence?_nil rfl rfl _)

theorem run_seq_empty (e : Expr) : run (.seq e .empty) = run e :=
  funext fun s => List.flatMap_singleton' (run e s)

theorem run_readBrackets : run readBrackets =
    run (.seq (char '<') (.seq (.rep (.one inBrackets) 1 none true) (char '>'))) := by
  funext s
  change ((run (char '<') s).flatMap fun s' => (run (.rep (.one inBrackets) 1 none true) s').flatMap
    (run (.seq (char '>') .empty))) = _
  rw [run_seq_empty]
  rfl

theorem run_readDot : run readDot = run dot := by
  funext s
  rw [readDot, run_seq_empty, dot, run, run]
  simp only [CharSet.has, CharSet.hasAny, Bool.or_false]
  rfl

/-- What is read for the group for one key matches as the expression for one key does. -/
theorem run_readKeyGroup (s : Place) : run readKeyGroup s = run (.group 1 keyExpr) s := by
  rw [readKeyGroup, run_seq_empty, run, run, run, run_readBrackets, run_readDot, keyExpr, run]
  rfl

end Expr

/-! ### Patterns -/

namespace Placeholder

variable {lead var : List Char} {p : Placeholder}

theorem sourceOf_eq (fixed : List Key) (var : List Char) :
    sourceOf fixed var = '^' :: (escape (renderKeys fixed) ++ Expr.keyGroupText var) := by
  simp [sourceOf, Expr.keyGroupText]

/-- **The text for fixed keys and a proper name** is read as an expression with one group, of that
name, which matches as the expression of the pattern does. -/
theorem readExpr?_sourceOf (fixed : List Key) (h : isGroupName var = true) :
    ∃ e, readExpr? (sourceOf fixed var) = some (e, [some var]) ∧ e.groups = [1] ∧
      ∀ s, e.run s = (after fixed var).full.run s := by
  refine ⟨.seq .atStart (.textThen (renderKeys fixed) .readKeyGroup), ?_, ?_, fun s => ?_⟩
  · -- Each character of the fixed keys takes one unit of fuel, and the rest a fixed number of them.
    obtain ⟨fuel, hfuel⟩ : ∃ fuel,
        6 * (sourceOf fixed var).length + 6 = fuel + 10 + (renderKeys fixed).length + 3 := by
      have hlength : (renderKeys fixed).length + 2 ≤ (sourceOf fixed var).length := by
        have hescape := length_le_length_escape (renderKeys fixed)
        simp only [sourceOf_eq, Expr.keyGroupText, List.length_cons, List.length_append]
        omega
      obtain ⟨n, hn⟩ := Nat.exists_eq_add_of_le' hlength
      exact ⟨6 * n + 5 * (renderKeys fixed).length + 5, by omega⟩
    have hatom : Expr.readAtom? (fuel + 10 + (renderKeys fixed).length + 1)
        ⟨sourceOf fixed var, {}, []⟩ =
          some (some .atStart, ⟨escape (renderKeys fixed) ++ Expr.keyGroupText var, {}, []⟩) := by
      rw [sourceOf_eq]
      unfold Expr.readAtom?
      rfl
    have hnext : Expr.isRepetition (escape (renderKeys fixed) ++ Expr.keyGroupText var) = false :=
      isRepetition_escape_append _ rfl
    have hsequence := Expr.readSequence?_cons rfl (by rw [sourceOf_eq]; rfl) hatom
      (Expr.readRepetitions?_of_not hnext _ _)
      (Expr.readSequence?_escape _ rfl (Expr.readSequence?_keyGroupText h fuel))
    rw [readExpr?, hfuel, Expr.readAlternatives?_of_ne hsequence (by simp)]
    rfl
  · exact Expr.groups_textThen (renderKeys fixed) .readKeyGroup
  · change (Expr.run .atStart s).flatMap (Expr.run (.textThen _ _)) =
      (Expr.run .atStart s).flatMap (Expr.run (.seq _ _))
    congr 1
    funext s
    rw [Expr.run_textThen, Expr.run, Expr.run, funext Expr.run_readKeyGroup]

theorem source_of_ofExprs {source : List Char} {e : Expr × GroupNames} {beginning : Expr}
    (h : ofExprs source e beginning = .ok p) : p.source = source := by
  rw [ofExprs] at h
  split at h <;> cases h
  rfl

/-- Reading the text for fixed keys and a proper name gives a pattern that finds the same. -/
theorem exists_ofExprs_sourceOf (fixed : List Key) (h : isGroupName var = true) :
    ∃ e q, readExpr? (sourceOf fixed var) = some e ∧
      ofExprs (sourceOf fixed var) e (beginningOf fixed) = .ok q ∧ q.var = var ∧
        ∀ keys, q.parse keys = (after fixed var).parse keys := by
  obtain ⟨e, hread, hgroups, hrun⟩ := readExpr?_sourceOf fixed h
  refine ⟨_, ⟨sourceOf fixed var, e, beginningOf fixed, var⟩, hread, ?_, rfl, fun keys => ?_⟩
  · simp only [ofExprs, hgroups]
    rfl
  · simp only [parse, Expr.matchStart?, hrun]
    rfl

/-- **Every pattern that is built finds what its text says**: reading the text gives a pattern with
the same name for the key captured, which finds the same in all keys. -/
theorem exists_read_of_ofScript (h : ofScript lead var = .ok p) :
    ∃ fixed e q, (lead = [] ∧ fixed = [] ∨ parseKeys lead = .ok fixed) ∧
      readExpr? p.source = some e ∧ ofExprs p.source e (beginningOf fixed) = .ok q ∧
        q.var = p.var ∧ ∀ keys, q.parse keys = p.parse keys := by
  obtain ⟨fixed, hlead⟩ := exists_fixed_of_ofScript h
  rw [ofScript_of_lead hlead] at h
  split at h
  · next hvar =>
    cases h
    obtain ⟨e, q, hread, hq, hname, hparse⟩ := exists_ofExprs_sourceOf fixed hvar
    exact ⟨fixed, e, q, hlead, hread, hq, hname, hparse⟩
  · split at h
    · next e hread =>
      rw [← source_of_ofExprs h] at hread h
      exact ⟨fixed, e, p, hlead, hread, h, rfl, fun _ => rfl⟩
    · cases h

end Placeholder

end ModalEdit
