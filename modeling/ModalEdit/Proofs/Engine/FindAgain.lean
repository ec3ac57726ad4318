import ModalEdit.Proofs.Engine.Motion
import ModalEdit.Proofs.Walk.Find

/-!
# Searching again and back

With one cursor, a search that ends on its character is remembered and leaves the cursor on that
character (`Engine.handleKeys_find`). Searching again keeps the engine as it is and moves the cursor
to the next character of the kind (`Engine.handleKey_findAgain`), and searching back leads through
the same places (`Engine.handleKeys_findBack`). So as many searches back as there were searches
again undo them one by one (`Engine.handleKeys_findAgain`).
-/

namespace ModalEdit

namespace FindDirection

/-- The character whose key searches on a side of the cursor for the key behind it. -/
def char : FindDirection → Char
  | .after => 'f'
  | .before => 'F'

/-- What the search is reported as. -/
def name : FindDirection → String
  | .after => "find-forward"
  | .before => "find-backward"

end FindDirection

/-- The places that a search leads through when it is taken again and again. -/
def Document.places (d : Document) (f : Find) (p : Position) : Nat → Position
  | 0 => p
  | n + 1 => (d.find? f true (places d f p n)).getD (places d f p n)

/-- The first `n` times the search leads somewhere. -/
def Document.FindsOn (d : Document) (f : Find) (p : Position) (n : Nat) : Prop :=
  ∀ i < n, d.find? f true (d.places f p i) = some (d.places f p (i + 1))

/-- All of them stand on the character looked for. -/
theorem Document.FindsOn.isOn {d : Document} {f : Find} {p : Position} {n : Nat}
    (h : d.FindsOn f p n) (hf : f.distance = .further) (hp : d.IsOn f p) :
    d.IsOn f (d.places f p n) := by
  cases n with
  | zero => exact hp
  | succ n => exact isOn_of_find? hf (h n (Nat.lt_succ_self n))

namespace Engine

/-- The key that searches again, on the same side or on the other one. -/
def againKey (reverse : Bool) : Key := .char (if reverse then ',' else ';')

/-- What it is reported as. -/
def againName (reverse : Bool) : String :=
  if reverse then "repeat-find-reverse" else "repeat-find"

variable {e : Engine} {ed : Editor} {d : Document} {sel : Selection} {f : Find} {p : Position}
  {direction : FindDirection} {c : Char} {n : Nat}

/-- The motion that searches for the key captured. -/
def findMotion (direction : FindDirection) : Motion :=
  .onTarget direction.name direction.char direction .further

theorem findMotion_mem (direction : FindDirection) : findMotion direction ∈ Motion.defaults := by
  cases direction with
  | before => exact List.mem_of_getElem? (i := 26) rfl
  | after => exact List.mem_of_getElem? (i := 25) rfl

theorem isPlain_char (direction : FindDirection) : IsPlain direction.char := by
  cases direction <;> decide

theorem char_not_mem_normalKeys (direction : FindDirection) :
    .char direction.char ∉ Keymap.normalKeys := by
  cases direction <;> decide

theorem mem_searches (direction : FindDirection) :
    (direction.char, .walked (findMotion direction)) ∈ TextObject.searches := by
  cases direction with
  | before => exact List.mem_of_getElem? (i := 1) rfl
  | after => exact List.mem_of_getElem? (i := 0) rfl

/-- Of the motions only the search itself matches its keys. -/
theorem eq_findMotion {m : Motion} {ks : List Key} (hm : m ∈ Motion.defaults)
    (h : (m.pattern.parse (.char direction.char :: ks)).isFull = true) :
    m = findMotion direction ∧ ∃ k rest, ks = k :: rest := by
  have hmem := TextObject.walked_mem_behind .delete hm
  rcases TextObject.isFull_cases hmem h with ⟨fixed, hfixed, hprefix⟩ | ⟨c, k, rest, hc, heq⟩
  · exact absurd hprefix (TextObject.not_isPrefix_of_search hmem hfixed (mem_searches direction) _)
  · cases heq
    have hwalked := TextObject.eq_of_mem_searches (mem_searches direction) hc
    exact ⟨TextObject.walked.inj hwalked, k, rest, rfl⟩

/-- The first key waits for the character. -/
theorem handleKey_findKey (he : e.InNormalMode ed d) (hpending : e.session.pending = [])
    (hsel : ed.selections = [sel]) (direction : FindDirection) :
    e.handleKey ed (.char direction.char) =
      (.pending, e.withSession { e.session with pending := [.char direction.char] }, ed) := by
  have htyped : e.session.pending ++ [.char direction.char] = [.char direction.char] := by
    rw [hpending, List.nil_append]
  have hnone (m : Motion) (hm : m ∈ Motion.defaults) :
      (m.pattern.parse [.char direction.char]).isFull = false := by
    refine Bool.eq_false_iff.2 fun hfull => ?_
    obtain ⟨-, k, rest, hnil⟩ := eq_findMotion hm hfull
    cases hnil
  have hkey := handleKey_motion_waits he hsel htyped (char_not_mem_normalKeys direction)
    (findMotion_mem direction) (Placeholder.parse_after_singleton (isPlain_char direction)) hnone
  rw [hkey, htyped]

theorem parse_findMotion (direction : FindDirection) (c : Char) :
    (findMotion direction).pattern.parse [.char direction.char, .char c] =
      if c ≠ '\n' then .full (some ("char".toList, .char c)) [] else .none :=
  Placeholder.parse_after_chars _ _ _

/-- **A search that ends on its character** is remembered and leaves the cursor there. -/
theorem handleKeys_find (he : e.InNormalMode ed d) (hpending : e.session.pending = [])
    (hsel : ed.selections = [sel])
    (hfind : ∃ name,
      (e.handleKeys ed [.char direction.char, .char c]).1 = [.pending, .executed name]) :
    ∃ q, d.IsOn ⟨c, .further, direction⟩ q ∧
      (e.handleKeys ed [.char direction.char, .char c]).2 =
        (e.withSession { e.session with lastFind := some ⟨c, .further, direction⟩ },
          ed.setCursors [q]) := by
  obtain ⟨name, hfind⟩ := hfind
  simp only [handleKeys, handleKey_findKey he hpending hsel, List.cons.injEq, true_and,
    and_true] at hfind ⊢
  generalize he₁ : e.withSession { e.session with pending := [.char direction.char] } = e₁
    at hfind ⊢
  have hmode : e₁.InNormalMode ed d := by
    subst he₁
    exact ⟨he.keymap, he.mode, he.document⟩
  have htyped : e₁.session.pending ++ [.char c] = [.char direction.char, .char c] := by
    subst he₁
    rfl
  have hk := char_not_mem_normalKeys direction
  obtain ⟨m, hm, hfull⟩ := exists_motion_of_executed hmode hsel htyped hk hfind
  obtain rfl := (eq_findMotion hm hfull).1
  have hparse := parse_findMotion direction c
  split at hparse
  · have hwalk : (findMotion direction).walk = .find direction .further := rfl
    cases hfound : d.find? ⟨c, .further, direction⟩ false sel.active with
    | none =>
      refine absurd hfind (handleKey_motion_ne_executed hmode hsel htyped hk hm hparse ?_ name)
      simp only [hwalk, Walk.take?, Option.map_some, Key.char?, Option.bind_eq_bind,
        Option.bind_some, hfound, Option.bind_none]
    | some q =>
      have hq := Document.isOn_of_find? rfl hfound
      have htake : (findMotion direction).walk.take? d ⟨e₁.session.lastFind, false⟩
          (some (.char c)) sel.active = some
            { target := q
              inclusive := direction == .after
              find := some ⟨c, .further, direction⟩ } := by
        simp only [hwalk, Walk.take?, Key.char?, Option.bind_eq_bind, Option.bind_some, hfound]
        rfl
      have hkey := handleKey_motion hmode hsel htyped hk hm hparse htake
      refine ⟨q, hq, ?_⟩
      rw [hkey, hwalk]
      subst he₁
      simp only [Walk.keepsColumn, Bool.false_eq_true, if_false, hq.placement_clamp,
        Option.some_or]
      rw [← hpending]
      rfl
  · -- A line feed is no character to search for.
    rw [hparse] at hfull
    cases hfull

/-- The motion that searches again. -/
def againMotion (reverse : Bool) : Motion :=
  .onChar (againName reverse) (if reverse then ',' else ';') (.findAgain reverse)

theorem againMotion_mem (reverse : Bool) : againMotion reverse ∈ Motion.defaults := by
  cases reverse with
  | false => exact List.mem_of_getElem? (i := 29) rfl
  | true => exact List.mem_of_getElem? (i := 30) rfl

theorem parse_againMotion (reverse : Bool) :
    (againMotion reverse).pattern.parse [againKey reverse] = .full none [] := by
  cases reverse <;> rfl

/-! ### Again and back -/

section

variable (he : e.InNormalMode ed d) (hpending : e.session.pending = [])
  (hlast : e.session.lastFind = some f) (hf : f.distance = .further)

include he hpending hlast hf

/-- **One more search** on either side: it moves the cursor, or no action runs. -/
theorem handleKey_findAgain (reverse : Bool) (p : Position) :
    match d.find? (if reverse then f.reversed else f) true p with
    | some q => e.handleKey (ed.setCursors [p]) (againKey reverse) =
        (.executed (againName reverse), e, ed.setCursors [q])
    | none => ∀ name, (e.handleKey (ed.setCursors [p]) (againKey reverse)).1 ≠ .executed name := by
  have hcursor : e.InNormalMode (ed.setCursors [p]) d := ⟨he.keymap, he.mode, he.document⟩
  have hsel : (ed.setCursors [p]).selections = [.cursor p] := rfl
  have htyped : e.session.pending ++ [againKey reverse] = [againKey reverse] := by
    rw [hpending, List.nil_append]
  have hk : againKey reverse ∉ Keymap.normalKeys := by cases reverse <;> decide
  have hwalk : (againMotion reverse).walk = .findAgain reverse := rfl
  generalize hg : (if reverse then f.reversed else f) = g
  have htakes : (againMotion reverse).walk.take? d ⟨e.session.lastFind, false⟩ none p =
      (d.find? g true p).map fun q => { target := q, inclusive := g.direction == .after } := by
    simp only [hwalk, hlast, Walk.take?, Option.bind_eq_bind, Option.bind_some, hg]
    cases d.find? g true p <;> rfl
  cases hfind : d.find? g true p with
  | none =>
    rw [hfind] at htakes
    exact handleKey_motion_ne_executed hcursor hsel htyped hk (againMotion_mem reverse)
      (parse_againMotion reverse) htakes
  | some q =>
    rw [hfind] at htakes
    have hg : g.distance = .further := by
      subst hg
      cases reverse <;> exact hf
    have hkey := handleKey_motion hcursor hsel htyped hk (againMotion_mem reverse)
      (parse_againMotion reverse) htakes
    rw [hwalk, Option.none_or, ← hpending] at hkey
    simp only [Walk.keepsColumn, Bool.false_eq_true, if_false,
      (Document.isOn_of_find? hg hfind).placement_clamp] at hkey
    exact hkey

/-- **Searches again** lead through the places one by one. -/
theorem handleKeys_findOn (hon : d.FindsOn f p n) :
    e.handleKeys (ed.setCursors [p]) (List.replicate n (againKey false)) =
      (List.replicate n (.executed (againName false)), e, ed.setCursors [d.places f p n]) := by
  induction n with
  | zero => rfl
  | succ n ih =>
    have hkey := handleKey_findAgain he hpending hlast hf false (d.places f p n)
    simp only [Bool.false_eq_true, if_false, hon n (Nat.lt_succ_self n)] at hkey
    rw [List.replicate_succ', handleKeys_append, ih fun i hi => hon i (Nat.lt_succ_of_lt hi)]
    simp only [handleKeys, hkey, List.replicate_succ']

/-- If all of them run, the search leads somewhere each time. -/
theorem findsOn_of_executed
    (hagain : ∀ o ∈ (e.handleKeys (ed.setCursors [p]) (List.replicate n (againKey false))).1,
      ∃ name, o = .executed name) : d.FindsOn f p n := by
  induction n with
  | zero => exact nofun
  | succ n ih =>
    rw [List.replicate_succ', handleKeys_append] at hagain
    have hon : d.FindsOn f p n := ih fun o ho => hagain o (List.mem_append_left _ ho)
    rw [handleKeys_findOn he hpending hlast hf hon] at hagain
    obtain ⟨name, hname⟩ := hagain _ (List.mem_append_right _ List.mem_cons_self)
    have hkey := handleKey_findAgain he hpending hlast hf false (d.places f p n)
    intro i hi
    rcases Nat.lt_succ_iff_lt_or_eq.1 hi with hi | rfl
    · exact hon i hi
    · simp only [Bool.false_eq_true, if_false] at hkey
      cases hfind : d.find? f true (d.places f p i) with
      | none =>
        rw [hfind] at hkey
        exact absurd hname (hkey name)
      | some q => rw [Document.places, hfind, Option.getD_some]

/-- **Searches back** lead through the same places. -/
theorem handleKeys_findBack (hp : d.IsOn f p) (hon : d.FindsOn f p n) {k : Nat} (hk : k ≤ n) :
    e.handleKeys (ed.setCursors [d.places f p n]) (List.replicate k (againKey true)) =
      (List.replicate k (.executed (againName true)), e, ed.setCursors [d.places f p (n - k)]) := by
  induction k with
  | zero => rfl
  | succ k ih =>
    obtain ⟨m, hm⟩ : ∃ m, n - k = m + 1 := ⟨n - k - 1, by omega⟩
    have hpm : d.IsOn f (d.places f p m) :=
      Document.FindsOn.isOn (fun i hi => hon i (by omega)) hf hp
    have hback : d.find? f.reversed true (d.places f p (n - k)) = some (d.places f p m) := by
      rw [hm]
      exact Document.find?_reversed hf hpm (hon m (by omega))
    have hkey := handleKey_findAgain he hpending hlast hf true (d.places f p (n - k))
    simp only [if_true, hback] at hkey
    rw [List.replicate_succ', handleKeys_append, ih (Nat.le_of_succ_le hk)]
    simp only [handleKeys, hkey, List.replicate_succ', show n - (k + 1) = m by omega]

end

/-- **Searching back undoes searching again**: for every text, settings and session of Normal mode
without pending keys and with one cursor, and every character and direction. If the search for the
character runs and so do `n` searches again, then of up to `n` searches back each runs and undoes
the last search again that is not yet undone: the engine and the editor are the same as before it.
The search stays remembered as it was. -/
theorem handleKeys_findAgain (e : Engine) (ed : Editor) (d : Document) (sel : Selection)
    (direction : FindDirection) (c : Char) (n : Nat) (hkeymap : e.keymap = .builtin)
    (hmode : e.session.mode = .normal) (hpending : e.session.pending = [])
    (hdoc : ed.document = some d) (hsel : ed.selections = [sel])
    (hfind : ∃ name,
      (e.handleKeys ed [.char direction.char, .char c]).1 = [.pending, .executed name])
    (hagain :
      let found := (e.handleKeys ed [.char direction.char, .char c]).2
      ∀ o ∈ (found.1.handleKeys found.2 (List.replicate n (.char ';'))).1,
        ∃ name, o = .executed name) :
    let found := (e.handleKeys ed [.char direction.char, .char c]).2
    let after k := (found.1.handleKeys found.2 (List.replicate k (.char ';'))).2
    ∀ k ≤ n, (after k).1.session.lastFind = some ⟨c, .further, direction⟩ ∧
      (after n).1.handleKeys (after n).2 (List.replicate k (.char ',')) =
        (List.replicate k (.executed "repeat-find-reverse"), after (n - k)) := by
  intro found after k hk
  have he : e.InNormalMode ed d := ⟨hkeymap, hmode, hdoc⟩
  obtain ⟨q, hq, hfound⟩ := handleKeys_find he hpending hsel hfind
  generalize he₁ : e.withSession
    { e.session with lastFind := some ⟨c, .further, direction⟩ } = e₁ at hfound
  have hmode₁ : e₁.InNormalMode ed d := by
    subst he₁
    exact ⟨hkeymap, hmode, hdoc⟩
  have hpending₁ : e₁.session.pending = [] := by
    subst he₁
    exact hpending
  have hlast₁ : e₁.session.lastFind = some ⟨c, .further, direction⟩ := by
    subst he₁
    rfl
  rw [hfound] at hagain
  have hon := findsOn_of_executed hmode₁ hpending₁ hlast₁ rfl hagain
  have hafter (k : Nat) (hk : k ≤ n) :
      after k = (e₁, ed.setCursors [d.places ⟨c, .further, direction⟩ q k]) := by
    have hrun := handleKeys_findOn hmode₁ hpending₁ hlast₁ rfl
      (fun i hi => hon i (Nat.lt_of_lt_of_le hi hk))
    simp only [after, found, hfound]
    exact congrArg Prod.snd hrun
  rw [hafter k hk, hafter n (Nat.le_refl n), hafter (n - k) (Nat.sub_le n k)]
  exact ⟨hlast₁, handleKeys_findBack hmode₁ hpending₁ hlast₁ rfl hq hon hk⟩

/-- Two dots further on and back again. -/
theorem handleKeys_findAgain_dots :
    let e : Engine := {}
    let ed := Editor.ofDocument (.ofText ['a', '.', 'b', '.', 'c', '.', 'd']) [.origin]
    let found := (e.handleKeys ed [.char FindDirection.after.char, .char '.']).2
    let after k := (found.1.handleKeys found.2 (List.replicate k (.char ';'))).2
    (e.handleKeys ed [.char FindDirection.after.char, .char '.']).1 =
      [.pending, .executed "find-forward"] ∧
    (found.1.handleKeys found.2 (List.replicate 2 (.char ';'))).1 =
      List.replicate 2 (.executed "repeat-find") ∧
    (after 2).2.cursors = [⟨0, 5⟩] ∧
    (after 2).1.handleKeys (after 2).2 (List.replicate 2 (.char ',')) =
      (List.replicate 2 (.executed "repeat-find-reverse"), after 0) := by
  intro e ed found after
  have hfind : (e.handleKeys ed [.char FindDirection.after.char, .char '.']).1 =
      [.pending, .executed "find-forward"] := by decide +kernel
  have hagain : (found.1.handleKeys found.2 (List.replicate 2 (.char ';'))).1 =
      List.replicate 2 (.executed "repeat-find") := by decide +kernel
  have hcursors : (after 2).2.cursors = [⟨0, 5⟩] := by decide +kernel
  have hall : ∀ o ∈ (found.1.handleKeys found.2 (List.replicate 2 (.char ';'))).1,
      ∃ name, o = .executed name := by
    rw [hagain]
    exact fun o ho => ⟨_, List.eq_of_mem_replicate ho⟩
  have h := handleKeys_findAgain e ed (.ofText ['a', '.', 'b', '.', 'c', '.', 'd'])
    (.cursor .origin) .after '.' 2 rfl rfl rfl rfl rfl ⟨_, hfind⟩ hall 2 (Nat.le_refl 2)
  refine ⟨hfind, hagain, hcursors, ?_⟩
  simpa only [found, after, Nat.sub_self] using h.2

end Engine

end ModalEdit
