import ModalEdit.Text.Bracket

/-!
# Balanced brackets

`balance` walks over a text and counts depth. The walk stops at the first closing bracket that
nothing opens: what it has walked over closes the brackets that were open at first, and else is
balanced (`balance_eq_some_iff`). It does not get past a piece that closes more than that
(`exists_balance_of_lt`).

A text that is balanced read forwards is balanced read backwards (`balanced_reverse_iff`), so that
walks in opposite directions agree on what is balanced.
-/

namespace ModalEdit

/-- As many brackets are opened as closed, and none is closed before it has been opened. -/
structure Balanced (opening closing : Char) (t : Text) : Prop where
  /-- No prefix has more closing than opening brackets. -/
  opened : ∀ p, p <+: t → p.count closing ≤ p.count opening
  /-- All of the text has as many of one as of the other. -/
  closed : t.count closing = t.count opening

/-- The text closes `depth` brackets that are open before it, and else is balanced. -/
structure Closes (opening closing : Char) (depth : Nat) (t : Text) : Prop where
  /-- No prefix closes more. -/
  opened : ∀ p, p <+: t → p.count closing ≤ p.count opening + depth
  /-- All of the text closes as many. -/
  closed : t.count closing = t.count opening + depth

variable {opening closing c : Char} {depth depth' n : Nat} {t : Text}

theorem closes_zero_iff : Closes opening closing 0 t ↔ Balanced opening closing t :=
  ⟨fun h => ⟨h.opened, h.closed⟩, fun h => ⟨h.opened, h.closed⟩⟩

theorem closes_nil_iff : Closes opening closing depth [] ↔ depth = 0 := by
  refine ⟨fun h => by simpa using h.closed.symm, ?_⟩
  rintro rfl
  exact ⟨fun p hp => by simp [List.prefix_nil.1 hp], rfl⟩

/-- One character in front changes how many brackets are open behind it. -/
theorem closes_cons_iff (h : [c].count closing + depth' = [c].count opening + depth) :
    Closes opening closing depth (c :: t) ↔ Closes opening closing depth' t := by
  have hcount (a : Char) (p : Text) : (c :: p).count a = [c].count a + p.count a := by
    rw [← List.count_append, List.singleton_append]
  constructor
  · rintro ⟨hopened, hclosed⟩
    refine ⟨fun p hp => ?_, ?_⟩
    · have hle := hopened (c :: p) (List.cons_prefix_cons.2 ⟨rfl, hp⟩)
      rw [hcount closing p, hcount opening p] at hle
      omega
    · rw [hcount closing t, hcount opening t] at hclosed
      omega
  · rintro ⟨hopened, hclosed⟩
    refine ⟨fun p hp => ?_, ?_⟩
    · rcases List.prefix_cons_iff.1 hp with rfl | ⟨q, rfl, hq⟩
      · simp
      · have hle := hopened q hq
        rw [hcount closing q, hcount opening q]
        omega
    · rw [hcount closing t, hcount opening t]
      omega

theorem not_closes_zero_closing (hne : opening ≠ closing) :
    ¬ Closes opening closing 0 (closing :: t) := by
  intro h
  have hle := h.opened [closing] (List.cons_prefix_cons.2 ⟨rfl, List.nil_prefix⟩)
  simp [hne.symm] at hle

/-! ### The walk -/

/-- **Where the walk stops.** -/
theorem balance_eq_some_iff (hne : opening ≠ closing) :
    balance opening closing depth t = some n ↔
      t[n]? = some closing ∧ Closes opening closing depth (t.take n) := by
  induction t generalizing depth n with
  | nil => simp [balance]
  | cons c cs ih =>
    -- Behind the first character the walk goes on at another depth.
    have hrest {depth' : Nat} (hc : c = closing → depth ≠ 0)
        (h : [c].count closing + depth' = [c].count opening + depth) :
        (balance opening closing depth' cs).map (· + 1) = some n ↔
          (c :: cs)[n]? = some closing ∧ Closes opening closing depth ((c :: cs).take n) := by
      cases n with
      | zero =>
        simp only [List.getElem?_cons_zero, Option.some.injEq, List.take_zero, closes_nil_iff]
        simpa using hc
      | succ n =>
        rw [List.getElem?_cons_succ, List.take_succ_cons, closes_cons_iff h, ← ih]
        simp
    simp only [balance]
    by_cases hopen : c = opening
    · rw [if_pos hopen]
      refine hrest (fun hclose => absurd (hopen.symm.trans hclose) hne) ?_
      simp [hopen, hne, Nat.add_comm]
    · rw [if_neg hopen]
      by_cases hclose : c = closing
      · rw [if_pos hclose]
        cases depth with
        | zero =>
          cases n with
          | zero => simp [hclose, closes_nil_iff]
          | succ n =>
            simp only [Option.some.injEq, Nat.zero_ne_add_one, List.take_succ_cons, hclose,
              not_closes_zero_closing hne, and_false]
        | succ depth =>
          refine hrest (fun _ => Nat.succ_ne_zero depth) ?_
          simp [hclose, hne.symm, Nat.add_comm]
      · rw [if_neg hclose]
        refine hrest (fun h => absurd h hclose) ?_
        simp [hopen, hclose]

/-- **The walk does not get past a piece** that closes more brackets than are open. -/
theorem exists_balance_of_lt (hne : opening ≠ closing) {p : Text} (hp : p <+: t)
    (h : p.count opening + depth < p.count closing) :
    ∃ n < p.length, balance opening closing depth t = some n := by
  induction t generalizing depth p with
  | nil => simp [List.prefix_nil.1 hp] at h
  | cons c cs ih =>
    rcases List.prefix_cons_iff.1 hp with rfl | ⟨q, rfl, hq⟩
    · simp at h
    · have hrest {depth' : Nat} (hlt : q.count opening + depth' < q.count closing) :
          ∃ n < (c :: q).length, (balance opening closing depth' cs).map (· + 1) = some n := by
        obtain ⟨n, hn, hbalance⟩ := ih hq hlt
        exact ⟨n + 1, Nat.succ_lt_succ hn, by rw [hbalance]; rfl⟩
      simp only [balance]
      by_cases hopen : c = opening
      · subst hopen
        rw [List.count_cons_self, List.count_cons_of_ne hne] at h
        rw [if_pos rfl]
        exact hrest (by omega)
      · rw [if_neg hopen]
        rw [List.count_cons_of_ne hopen] at h
        by_cases hclose : c = closing
        · subst hclose
          rw [List.count_cons_self] at h
          rw [if_pos rfl]
          cases depth with
          | zero => exact ⟨0, Nat.succ_pos _, rfl⟩
          | succ depth => exact hrest (by omega)
        · rw [if_neg hclose]
          rw [List.count_cons_of_ne hclose] at h
          exact hrest h

/-! ### Backwards -/

theorem Balanced.reverse (h : Balanced opening closing t) : Balanced closing opening t.reverse := by
  refine ⟨fun p hp => ?_, ?_⟩
  · -- What is not in the prefix is a prefix of the text that is read forwards.
    obtain ⟨q, hq⟩ := hp
    have ht : t = q.reverse ++ p.reverse := by
      rw [← List.reverse_append, hq, List.reverse_reverse]
    have hle := h.opened q.reverse ⟨_, ht.symm⟩
    have hclosed := h.closed
    rw [ht] at hclosed
    simp only [List.count_append, List.count_reverse] at hle hclosed
    omega
  · rw [List.count_reverse, List.count_reverse, h.closed]

theorem balanced_reverse_iff : Balanced closing opening t.reverse ↔ Balanced opening closing t :=
  ⟨fun h => t.reverse_reverse ▸ h.reverse, Balanced.reverse⟩

end ModalEdit
