import ModalEdit.Proofs.Key.NormalForm

/-!
# Bindings are checked one by one

What becomes of an entry in the array of bindings depends on that entry alone. Its index is put
into the error if it is faulty, and shows nowhere else (`BindingError.IsLocal`, one lemma for each
step of the check).

So two arrays, one behind the other, give what each of them gives, with the entries of the second
counted on from the first (`Binding.readFrom_append`, `Binding.readFrom_add`).
`Binding.readArray_entrywise` puts together what follows from this.
-/

namespace ModalEdit

namespace BindingError

/-- The index of the faulty entry, unless there are no entries at all. -/
def index? : BindingError → Option Nat
  | notAnArray _ => none
  | notATable i => some i
  | missingField i _ => some i
  | wrongType i _ _ => some i
  | keys i _ => some i
  | unknownMode i _ => some i

/-- The error that it is with `n` more entries in front. -/
def shift (n : Nat) : BindingError → BindingError
  | notAnArray found => notAnArray found
  | notATable i => notATable (i + n)
  | missingField i field => missingField (i + n) field
  | wrongType i field expected => wrongType (i + n) field expected
  | keys i e => keys (i + n) e
  | unknownMode i mode => unknownMode (i + n) mode

variable {α β : Type} {f : Nat → Except BindingError α}

/-- A step in the check of an entry, by the index of the entry. Either it comes to the same whatever
the index, or to an error that names the index and is otherwise the same. -/
def IsLocal (f : Nat → Except BindingError α) : Prop :=
  (∃ a, ∀ i, f i = .ok a) ∨
    ∃ e : Nat → BindingError, (∀ i, f i = .error (e i)) ∧ (∀ i, (e i).index? = some i) ∧
      ∀ i n, e (i + n) = (e i).shift n

theorem isLocal_ok (a : α) : IsLocal fun _ => .ok a := .inl ⟨a, fun _ => rfl⟩

theorem isLocal_error {e : Nat → BindingError} (hindex : ∀ i, (e i).index? = some i)
    (hshift : ∀ i n, e (i + n) = (e i).shift n) :
    IsLocal fun i => (.error (e i) : Except BindingError α) :=
  .inr ⟨e, fun _ => rfl, hindex, hshift⟩

/-- **Steps one after the other**: the second may depend on what the first came to, but again not on
the index. -/
theorem IsLocal.bind {g : Nat → α → Except BindingError β} (hf : IsLocal f)
    (hg : ∀ a, IsLocal fun i => g i a) : IsLocal fun i => f i >>= g i := by
  rcases hf with ⟨a, hok⟩ | ⟨e, herror, hindex, hshift⟩
  · have heq : (fun i => f i >>= g i) = fun i => g i a := by
      funext i
      rw [hok i]
      rfl
    exact heq ▸ hg a
  · refine .inr ⟨e, fun i => ?_, hindex, hshift⟩
    simp only [herror i]
    rfl

theorem IsLocal.map (h : IsLocal f) (g : α → β) : IsLocal fun i => (f i).map g := by
  have heq : (fun i => (f i).map g) = fun i => f i >>= fun a => .ok (g a) := by
    funext i
    cases f i <;> rfl
  exact heq ▸ h.bind fun a => isLocal_ok (g a)

end BindingError

namespace Binding

open BindingError

variable {vs : List Toml.Value} {i : Nat} {e : BindingError}

/-! ### The steps of the check -/

theorem isLocal_stringField (t : Toml.Table) (field : String) :
    IsLocal fun i => stringField t i field := by
  unfold stringField
  cases t.get? field with
  | none => exact isLocal_error (fun _ => rfl) fun _ _ => rfl
  | some v =>
    dsimp only
    cases v.string? with
    | none => exact isLocal_error (fun _ => rfl) fun _ _ => rfl
    | some s => exact isLocal_ok s

theorem isLocal_readKeys (script : List Char) :
    IsLocal fun i => (parseKeys script).mapError (.keys i) := by
  cases parseKeys script with
  | ok ks => exact isLocal_ok ks
  | error e => exact isLocal_error (fun _ => rfl) fun _ _ => rfl

theorem isLocal_readMode (name : String) : IsLocal fun i => readMode i name := by
  unfold readMode
  cases Mode.ofName? name with
  | none => exact isLocal_error (fun _ => rfl) fun _ _ => rfl
  | some m => exact isLocal_ok m

theorem isLocal_readModes (names : List Toml.Value) : IsLocal fun i => readModes i names := by
  induction names with
  | nil => exact isLocal_ok []
  | cons v names ih =>
    unfold readModes
    cases v.string? with
    | none => exact isLocal_error (fun _ => rfl) fun _ _ => rfl
    | some name =>
      exact (isLocal_readMode name).bind fun m => ih.bind fun ms => isLocal_ok (m :: ms)

theorem isLocal_modesField (t : Toml.Table) : IsLocal fun i => modesField t i := by
  unfold modesField
  split
  · exact isLocal_ok _
  · exact (isLocal_readMode _).map _
  · exact (isLocal_readModes _).map _
  · exact isLocal_error (fun _ => rfl) fun _ _ => rfl

/-- **The check of an entry** looks at nothing but the entry. -/
theorem isLocal_read (v : Toml.Value) : IsLocal fun i => read i v := by
  unfold read
  cases v.table? with
  | none => exact isLocal_error (fun _ => rfl) fun _ _ => rfl
  | some t =>
    refine (isLocal_stringField t "keys").bind fun script => ?_
    refine (isLocal_readKeys script.toList).bind fun keys => ?_
    refine (isLocal_stringField t "command").bind fun command => ?_
    exact (isLocal_modesField t).bind fun modes => isLocal_ok _

/-- What is wrong with an entry names it. -/
theorem index?_of_read {v : Toml.Value} (h : read i v = .error e) : e.index? = some i := by
  rcases isLocal_read v with ⟨b, hok⟩ | ⟨e', herror, hindex, -⟩
  · cases (hok i).symm.trans h
  · cases (herror i).symm.trans h
    exact hindex i

/-! ### Arrays of entries -/

theorem readFrom_cons_of_ok {v : Toml.Value} {b : Binding} (h : read i v = .ok b) :
    readFrom i (v :: vs) = (b :: (readFrom (i + 1) vs).1, (readFrom (i + 1) vs).2) := by
  rw [readFrom, h]

theorem readFrom_cons_of_error {v : Toml.Value} (h : read i v = .error e) :
    readFrom i (v :: vs) = ((readFrom (i + 1) vs).1, e :: (readFrom (i + 1) vs).2) := by
  rw [readFrom, h]

/-- **Arrays one behind the other** are read one after the other. -/
theorem readFrom_append (i : Nat) (as bs : List Toml.Value) :
    readFrom i (as ++ bs) =
      ((readFrom i as).1 ++ (readFrom (i + as.length) bs).1,
        (readFrom i as).2 ++ (readFrom (i + as.length) bs).2) := by
  induction as generalizing i with
  | nil => rfl
  | cons v as ih =>
    have hrest := ih (i + 1)
    rw [Nat.add_right_comm] at hrest
    rw [List.cons_append, List.length_cons, ← Nat.add_assoc]
    cases hread : read i v with
    | ok b => rw [readFrom_cons_of_ok hread, readFrom_cons_of_ok hread, hrest, List.cons_append]
    | error e =>
      rw [readFrom_cons_of_error hread, readFrom_cons_of_error hread, hrest, List.cons_append]

/-- **Entries in front** change no more than the indices in the errors. -/
theorem readFrom_add (i n : Nat) (vs : List Toml.Value) :
    readFrom (i + n) vs = ((readFrom i vs).1, (readFrom i vs).2.map (.shift n)) := by
  induction vs generalizing i with
  | nil => rfl
  | cons v vs ih =>
    have hrest := ih (i + 1)
    rw [Nat.add_right_comm] at hrest
    rcases isLocal_read v with ⟨b, hok⟩ | ⟨e, herror, -, hshift⟩
    · rw [readFrom_cons_of_ok (hok _), readFrom_cons_of_ok (hok _), hrest]
    · rw [readFrom_cons_of_error (herror _), readFrom_cons_of_error (herror _), hrest, hshift,
        List.map_cons]

/-- An error is that of an entry. -/
theorem exists_of_mem_readFrom (h : e ∈ (readFrom i vs).2) :
    ∃ front v back, vs = front ++ v :: back ∧ read (i + front.length) v = .error e := by
  induction vs generalizing i with
  | nil => cases h
  | cons v vs ih =>
    have hrest (h : e ∈ (readFrom (i + 1) vs).2) :
        ∃ front w back, v :: vs = front ++ w :: back ∧ read (i + front.length) w = .error e := by
      obtain ⟨front, w, back, rfl, hread⟩ := ih h
      rw [Nat.add_right_comm, Nat.add_assoc] at hread
      exact ⟨v :: front, w, back, rfl, hread⟩
    cases hread : read i v with
    | ok b =>
      rw [readFrom_cons_of_ok hread] at h
      exact hrest h
    | error e' =>
      rw [readFrom_cons_of_error hread] at h
      rcases List.mem_cons.1 h with rfl | h
      · exact ⟨[], v, vs, rfl, hread⟩
      · exact hrest h

/-- The bindings of an array, and what is wrong with its other entries. -/
def readArray (vs : List Toml.Value) : List Binding × List BindingError :=
  readAll (some (.array vs))

theorem readArray_eq (vs : List Toml.Value) : readArray vs = readFrom 0 vs := rfl

theorem readArray_append (as bs : List Toml.Value) :
    readArray (as ++ bs) =
      ((readArray as).1 ++ (readArray bs).1,
        (readArray as).2 ++ (readArray bs).2.map (.shift as.length)) := by
  simp only [readArray_eq, readFrom_append, readFrom_add 0 as.length]

/-- All that the entry `v` adds is the binding `b`. -/
def AddsBinding (front : List Toml.Value) (v : Toml.Value) (back : List Toml.Value) (b : Binding) :
    Prop :=
  readArray (front ++ v :: back) =
    ((readArray front).1 ++ b :: (readArray back).1,
      (readArray front).2 ++ (readArray back).2.map (.shift (front.length + 1)))

/-- All that the entry `v` adds is the error `e`, which names it. -/
def AddsError (front : List Toml.Value) (v : Toml.Value) (back : List Toml.Value)
    (e : BindingError) : Prop :=
  e.index? = some front.length ∧
    readArray (front ++ v :: back) =
      ((readArray front).1 ++ (readArray back).1,
        (readArray front).2 ++ e :: (readArray back).2.map (.shift (front.length + 1)))

/-- The entry is faulty: an error names it. -/
def IsFaulty (vs : List Toml.Value) (i : Nat) : Prop := ∃ e ∈ (readArray vs).2, e.index? = some i

instance (vs : List Toml.Value) (i : Nat) : Decidable (IsFaulty vs i) :=
  inferInstanceAs (Decidable (∃ e ∈ (readArray vs).2, e.index? = some i))

variable {front back : List Toml.Value} {v : Toml.Value} {b : Binding}

theorem readFrom_behind (front back : List Toml.Value) :
    readFrom (front.length + 1) back =
      ((readArray back).1, (readArray back).2.map (.shift (front.length + 1))) := by
  rw [readArray_eq, ← readFrom_add, Nat.zero_add]

theorem addsBinding_of_read (h : read front.length v = .ok b) : AddsBinding front v back b := by
  rw [AddsBinding, readArray_eq, readFrom_append, Nat.zero_add, readFrom_cons_of_ok h,
    readFrom_behind]
  rfl

theorem addsError_of_read (h : read front.length v = .error e) : AddsError front v back e := by
  refine ⟨index?_of_read h, ?_⟩
  rw [readArray_eq, readFrom_append, Nat.zero_add, readFrom_cons_of_error h, readFrom_behind]
  rfl

/-- An entry does not add both. -/
theorem AddsBinding.not_addsError (h : AddsBinding front v back b) :
    ¬ AddsError front v back e := by
  rintro ⟨-, heq⟩
  have hlen := congrArg (fun out => out.1.length) (h.symm.trans heq)
  simp only [List.length_append, List.length_cons] at hlen
  omega

/-- An entry adds the binding that it describes, and no other. -/
theorem addsBinding_iff_isEntry : AddsBinding front v back b ↔ IsEntry v b := by
  rw [← read_eq_ok_iff (i := front.length)]
  refine ⟨fun h => ?_, addsBinding_of_read⟩
  cases hread : read front.length v with
  | ok b' =>
    have heq := congrArg Prod.fst (h.symm.trans (addsBinding_of_read hread))
    rw [(List.cons.inj (List.append_cancel_left heq)).1]
  | error e => exact absurd (addsError_of_read hread) h.not_addsError

/-- The faulty entry stands somewhere in the array. -/
theorem IsFaulty.exists_addsError (h : IsFaulty vs i) :
    ∃ front v back e, vs = front ++ v :: back ∧ front.length = i ∧ AddsError front v back e := by
  obtain ⟨e, he, hi⟩ := h
  obtain ⟨front, v, back, rfl, hread⟩ := exists_of_mem_readFrom (readArray_eq vs ▸ he)
  rw [Nat.zero_add] at hread
  have hindex := index?_of_read hread
  exact ⟨front, v, back, e, rfl, Option.some.inj (hindex.symm.trans hi), addsError_of_read hread⟩

/-- Without the entry the same bindings are accepted. -/
theorem AddsError.accepted (h : AddsError front v back e) :
    (readArray ((front ++ v :: back).eraseIdx front.length)).1 =
      (readArray (front ++ v :: back)).1 := by
  rw [h.2, List.eraseIdx_append_of_length_le (Nat.le_refl _), Nat.sub_self, List.eraseIdx_zero,
    List.tail_cons, readArray_append]

/-- **Bindings are checked one by one.** Two arrays, one behind the other, give the bindings of the
first and then those of the second, and likewise the errors, where the entries of the second are
counted on from the first. An entry that describes a binding adds this binding and no error, and
every other entry adds one error, which names it, and no binding. Bindings have canonical keys, at
least one. And without an entry that is faulty the same bindings are accepted. -/
theorem readArray_entrywise :
    (∀ as bs : List Toml.Value, readArray (as ++ bs) =
      ((readArray as).1 ++ (readArray bs).1,
        (readArray as).2 ++ (readArray bs).2.map (.shift as.length))) ∧
    (∀ (front : List Toml.Value) (v : Toml.Value) (back : List Toml.Value),
      (∀ b, AddsBinding front v back b ↔ IsEntry v b) ∧
      ((∃ b, AddsBinding front v back b) ↔ ¬ ∃ e, AddsError front v back e)) ∧
    (∀ (vs : List Toml.Value), ∀ b ∈ (readArray vs).1, b.keys ≠ [] ∧ ∀ k ∈ b.keys, k.Canonical) ∧
    ∀ (vs : List Toml.Value) (i : Nat), IsFaulty vs i →
      (readArray (vs.eraseIdx i)).1 = (readArray vs).1 := by
  refine ⟨readArray_append, fun front v back => ?_, fun vs b hb => ?_, fun vs i h => ?_⟩
  · refine ⟨fun b => addsBinding_iff_isEntry, ?_, ?_⟩
    · rintro ⟨b, hb⟩ ⟨e, he⟩
      exact hb.not_addsError he
    · intro h
      cases hread : read front.length v with
      | ok b => exact ⟨b, addsBinding_of_read hread⟩
      | error e => exact absurd ⟨e, addsError_of_read hread⟩ h
  · obtain ⟨script, hscript⟩ := exists_script_of_readAll hb
    obtain ⟨hcanonical, hne⟩ := canonical_of_parseKeys hscript
    exact ⟨hne, hcanonical⟩
  · obtain ⟨front, v, back, e, rfl, rfl, he⟩ := h.exists_addsError
    exact he.accepted

/-- Of four entries the second is accepted. The others have no keys, a mode that there is not and a
key that there is not; the third may as well be left out. -/
theorem readArray_entrywise_modes :
    let vs : List Toml.Value := [.table [("command", .string "no-keys")],
      .table [("command", .string "ok"), ("keys", .string "x")],
      .table [("command", .string "bad-mode"), ("keys", .string "y"),
        ("modes", .array [.string "replace"])],
      .table [("command", .string "bad-keys"), ("keys", .string "<Nope>")]]
    (readArray vs).2 = [.missingField 0 "keys", .unknownMode 2 "replace",
      .keys 3 (.unknownKey "Nope".toList)] ∧
    (readArray vs).1.map (fun b => (b.keys, b.command)) = [([.char 'x'], "ok")] ∧
    IsFaulty vs 2 ∧ (readArray (vs.eraseIdx 2)).1 = (readArray vs).1 := by
  intro vs
  have hfaulty : IsFaulty vs 2 := by decide +kernel
  exact ⟨by decide +kernel, by decide +kernel, hfaulty, readArray_entrywise.2.2.2 vs 2 hfaulty⟩

end Binding

end ModalEdit
