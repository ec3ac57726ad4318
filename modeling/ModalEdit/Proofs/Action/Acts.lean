import ModalEdit.Proofs.Engine.Frame
import ModalEdit.Proofs.Pattern.Exact

/-!
# When an action runs

Whether an action runs depends on the keys, the document, the selections, the mode and the last
search, but not on the registers: the keys must call it, and what is called must find something to
work on (`Action.Acts`, `Action.ends_acts`).

An action whose patterns are exact runs on keys that leave something over only if it also runs on
fewer of them (`Action.usesUp_or_acts`).
-/

namespace ModalEdit

variable {d : Document} {s : State} {settings : Settings} {keys : List Key}

/-! ### What is called -/

/-- What the motion finds at the cursors, or at the heads of the selections. -/
def State.found (s : State) (d : Document) (m : Motion) (keys : List Key) : List (Found Arrival) :=
  if s.mode.isVisual then (s.headArrivals d m keys).map (·.2) else (s.arrivals d m keys).map (·.2)

/-- What is called finds something to work on. -/
def Call.Acts (d : Document) (s : State) : Call → Prop
  | command .. | type _ | operate _ | shorthand .. | execute _ => True
  | selectObject keys => (TextObject.structures.findSome? (s.rangesAtHeads d keys)).isSome
  | compose kind keys => ((TextObject.behind kind).findSome?
      (OperatorKind.targetsOf d ⟨some kind, s.session.lastFind⟩ s.selections keys)).isSome
  | move m keys => (s.found d m keys).any (·.isPartly) = false ∧
      (s.found d m keys).any (·.result?.isSome) = true

/-- What is in the registers makes no difference. -/
theorem Call.acts_registers (c : Call) (registers : Registers) :
    c.Acts d { s with session := { s.session with registers } } ↔ c.Acts d s := by
  cases c <;> rfl

theorem Step.ends_true {α : Type} (m : Step α) (s : State) :
    m.Ends s (fun _ _ => True) fun _ _ => True := by
  unfold Ends
  split <;> trivial

/-- Unless it fails, what is called runs if and only if it finds something to work on. -/
theorem Call.ends_acts (c : Call) (settings : Settings) (hd : s.editor.document = some d) :
    (c.run settings).Ends s (fun r _ => r = .executed ↔ c.Acts d s) fun _ _ => True := by
  have hopen {go : Document → Step Reply}
      (h : (go d).Ends s (fun r _ => r = .executed ↔ c.Acts d s) fun _ _ => True) :
      (Step.withDocument go).Ends s (fun r _ => r = .executed ↔ c.Acts d s) fun _ _ => True :=
    (Step.ends_withDocument_of_some hd).2 h
  -- What does not look for anything runs if it does not fail.
  have hran {α : Type} {m : Step α} {f : α → Step Reply} (hc : c.Acts d s)
      (hf : ∀ x s', (f x).Ends s' (fun r _ => r = .executed) fun _ _ => True) :
      (m >>= f).Ends s (fun r _ => r = .executed ↔ c.Acts d s) fun _ _ => True := by
    rw [Step.ends_bind]
    refine (Step.ends_true m s).mono (fun x s' _ => ?_) fun _ _ h => h
    exact (hf x s').mono (fun _ _ hr => iff_of_true hr hc) fun _ _ h => h
  cases c with
  | command c key => exact hopen (hran trivial fun _ _ => rfl)
  | type t => exact hopen (hran trivial fun _ _ => rfl)
  | operate kind => exact hopen (hran trivial fun _ _ => rfl)
  | selectObject keys =>
    refine hopen ?_
    simp only [Step.selectObject, Step.ends_bind, Step.ends_get, Acts]
    split
    · rename_i found hfound
      simp only [Step.ends_bind, Step.ends_modify, hfound]
      split <;> exact iff_of_true rfl rfl
    · rename_i hnone
      rw [hnone]
      split <;> exact iff_of_false (by decide) Bool.false_ne_true
  | shorthand kind object =>
    refine hopen (hran trivial fun r s' => ?_)
    split <;> exact rfl
  | compose kind keys =>
    refine hopen ?_
    simp only [OperatorKind.compose, Step.ends_bind, Step.ends_get, Acts, TextObject.behind]
    split
    · rename_i found hfound
      rw [hfound, Step.ends_bind]
      exact (Step.ends_true _ s).mono (fun _ _ _ => iff_of_true rfl rfl) fun _ _ h => h
    · rename_i hnone
      rw [hnone]
      split <;> exact iff_of_false (by decide) Bool.false_ne_true
  | move m keys =>
    refine hopen ?_
    rw [Step.ends_bind, Step.ends_get]
    by_cases hvisual : s.mode.isVisual = true
    all_goals
      simp only [hvisual, Bool.false_eq_true, ↓reduceIte, Step.extend, Step.moveCursors,
        Step.ends_bind, Step.ends_get, Acts, State.found, List.any_map, Function.comp_def]
      split
      · rename_i hpartly
        exact iff_of_false (by decide) fun h => by simp [hpartly] at h
      · rename_i hpartly
        split
        · rename_i hsome
          exact iff_of_true rfl ⟨Bool.eq_false_iff.2 hpartly, hsome⟩
        · rename_i hsome
          exact iff_of_false (by decide) fun h => hsome h.2
  | execute b => exact hran trivial fun _ _ => rfl

/-! ### Actions -/

/-- The keys call the action, and it finds something to work on. -/
def Action.Acts (keys : List Key) (d : Document) (s : State) (a : Action) : Prop :=
  ∃ c, a.call keys = .inr c ∧ c.Acts d s

theorem Action.acts_registers (a : Action) (registers : Registers) :
    a.Acts keys d { s with session := { s.session with registers } } ↔ a.Acts keys d s :=
  exists_congr fun c => and_congr_right fun _ => c.acts_registers registers

/-- A match calls nothing by a reply, unless what it calls does. -/
theorem Match.called_ne_executed {m : Match} {f : Option Key → List Key → Called}
    (hf : ∀ key rest, f key rest ≠ .inl .executed) : m.called f ≠ .inl .executed := by
  cases m with
  | full captured rest => exact hf _ _
  | partly => simp [called]
  | none => simp [called]

/-- Keys by themselves do not make an action run. -/
theorem Action.call_ne_executed (a : Action) (keys : List Key) : a.call keys ≠ .inl .executed := by
  cases a with
  | command | onSelection | shorthand | bound =>
    rw [call]
    exact Match.called_ne_executed fun _ _ => Sum.inr_ne_inl
  | typing =>
    simp only [call]
    split
    · split <;> simp
    · simp
  | selectObject => exact Sum.inr_ne_inl
  | operator kind =>
    rw [call]
    refine Match.called_ne_executed fun _ rest => ?_
    split <;> simp
  | motion m =>
    rw [call]
    split <;> simp

/-- **Unless it fails, an action runs if and only if it acts.** -/
theorem Action.ends_acts (a : Action) (settings : Settings) (keys : List Key)
    (hd : s.editor.document = some d) :
    (a.answer settings keys).Ends s (fun r _ => r = .executed ↔ a.Acts keys d s)
      fun _ _ => True := by
  rw [answer_eq]
  cases h : a.call keys with
  | inl r =>
    refine iff_of_false (fun hr => a.call_ne_executed keys (hr ▸ h)) ?_
    rintro ⟨c, hc, -⟩
    rw [h] at hc
    cases hc
  | inr c =>
    refine (c.ends_acts settings hd).mono (fun r s' hr => hr.trans ?_) fun _ _ h => h
    refine ⟨fun hc => ⟨c, h, hc⟩, ?_⟩
    rintro ⟨c', hc', hacts⟩
    rw [h] at hc'
    cases hc'
    exact hacts

/-- The action uses up the keys: its own pattern matches them in full and leaves nothing. For an
operator this is its key and the pattern of the object that it works on, and where an object is
selected it is the pattern of that object. -/
def Action.UsesUp (keys : List Key) (d : Document) (s : State) : Action → Prop
  | command _ _ pattern _ | onSelection _ pattern _ | shorthand _ pattern _ _ =>
    ∃ captured, pattern.parse keys = .full captured []
  | typing => ∃ key t, keys = [key] ∧ key.typed? = some t
  | selectObject => ∃ o captured,
    TextObject.structures.find? (fun o => (s.rangesAtHeads d keys o).isSome) = some o ∧
      o.pattern.parse keys = .full captured []
  | operator kind => ∃ rest o captured, keys = kind.key :: rest ∧
    (TextObject.wholeLine kind :: TextObject.defaults).find? (fun o =>
      (OperatorKind.targetsOf d ⟨some kind, s.session.lastFind⟩ s.selections rest o).isSome) =
        some o ∧ o.pattern.parse rest = .full captured []
  | motion m => ∃ captured, m.pattern.parse keys = .full captured []
  | bound b => ∃ captured, (Pattern.literal b.keys).parse keys = .full captured []

/-! ### Keys that are left over -/

theorem Match.exists_full_of_called {m : Match} {f : Option Key → List Key → Called} {c : Call}
    (h : m.called f = .inr c) :
    ∃ captured rest, m = .full captured rest ∧ f (captured.map (·.2)) rest = .inr c := by
  cases m with
  | full captured rest => exact ⟨captured, rest, rfl, h⟩
  | partly => cases h
  | none => cases h

/-- A full match of an exact pattern leaves nothing, or some of the keys but not all match in full
too, with the same key captured. -/
theorem Pattern.Exact.cases {p : Pattern} (hp : p.Exact) {captured : Option (List Char × Key)}
    {rest : List Key} (h : p.parse keys = .full captured rest) :
    rest = [] ∨ ∃ taken, taken ≠ [] ∧ taken <+: keys ∧ taken ≠ keys ∧
      p.parse taken = .full captured [] := by
  obtain ⟨taken, hne, rfl, htaken⟩ := hp keys captured rest h
  by_cases hrest : rest = []
  · exact .inl hrest
  · exact .inr ⟨taken, hne, List.prefix_append _ _, fun heq => hrest (by simpa using heq), htaken⟩

theorem Found.exists_of_result?_ofMatch {α : Type} {m : Match} {f : Option Key → Option α}
    (h : (ofMatch m f).result?.isSome) : ∃ captured rest, m = .full captured rest := by
  cases m with
  | full captured rest => exact ⟨captured, rest, rfl⟩
  | partly => cases h
  | none => cases h

/-- What is found depends on the key captured only. -/
theorem Found.result?_ofMatch_full {α : Type} (captured : Option (List Char × Key))
    (rest : List Key) (f : Option Key → Option α) :
    (ofMatch (.full captured rest) f).result? = f (captured.map (·.2)) := by
  rw [ofMatch]
  cases f (captured.map (·.2)) <;> rfl

theorem Found.isPartly_ofMatch_full {α : Type} (captured : Option (List Char × Key))
    (rest : List Key) (f : Option Key → Option α) :
    (ofMatch (.full captured rest) f).isPartly = false := by
  rw [ofMatch]
  cases f (captured.map (·.2)) <;> rfl

theorem TextObject.exists_parse_of_result? {o : TextObject} {u : Purpose} {p : Position}
    (h : (o.compute d u p keys).result?.isSome) :
    ∃ captured rest, o.pattern.parse keys = .full captured rest := by
  cases o <;> (rw [compute] at h; exact Found.exists_of_result?_ofMatch h)

/-- An object finds the same if the same key is captured. -/
theorem TextObject.result?_compute_congr {o : TextObject} {u : Purpose} {p : Position}
    {taken : List Key} {captured : Option (List Char × Key)} {rest rest' : List Key}
    (h : o.pattern.parse keys = .full captured rest)
    (h' : o.pattern.parse taken = .full captured rest') :
    (o.compute d u p keys).result? = (o.compute d u p taken).result? := by
  cases o <;>
  · simp only [pattern] at h h'
    simp only [compute, h, h', Found.result?_ofMatch_full]

/-- If an object is named somewhere, the first that is named has its keys used up, or an object is
named by fewer keys. -/
theorem TextObject.usesUp_or_named {objects : List TextObject} {u : Purpose} {ps : List Position}
    (hexact : ∀ o ∈ objects, o.pattern.Exact) {named : List Key → TextObject → Bool}
    (hnamed : ∀ keys o, named keys o = true ↔ ∃ p ∈ ps, (o.compute d u p keys).result?.isSome)
    (h : ∃ o ∈ objects, named keys o = true) :
    (∃ o captured, objects.find? (named keys) = some o ∧
      o.pattern.parse keys = .full captured []) ∨
    ∃ taken, taken ≠ [] ∧ taken <+: keys ∧ taken ≠ keys ∧ ∃ o ∈ objects, named taken o = true := by
  obtain ⟨o, ho⟩ := Option.isSome_iff_exists.1 (List.find?_isSome.2 h)
  have hmem := List.mem_of_find?_eq_some ho
  obtain ⟨p, hp, hfound⟩ := (hnamed keys o).1 (List.find?_some ho)
  obtain ⟨captured, rest, hparse⟩ := exists_parse_of_result? hfound
  rcases (hexact o hmem).cases hparse with rfl | ⟨taken, hne, hprefix, hproper, htaken⟩
  · exact .inl ⟨o, captured, ho, hparse⟩
  · refine .inr ⟨taken, hne, hprefix, hproper, o, hmem, (hnamed taken o).2 ⟨p, hp, ?_⟩⟩
    rwa [← result?_compute_congr hparse htaken]

theorem OperatorKind.isSome_targetsOf_iff {u : Purpose} {sels : List Selection} {o : TextObject} :
    (targetsOf d u sels keys o).isSome = true ↔
      ∃ p ∈ sels.map (·.active), (o.compute d u p keys).result?.isSome := by
  simp [targetsOf]

/-- An object that finds something is called by the keys. -/
theorem OperatorKind.isFull_of_targetsOf {u : Purpose} {sels : List Selection} {o : TextObject}
    (h : (targetsOf d u sels keys o).isSome = true) : (o.pattern.parse keys).isFull = true := by
  obtain ⟨p, -, hresult⟩ := isSome_targetsOf_iff.1 h
  exact TextObject.isFull_of_result? hresult

theorem State.isSome_rangesAtHeads_iff {o : TextObject} :
    (s.rangesAtHeads d keys o).isSome = true ↔
      ∃ p ∈ s.selections.map (s.head d),
        (o.compute d ⟨none, s.session.lastFind⟩ p keys).result?.isSome := by
  simp [rangesAtHeads, objectsAtHeads]

/-- A motion looks from places that do not depend on the keys. -/
theorem State.found_eq (s : State) (d : Document) (m : Motion) :
    ∃ u, ∃ ps : List Position, ∀ keys,
      s.found d m keys = ps.map fun p => m.compute d u p keys := by
  by_cases hvisual : s.mode.isVisual = true
  · refine ⟨⟨s.session.lastFind, true⟩, s.selections.map (s.head d), fun keys => ?_⟩
    simp [found, hvisual, headArrivals]
  · refine ⟨⟨s.session.lastFind, false⟩, s.selections.map (·.active), fun keys => ?_⟩
    simp [found, hvisual, arrivals]

namespace Action

/-- An operator asks for its key and one more. -/
theorem call_operator_eq_inr {kind : OperatorKind} {c : Call} :
    (operator kind).call keys = .inr c ↔
      ∃ rest, keys = kind.key :: rest ∧ rest ≠ [] ∧ c = .compose kind rest := by
  match keys with
  | [] => simp [call, Pattern.parseLiteral, Match.called]
  | [k] => by_cases hk : kind.key = k <;> simp [call, Pattern.parseLiteral, Match.called, hk]
  | k :: k' :: rest =>
    by_cases hk : kind.key = k
    · simp [call, Pattern.parseLiteral, Match.called, hk, eq_comm]
    · simp [call, Pattern.parseLiteral, Match.called, hk, Ne.symm hk]

/-- What is called by an exact pattern is called by fewer keys, or all are used up. -/
theorem usesUp_or_acts_of_called {a : Action} {p : Pattern} {f : Option Key → Called}
    (hp : p.Exact) (hcall : ∀ keys, a.call keys = (p.parse keys).called fun key _ => f key)
    (h : a.Acts keys d s) :
    (∃ captured, p.parse keys = .full captured []) ∨ ∃ taken, taken ≠ [] ∧ taken <+: keys ∧
      taken ≠ keys ∧ a.Acts taken d s := by
  obtain ⟨c, hc, hacts⟩ := h
  rw [hcall] at hc
  obtain ⟨captured, rest, hparse, hc⟩ := Match.exists_full_of_called hc
  rcases hp.cases hparse with rfl | ⟨taken, hne, hprefix, hproper, htaken⟩
  · exact .inl ⟨captured, hparse⟩
  · refine .inr ⟨taken, hne, hprefix, hproper, c, ?_, hacts⟩
    rw [hcall, htaken]
    exact hc

/-- **An action that does not use up the keys acts on fewer of them.** -/
theorem usesUp_or_acts {a : Action} (ha : a.Exact) (h : a.Acts keys d s) :
    a.UsesUp keys d s ∨ ∃ taken, taken ≠ [] ∧ taken <+: keys ∧ taken ≠ keys ∧
      a.Acts taken d s := by
  cases a with
  | command name modes pattern c =>
    exact usesUp_or_acts_of_called (f := fun key => .inr (.command c key)) ha (fun _ => rfl) h
  | onSelection name pattern kind =>
    exact usesUp_or_acts_of_called (f := fun _ => .inr (.operate kind)) ha (fun _ => rfl) h
  | shorthand name pattern kind object =>
    exact usesUp_or_acts_of_called (f := fun _ => .inr (.shorthand kind object)) ha (fun _ => rfl) h
  | bound b =>
    exact usesUp_or_acts_of_called (f := fun _ => .inr (.execute b)) ha (fun _ => rfl) h
  | typing =>
    obtain ⟨c, hc, -⟩ := h
    simp only [call] at hc
    split at hc
    · split at hc
      · exact .inl ⟨_, _, rfl, ‹_›⟩
      · cases hc
    · cases hc
  | selectObject =>
    obtain ⟨c, hc, hacts⟩ := h
    cases hc
    have hfound := List.findSome?_isSome_iff.1 hacts
    rcases TextObject.usesUp_or_named (fun o => TextObject.exact_structures)
      (fun keys o => State.isSome_rangesAtHeads_iff) hfound with
      hused | ⟨taken, hne, hprefix, hproper, htaken⟩
    · exact .inl hused
    · exact .inr ⟨taken, hne, hprefix, hproper, _, rfl, List.findSome?_isSome_iff.2 htaken⟩
  | operator kind =>
    obtain ⟨c, hc, hacts⟩ := h
    obtain ⟨rest, rfl, -, rfl⟩ := call_operator_eq_inr.1 hc
    have hfound := List.findSome?_isSome_iff.1 hacts
    rcases TextObject.usesUp_or_named (fun o => TextObject.exact_behind)
      (fun keys o => OperatorKind.isSome_targetsOf_iff) hfound with
      ⟨o, captured, ho, hparse⟩ | ⟨taken, hne, hprefix, hproper, htaken⟩
    · exact .inl ⟨rest, o, captured, rfl, ho, hparse⟩
    · refine .inr ⟨kind.key :: taken, List.cons_ne_nil _ _, ?_, ?_, _,
        call_operator_eq_inr.2 ⟨taken, rfl, hne, rfl⟩, List.findSome?_isSome_iff.2 htaken⟩
      · exact (List.prefix_cons_inj _).2 hprefix
      · exact fun heq => hproper (List.cons.inj heq).2
  | motion m =>
    obtain ⟨c, hc, hacts⟩ := h
    obtain rfl : c = .move m keys := by
      rw [call] at hc
      split at hc <;> cases hc
      rfl
    obtain ⟨u, ps, hfound⟩ := s.found_eq d m
    obtain ⟨p, hp, hsome⟩ : ∃ p ∈ ps, (m.compute d u p keys).result?.isSome := by
      simpa [hfound] using hacts.2
    obtain ⟨captured, rest, hparse⟩ := Found.exists_of_result?_ofMatch hsome
    rcases ha.cases hparse with rfl | ⟨taken, hne, hprefix, hproper, htaken⟩
    · exact .inl ⟨captured, hparse⟩
    · refine .inr ⟨taken, hne, hprefix, hproper, .move m taken, ?_, ?_, ?_⟩
      · rw [call, htaken]
      · simp [hfound, Motion.compute, htaken, Found.isPartly_ofMatch_full]
      · simp only [Motion.compute, hparse, Found.result?_ofMatch_full] at hsome
        simp only [hfound, List.any_map, List.any_eq_true, Function.comp_apply, Motion.compute,
          htaken, Found.result?_ofMatch_full]
        exact ⟨p, hp, hsome⟩

end Action

end ModalEdit
