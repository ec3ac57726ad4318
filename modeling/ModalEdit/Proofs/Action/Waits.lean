import ModalEdit.Proofs.Action.Acts
import ModalEdit.Proofs.Pattern.KeyByKey

/-!
# What an action does with keys, whatever the document

Whether an action runs on the keys typed so far also depends on the document and the selections, but
its patterns alone say on which keys it can run (`Action.mayRun_of_answer`) and behind which keys it
can wait for more (`Action.ends_mayWait`). A text object waits behind one of a few keys
(`TextObject.keys_of_parse_eq_partly`).
-/

namespace ModalEdit

variable {d : Document} {s : State} {settings : Settings} {keys : List Key}

/-! ### Beginnings of matches -/

theorem Pattern.parseLiteral_eq_partly {ks : List Key} (h : parseLiteral ks keys = .partly) :
    keys <+: ks ∧ keys ≠ ks := by
  fun_induction parseLiteral ks keys with
  | case1 => cases h
  | case2 k ks => exact ⟨List.nil_prefix, (List.cons_ne_nil k ks).symm⟩
  | case3 ks l ls ih =>
    obtain ⟨hfront, hne⟩ := ih h
    exact ⟨(List.prefix_cons_inj l).2 hfront, fun heq => hne (List.cons.inj heq).2⟩
  | case4 => cases h

/-- One fixed key is not waited for behind other keys. -/
theorem Pattern.eq_nil_of_parseLiteral_eq_partly {k : Key}
    (h : parseLiteral [k] keys = .partly) : keys = [] := by
  obtain ⟨hfront, hne⟩ := parseLiteral_eq_partly h
  have hlt : keys.length < 1 := by
    refine Nat.lt_of_le_of_ne hfront.length_le fun hlen => hne (hfront.eq_of_length hlen)
  exact List.length_eq_zero_iff.1 (Nat.lt_one_iff.1 hlt)

theorem Found.eq_partly_of_ofMatch {α : Type} {m : Match} {f : Option Key → Option α}
    (h : (ofMatch m f).isPartly = true) : m = .partly := by
  cases m with
  | full captured rest => rw [isPartly_ofMatch_full] at h; cases h
  | partly => rfl
  | none => cases h

namespace TextObject

variable {kind : OperatorKind} {o : TextObject}

theorem parse_eq_partly_of_compute {u : Purpose} {p : Position}
    (h : (o.compute d u p keys).isPartly = true) : o.pattern.parse keys = .partly := by
  cases o <;> (rw [compute] at h; exact Found.eq_partly_of_ofMatch h)

/-- The keys behind which an object waits for one more. -/
def leads : List Key := ['i', 'a', 'g', 'f', 'F', 't', 'T'].map .char

/-- **An object waits for its first key or behind one of a few keys.** -/
theorem keys_of_parse_eq_partly (ho : o ∈ behind kind) (h : o.pattern.parse keys = .partly) :
    keys = [] ∨ ∃ k ∈ leads, keys = [k] := by
  rcases exists_fixedKeys_or_search ho with ⟨ks, hks⟩ | ⟨c, hc⟩
  · rw [pattern_of_fixedKeys? hks] at h
    rcases (fixedKeys_spec ho hks).1 with hlen | hlen
    · obtain ⟨k, rfl⟩ := List.length_eq_one_iff.1 hlen
      exact .inl (Pattern.eq_nil_of_parseLiteral_eq_partly h)
    · have hall : ∀ ks ∈ (behind kind).filterMap fixedKeys?, ks.length = 2 →
          ∀ k ∈ ks.head?, k ∈ leads := by
        cases kind <;> decide +kernel
      obtain ⟨k, k', rfl⟩ := List.length_eq_two.1 hlen
      have hlead := hall _ (List.mem_filterMap.2 ⟨o, ho, hks⟩) rfl k rfl
      obtain ⟨hfront, hne⟩ := Pattern.parseLiteral_eq_partly h
      match keys with
      | [] => exact .inl rfl
      | [l] => exact .inr ⟨k, hlead, by rw [(List.cons_prefix_cons.1 hfront).1]⟩
      | l :: l' :: rest =>
        refine absurd (hfront.eq_of_length_le ?_) hne
        simp
  · obtain ⟨hplain, hpattern⟩ := pattern_of_mem_searches hc
    have hall : ∀ x ∈ searches, .char x.1 ∈ leads := by decide
    rw [hpattern] at h
    exact (Placeholder.parse_after_eq_partly hplain h).imp_right fun hkeys => ⟨_, hall _ hc, hkeys⟩

end TextObject

/-! ### Calls -/

/-- A selection of a text object waits only if one of the objects does. -/
theorem Step.ends_selectObject_partly (d : Document) (keys : List Key) (s : State) :
    (selectObject d keys).Ends s
      (fun r _ => r = .needsMore → ∃ o ∈ TextObject.structures, o.pattern.parse keys = .partly)
      fun _ _ => True := by
  simp only [selectObject, ends_bind, ends_get]
  split
  · simp only [ends_bind, ends_modify]
    split <;> rintro ⟨⟩
  · split
    · rename_i hany
      simp only [State.objectsAtHeads, List.any_map, List.any_eq_true, Function.comp_apply] at hany
      obtain ⟨o, ho, sel, -, hpartly⟩ := hany
      exact fun _ => ⟨o, ho, TextObject.parse_eq_partly_of_compute hpartly⟩
    · rintro ⟨⟩

/-- An operator with the keys of an object waits only if one of the objects does. -/
theorem OperatorKind.ends_compose_partly (kind : OperatorKind) (settings : Settings)
    (d : Document) (keys : List Key) (s : State) :
    (kind.compose settings d keys).Ends s
      (fun r _ => r = .needsMore → ∃ o ∈ TextObject.behind kind, o.pattern.parse keys = .partly)
      fun _ _ => True := by
  simp only [compose, Step.ends_bind, Step.ends_get]
  split
  · rw [Step.ends_bind]
    refine (Step.ends_true _ s).mono (fun _ _ _ => ?_) fun _ _ h => h
    rintro ⟨⟩
  · split
    · rename_i hawaits
      simp only [awaits, List.any_eq_true] at hawaits
      obtain ⟨o, ho, sel, -, hpartly⟩ := hawaits
      exact fun _ => ⟨o, ho, TextObject.parse_eq_partly_of_compute hpartly⟩
    · rintro ⟨⟩

/-- A motion of the cursors waits only for its own keys. -/
theorem Step.ends_moveCursors_partly (settings : Settings) (d : Document) (m : Motion)
    (keys : List Key) (s : State) :
    (moveCursors settings d m keys).Ends s
      (fun r _ => r = .needsMore → m.pattern.parse keys = .partly) fun _ _ => True := by
  simp only [moveCursors, ends_bind, ends_get]
  split
  · rename_i hany
    simp only [State.arrivals, List.any_map, List.any_eq_true, Function.comp_apply] at hany
    obtain ⟨sel, -, hpartly⟩ := hany
    exact fun _ => Found.eq_partly_of_ofMatch hpartly
  · split <;> rintro ⟨⟩

/-- A motion that extends the selections waits only for its own keys. -/
theorem Step.ends_extend_partly (d : Document) (m : Motion) (keys : List Key) (s : State) :
    (extend d m keys).Ends s (fun r _ => r = .needsMore → m.pattern.parse keys = .partly)
      fun _ _ => True := by
  simp only [extend, ends_bind, ends_get]
  split
  · rename_i hany
    simp only [State.headArrivals, List.any_map, List.any_eq_true, Function.comp_apply] at hany
    obtain ⟨sel, -, hpartly⟩ := hany
    exact fun _ => Found.eq_partly_of_ofMatch hpartly
  · split <;> rintro ⟨⟩

/-- What is called can wait for more keys. -/
def Call.MayWait : Call → Prop
  | selectObject keys => ∃ o ∈ TextObject.structures, o.pattern.parse keys = .partly
  | compose kind keys => ∃ o ∈ TextObject.behind kind, o.pattern.parse keys = .partly
  | move m keys => m.pattern.parse keys = .partly
  | command .. | type _ | operate _ | shorthand .. | execute _ => False

/-- **What is called waits for no other keys.** -/
theorem Call.ends_mayWait (c : Call) (settings : Settings) (s : State) :
    (c.run settings).Ends s (fun r _ => r = .needsMore → c.MayWait) fun _ _ => True := by
  have hopen {go : Document → Step Reply}
      (h : ∀ d, (go d).Ends s (fun r _ => r = .needsMore → c.MayWait) fun _ _ => True) :
      (Step.withDocument go).Ends s (fun r _ => r = .needsMore → c.MayWait) fun _ _ => True :=
    Step.ends_withDocument.2 ⟨fun d _ => h d, fun _ => trivial⟩
  -- What does not look for anything runs if it does not fail.
  have hran {α : Type} {m : Step α} {f : α → Step Reply}
      (hf : ∀ x s', (f x).Ends s' (fun r _ => r = .executed) fun _ _ => True) :
      (m >>= f).Ends s (fun r _ => r = .needsMore → c.MayWait) fun _ _ => True := by
    rw [Step.ends_bind]
    refine (Step.ends_true m s).mono (fun x s' _ => ?_) fun _ _ h => h
    refine (hf x s').mono (fun r _ hr hneeds => ?_) fun _ _ h => h
    cases hr.symm.trans hneeds
  cases c with
  | command c key => exact hopen fun d => hran fun _ _ => rfl
  | type t => exact hopen fun d => hran fun _ _ => rfl
  | operate kind => exact hopen fun d => hran fun _ _ => rfl
  | execute b => exact hran fun _ _ => rfl
  | shorthand kind object =>
    refine hopen fun d => hran fun r s' => ?_
    split <;> exact rfl
  | selectObject keys => exact hopen fun d => Step.ends_selectObject_partly d keys s
  | compose kind keys => exact hopen fun d => kind.ends_compose_partly settings d keys s
  | move m keys =>
    refine hopen fun d => ?_
    rw [Step.ends_bind, Step.ends_get]
    split
    · exact Step.ends_extend_partly d m keys s
    · exact Step.ends_moveCursors_partly settings d m keys s

/-! ### Actions -/

theorem Match.eq_partly_of_called {m : Match} {f : Option Key → List Key → Called}
    (h : m.called f = .inl .needsMore) :
    m = .partly ∨ ∃ captured rest, m = .full captured rest ∧
      f (captured.map (·.2)) rest = .inl .needsMore := by
  cases m with
  | full captured rest => exact .inr ⟨captured, rest, rfl, h⟩
  | partly => exact .inl rfl
  | none => cases h

namespace Action

variable {a : Action}

/-- The action can run on the keys, if it finds something to work on. -/
def mayRun (keys : List Key) : Action → Bool
  | command _ _ pattern _ | onSelection _ pattern _ | shorthand _ pattern _ _ =>
    (pattern.parse keys).isFull
  | typing =>
    match keys with
    | [key] => key.typed?.isSome
    | _ => false
  | selectObject => TextObject.structures.any fun o => (o.pattern.parse keys).isFull
  | operator kind =>
    match Pattern.parseLiteral [kind.key] keys with
    | .full _ rest => (TextObject.behind kind).any fun o => (o.pattern.parse rest).isFull
    | _ => false
  | motion m => (m.pattern.parse keys).isFull
  | bound b => (Pattern.parseLiteral b.keys keys).isFull

/-- The action can wait for more keys behind these. -/
def MayWait (keys : List Key) : Action → Prop
  | command _ _ pattern _ | onSelection _ pattern _ | shorthand _ pattern _ _ =>
    pattern.parse keys = .partly
  | typing => False
  | selectObject => ∃ o ∈ TextObject.structures, o.pattern.parse keys = .partly
  | operator kind => keys = [] ∨ ∃ rest, keys = kind.key :: rest ∧
    (rest = [] ∨ ∃ o ∈ TextObject.behind kind, o.pattern.parse rest = .partly)
  | motion m => m.pattern.parse keys = .partly
  | bound b => Pattern.parseLiteral b.keys keys = .partly

theorem isFull_of_called {m : Match} {f : Option Key → List Key → Called} {c : Call}
    (h : m.called f = .inr c) : m.isFull = true := by
  obtain ⟨captured, rest, rfl, -⟩ := Match.exists_full_of_called h
  rfl

/-- **An action runs on no other keys**, whatever the document and the selections are. -/
theorem Acts.mayRun (h : a.Acts keys d s) : a.mayRun keys = true := by
  obtain ⟨c, hcall, hacts⟩ := h
  cases a with
  | command | onSelection | shorthand | bound =>
    rw [call] at hcall
    exact isFull_of_called hcall
  | typing =>
    simp only [call] at hcall
    split at hcall
    · rename_i key
      split at hcall
      · rename_i t ht
        simp [Action.mayRun, ht]
      · cases hcall
    · cases hcall
  | selectObject =>
    cases hcall
    obtain ⟨o, ho, hfound⟩ := List.findSome?_isSome_iff.1 hacts
    obtain ⟨p, -, hresult⟩ := State.isSome_rangesAtHeads_iff.1 hfound
    exact List.any_eq_true.2 ⟨o, ho, TextObject.isFull_of_result? hresult⟩
  | operator kind =>
    obtain ⟨rest, rfl, -, rfl⟩ := call_operator_eq_inr.1 hcall
    obtain ⟨o, ho, hfound⟩ := List.findSome?_isSome_iff.1 hacts
    have hparse : Pattern.parseLiteral [kind.key] (kind.key :: rest) = .full none rest :=
      Pattern.parseLiteral_append [kind.key] rest
    simp only [Action.mayRun, hparse]
    exact List.any_eq_true.2 ⟨o, ho, OperatorKind.isFull_of_targetsOf hfound⟩
  | motion m =>
    simp only [call] at hcall
    split at hcall
    · cases hcall
    · cases hcall
      obtain ⟨u, ps, hplaces⟩ := s.found_eq d m
      obtain ⟨f, hf, hsome⟩ := List.any_eq_true.1 hacts.2
      rw [hplaces] at hf
      obtain ⟨p, -, rfl⟩ := List.mem_map.1 hf
      obtain ⟨captured, rest, hparse⟩ := Found.exists_of_result?_ofMatch hsome
      rw [Action.mayRun, hparse]
      rfl

/-- What has run has found something to work on; with no document only a command of the editor
runs. -/
theorem exists_acts_of_answer {s' : State} (h : a.answer settings keys s = .ok .executed s') :
    ∃ d, a.Acts keys d s := by
  cases hdoc : s.editor.document with
  | some d => exact ⟨d, ((a.ends_acts settings keys hdoc).of_ok h).1 rfl⟩
  | none =>
    have hfails (go : Document → Step Reply) :
        (Step.withDocument go).Ends s (fun _ _ => False) fun _ _ => True :=
      Step.ends_withDocument.2 ⟨fun d hd => absurd (hdoc.symm.trans hd) nofun, fun _ => trivial⟩
    rw [answer_eq] at h
    cases hcall : a.call keys with
    | inl reply =>
      rw [hcall] at h
      cases h
      exact absurd hcall (a.call_ne_executed keys)
    | inr c =>
      rw [hcall] at h
      cases c with
      | execute b => exact ⟨.ofText [], _, hcall, trivial⟩
      | _ => exact ((hfails _).of_ok h).elim

/-- An action runs on no other keys than those on which it can run. -/
theorem mayRun_of_answer {s' : State} (h : a.answer settings keys s = .ok .executed s') :
    a.mayRun keys = true := by
  obtain ⟨d, hacts⟩ := exists_acts_of_answer h
  exact hacts.mayRun

theorem mayWait_of_call (h : a.call keys = .inl .needsMore) : a.MayWait keys := by
  cases a with
  | command | onSelection | shorthand | bound =>
    rw [call] at h
    rcases Match.eq_partly_of_called h with hpartly | ⟨captured, rest, -, hf⟩
    · exact hpartly
    · cases hf
  | typing =>
    simp only [call] at h
    split at h
    · split at h <;> cases h
    · cases h
  | selectObject => cases h
  | operator kind =>
    rw [call] at h
    rcases Match.eq_partly_of_called h with hpartly | ⟨captured, rest, hfull, hf⟩
    · exact .inl (Pattern.eq_nil_of_parseLiteral_eq_partly hpartly)
    · refine .inr ⟨rest, Pattern.parseLiteral_eq_full hfull, .inl ?_⟩
      split at hf
      · exact List.isEmpty_iff.1 ‹_›
      · cases hf
  | motion m =>
    simp only [call] at h
    split at h <;> cases h

theorem mayWait_of_call_inr {c : Call} (h : a.call keys = .inr c) (hc : c.MayWait) :
    a.MayWait keys := by
  cases a with
  | command | onSelection | shorthand | bound =>
    rw [call] at h
    obtain ⟨captured, rest, -, hf⟩ := Match.exists_full_of_called h
    cases hf
    exact hc.elim
  | typing =>
    simp only [call] at h
    split at h
    · split at h
      · cases h
        exact hc.elim
      · cases h
    · cases h
  | selectObject =>
    cases h
    exact hc
  | operator kind =>
    obtain ⟨rest, rfl, -, rfl⟩ := call_operator_eq_inr.1 h
    exact .inr ⟨rest, rfl, .inr hc⟩
  | motion m =>
    simp only [call] at h
    split at h
    · cases h
    · cases h
      exact hc

/-- An action waits for no other keys, whatever the document and the selections are. -/
theorem ends_mayWait (a : Action) (settings : Settings) (keys : List Key) (s : State) :
    (a.answer settings keys).Ends s (fun r _ => r = .needsMore → a.MayWait keys)
      fun _ _ => True := by
  rw [answer_eq]
  cases hcall : a.call keys with
  | inl reply =>
    rintro rfl
    exact mayWait_of_call hcall
  | inr c =>
    refine (c.ends_mayWait settings s).mono (fun r _ h hr => ?_) fun _ _ h => h
    exact mayWait_of_call_inr hcall (h hr)

end Action

end ModalEdit
