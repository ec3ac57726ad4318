import ModalEdit.Proofs.Action.Home
import ModalEdit.Proofs.Engine.Frame
import ModalEdit.Proofs.Operator.Ranges
import ModalEdit.Proofs.Selection.Cover

/-!
# What actions lead to

`Call.edits` is the batch of edits of what the keys call, and `Action.edits` that of an action. From
a sound state a call that belongs in the mode leads to a sound state by its batch, and fails only if
the editor refuses (`Call.leads`). So does every action at home (`Action.leads`).
-/

namespace ModalEdit

variable {rule : CursorRule} {s : State} {d : Document}

/-! ### Batches -/

/-- The batch of an operator on the text object that the keys name. -/
def OperatorKind.composeEdits (kind : OperatorKind) (d : Document) (keys : List Key) (s : State) :
    List Edit :=
  match (TextObject.wholeLine kind :: TextObject.defaults).findSome?
      (targetsOf d ⟨some kind, s.session.lastFind⟩ s.selections keys) with
  | some found => kind.edits d (rangesOf found)
  | none => []

/-- The batch of an operator on the selections. -/
def State.operateEdits (s : State) (d : Document) (kind : OperatorKind) : List Edit :=
  kind.edits d ((s.selectedTargets d kind).filterMap (·.2))

/-- The batch of a call. -/
def Call.edits (settings : Settings) (d : Document) (s : State) : Call → List Edit
  | command c key => c.edits settings d key s
  | type t => s.typeEdits d t
  | operate kind => s.operateEdits d kind
  | shorthand kind object => kind.composeEdits d object s
  | compose kind keys => kind.composeEdits d keys s
  | selectObject _ | move .. | execute _ => []

/-- The batch that an action makes for the keys typed so far; empty if they do not call it. -/
def Action.edits (a : Action) (settings : Settings) (d : Document) (keys : List Key) (s : State) :
    List Edit :=
  match a.call keys with
  | .inr c => c.edits settings d s
  | .inl _ => []

theorem State.fits_selectedTargets (hs : s.Sound rule d) (hmode : s.mode.isVisual = true)
    {kind : OperatorKind} {r : Range} (h : r ∈ (s.selectedTargets d kind).filterMap (·.2)) :
    d.Fits r := by
  obtain ⟨t, ht, hr⟩ := List.mem_filterMap.1 h
  obtain ⟨sel, hsel, rfl⟩ := List.mem_map.1 ht
  cases hr
  exact fits_selectedRange (hs.holds_of_visual hmode hsel)

theorem State.length_operateEdits_le (kind : OperatorKind) :
    (s.operateEdits d kind).length ≤ s.selections.length := by
  refine Nat.le_trans (OperatorKind.length_edits_le kind _) ?_
  refine Nat.le_trans (List.length_filterMap_le _ _) (Nat.le_of_eq ?_)
  exact List.length_map _

theorem OperatorKind.fits_composeEdits {kind : OperatorKind} {keys : List Key} {e : Edit}
    (h : e ∈ kind.composeEdits d keys s) : d.Fits e.range := by
  unfold composeEdits at h
  split at h
  · obtain ⟨o, -, ho⟩ := List.exists_of_findSome?_eq_some ‹_›
    exact fits_edits (fun r hr => ((fits_of_targetsOf ho).2 r hr).fits) h
  · simp at h

theorem OperatorKind.length_composeEdits_le (kind : OperatorKind) (keys : List Key) :
    (kind.composeEdits d keys s).length ≤ s.selections.length := by
  unfold composeEdits
  split
  · obtain ⟨o, -, ho⟩ := List.exists_of_findSome?_eq_some ‹_›
    rw [← (fits_of_targetsOf ho).1]
    exact Nat.le_trans (length_edits_le kind _) (List.length_filterMap_le _ _)
  · exact Nat.zero_le _

/-- Where it belongs, a call makes edits that fit. -/
theorem Call.fits_edits {c : Call} {settings : Settings} (hs : s.Sound rule d)
    (hc : c.Belongs s.mode) {e : Edit} (h : e ∈ c.edits settings d s) : d.Fits e.range := by
  cases c with
  | command c key => exact c.fits_edits settings key hs hc h
  | type t =>
    have hmode : s.mode ≠ .normal := fun hm => nomatch hm.symm.trans hc
    exact State.fits_typeEdits (fun _ => hs.holds hmode) h
  | operate kind => exact OperatorKind.fits_edits (fun _ => State.fits_selectedTargets hs hc) h
  | shorthand kind object => exact OperatorKind.fits_composeEdits h
  | compose kind keys => exact OperatorKind.fits_composeEdits h
  | selectObject keys | move m keys | execute b => exact absurd h List.not_mem_nil

/-- There is at most one edit for each selection. -/
theorem Call.length_edits_le (c : Call) (settings : Settings) :
    (c.edits settings d s).length ≤ s.selections.length := by
  cases c with
  | command c key => exact c.length_edits_le settings key
  | type t => exact State.length_typeEdits_le t
  | operate kind => exact State.length_operateEdits_le kind
  | shorthand kind object => exact kind.length_composeEdits_le object
  | compose kind keys => exact kind.length_composeEdits_le keys
  | selectObject keys | move m keys | execute b => exact Nat.zero_le _

/-! ### Operators -/

theorem State.Leads.congr {edits : List Edit} {s' s'' : State} (h : s.Leads rule d edits s')
    (hdoc : s''.editor.document = s'.editor.document) (hsels : s''.selections = s'.selections)
    (hmode : s''.mode = s'.mode) (haccess : s''.access = s'.access) :
    s.Leads rule d edits s'' := by
  obtain ⟨⟨after, plan, hedit, hs⟩, hlen, hacc⟩ := h
  exact ⟨⟨after, plan, hedit, hs.congr hdoc hsels hmode⟩, hsels ▸ hlen, haccess.trans hacc⟩

theorem OperatorKind.compose_leads (hs : s.Sound rule d) (kind : OperatorKind)
    (settings : Settings) (keys : List Key) :
    (kind.compose settings d keys).Ends s (fun _ => s.Leads rule d (kind.composeEdits d keys s))
      fun _ _ => s.Refuses := by
  simp only [compose, composeEdits, Step.ends_bind, Step.ends_get]
  cases hfound : (TextObject.wholeLine kind :: TextObject.defaults).findSome?
      (targetsOf d ⟨some kind, s.session.lastFind⟩ s.selections keys) with
  | some found =>
    obtain ⟨o, -, ho⟩ := List.exists_of_findSome?_eq_some hfound
    obtain ⟨hlen, hspan⟩ := fits_of_targetsOf ho
    have hpos := hs.length_pos
    have hne : found.map (fun t => (t.1, t.2.map (·.range))) ≠ [] := by
      rw [← List.length_pos_iff, List.length_map]
      omega
    have hranges := filterMap_targets found
    simp only [Step.ends_bind, Step.ends_modify, Step.ends_pure]
    have h := Step.apply_leads hs kind settings.placement hne (by simp; omega)
      (by rw [hranges]; exact fun r hr => (hspan r hr).fits) false
    rw [hranges] at h
    exact h.mono (fun _ s' h => h.congr rfl rfl rfl rfl) fun _ _ h => h
  | none =>
    simp only [Step.ends_pure]
    exact .refl hs

theorem OperatorKind.isSome_targetsOf {objects : List TextObject} {u : Purpose} {keys : List Key}
    (h : TextObject.AlwaysFound objects keys) (hne : s.selections ≠ []) :
    (objects.findSome? (targetsOf d u s.selections keys)).isSome := by
  obtain ⟨o, ho, hfound⟩ := h
  obtain ⟨sel, sels, hsels⟩ := List.exists_cons_of_ne_nil hne
  rw [List.findSome?_isSome_iff]
  refine ⟨o, ho, ?_⟩
  simp [targetsOf, hsels, hfound]

/-- Where the object is always found the operator always runs. -/
theorem OperatorKind.compose_executed (hs : s.Sound rule d) (kind : OperatorKind)
    (settings : Settings) {keys : List Key}
    (h : TextObject.AlwaysFound (.wholeLine kind :: TextObject.defaults) keys) :
    (kind.compose settings d keys).Ends s (fun r _ => r = .executed) fun _ _ => True := by
  simp only [compose, Step.ends_bind, Step.ends_get]
  cases hfound : (TextObject.wholeLine kind :: TextObject.defaults).findSome?
      (targetsOf d ⟨some kind, s.session.lastFind⟩ s.selections keys) with
  | some found =>
    simp only [Step.ends_bind, Step.ends_modify, Step.ends_pure]
    have hatomic := Step.atomic_apply hs.document kind settings.placement
      (found.map fun t => (t.1, t.2.map (·.range))) false
    exact hatomic.mono (fun _ _ _ => trivial) fun _ _ _ => trivial
  | none =>
    have := isSome_targetsOf (u := ⟨some kind, s.session.lastFind⟩) (d := d) h hs.ne_nil
    simp [hfound] at this

/-- Where the object is always found, a change has come to Insert mode by itself. -/
theorem OperatorKind.shorthand_leads (hs : s.Sound rule d) (kind : OperatorKind)
    (settings : Settings) {object : List Key}
    (h : kind = .change →
      TextObject.AlwaysFound (.wholeLine .change :: TextObject.defaults) object) :
    (do
      let reply ← kind.compose settings d object
      if reply ≠ .executed ∧ kind = .change then modify (·.setMode .insert)
      return .executed : Step Reply).Ends s
        (fun _ => s.Leads rule d (kind.composeEdits d object s)) fun _ _ => s.Refuses := by
  have hleads := compose_leads hs kind settings object
  rw [Step.ends_bind]
  by_cases hkind : kind = .change
  · subst hkind
    refine (hleads.and (compose_executed hs .change settings (h rfl))).mono (fun r s' h => ?_)
      fun _ _ h => h.1
    simpa [h.2] using h.1
  · refine hleads.mono (fun r s' h => ?_) fun _ _ h => h
    simpa [hkind] using h

theorem Step.operate_leads (hs : s.Sound rule d) (hmode : s.mode.isVisual = true)
    (settings : Settings) (kind : OperatorKind) :
    (operate settings d kind).Ends s
      (fun _ => s.Leads rule d (s.operateEdits d kind)) fun _ _ => s.Refuses := by
  rw [operate, ends_bind, ends_get]
  refine apply_leads hs kind _ ?_ (Nat.le_of_eq (List.length_map _))
    (fun _ => State.fits_selectedTargets hs hmode) true
  simpa [State.selectedTargets] using hs.ne_nil

/-! ### Motions -/

theorem Motion.target_of_compute {m : Motion} {u : Surroundings} {p : Position} {keys : List Key}
    {a : Arrival} (h : (m.compute d u p keys).result? = some a) :
    if m.walk.keepsColumn then a.target = p.up ∨ a.target = d.down p else d.InBounds a.target := by
  cases hc : m.compute d u p keys with
  | some a' rest =>
    rw [hc] at h
    cases h
    obtain ⟨key, h⟩ := Found.ofMatch_eq_some hc
    exact Walk.target_of_take? h
  | partly => simp [hc, Found.result?] at h
  | none => simp [hc, Found.result?] at h

theorem Step.moveCursors_leads (hs : s.Sound rule d) (hmode : s.mode = .normal)
    (settings : Settings) (m : Motion) (keys : List Key) {E : EditorError → State → Prop} :
    (moveCursors settings d m keys).Ends s (fun _ => s.Leads rule d []) E := by
  simp only [moveCursors, ends_bind, ends_get]
  split
  · exact .refl hs
  · split
    · simp only [ends_bind, ends_modify, ends_pure]
      refine .of_sound (State.sound_of_normal hs.document rfl hmode ?_ fun p hp => ?_) ?_ rfl
      · simpa [State.arrivals] using hs.ne_nil
      · simp only [State.arrivals, List.map_map, List.mem_map, Function.comp_apply] at hp
        obtain ⟨sel, hsel, rfl⟩ := hp
        have hcursor := hs.suits sel hsel
        rw [hmode] at hcursor
        cases hres : (m.compute d ⟨s.session.lastFind, false⟩ sel.active keys).result? with
        | none => exact hcursor.2
        | some a =>
          have htarget := Motion.target_of_compute hres
          simp only [Option.map_some, Option.getD_some]
          split
          · rename_i hkeeps
            rw [if_pos hkeeps] at htarget
            rcases htarget with h | h
            · rw [h]
              exact rule.up hcursor.2
            · rw [h]
              exact rule.down hcursor.2
          · exact rule.of_inBounds (settings.placement.inBounds_clamp _)
      · exact State.length_setCursors_le (by simp [State.arrivals])
    · exact .refl hs

theorem State.inBounds_head {sel : Selection} (h : d.Holds sel) : d.InBounds (s.head d sel) := by
  unfold head
  split
  · exact Document.inBounds_lineStart (Document.lineEndpoints_lt h).2
  · exact (Document.inBounds_charEndpoints h).2

theorem line_lt_of_target {keeps : Bool} {p q : Position} (hp : d.InBounds p)
    (h : if keeps then q = p.up ∨ q = d.down p else d.InBounds q) : q.line < d.lineCount := by
  cases keeps with
  | true =>
    rcases h with rfl | rfl
    · exact CursorRule.onLine.up hp.1
    · exact CursorRule.onLine.down hp.1
  | false => exact h.1

/-- A selection looks right after its head has been moved to a line that exists. -/
theorem State.suits_moveHead (hs : s.Sound rule d) (hmode : s.mode.isVisual = true)
    {sel : Selection} (hsel : sel ∈ s.selections) {target : Position}
    (htarget : target.line < d.lineCount) : (s.moveHead d sel target).Suits rule d s.mode := by
  have hsel := hs.holds_of_visual hmode hsel
  refine suits_of_visual hmode (fun h => ?_) fun h => ?_
  · simp only [moveHead, h, reduceCtorEq, ↓reduceIte]
    exact Document.holds_covering (Document.inBounds_charEndpoints hsel).1 (d.inBounds_clampChar _)
  · simp only [moveHead, h, ↓reduceIte]
    exact ⟨_, _, (Document.lineEndpoints_lt hsel).1, htarget, rfl⟩

theorem Step.extend_leads (hs : s.Sound rule d) (hmode : s.mode.isVisual = true) (m : Motion)
    (keys : List Key) {E : EditorError → State → Prop} :
    (extend d m keys).Ends s (fun _ => s.Leads rule d []) E := by
  simp only [extend, ends_bind, ends_get]
  split
  · exact .refl hs
  · split
    · simp only [ends_bind, ends_modify, ends_pure]
      refine .of_selected hs rfl rfl (by simp [State.headArrivals]) rfl hmode fun sel' hsel' => ?_
      simp only [State.headArrivals, List.map_map, State.selections_select, List.mem_map,
        Function.comp_apply] at hsel'
      obtain ⟨sel, hsel, rfl⟩ := hsel'
      cases hres : (m.compute d ⟨s.session.lastFind, true⟩ (s.head d sel) keys).result? with
      | none => exact hs.suits sel hsel
      | some a =>
        have hhead := State.inBounds_head (s := s) (hs.holds_of_visual hmode hsel)
        exact State.suits_moveHead hs hmode hsel
          (line_lt_of_target hhead (Motion.target_of_compute hres))
    · exact .refl hs

/-! ### Calls and actions -/

/-- **What a call leads to.** Where it belongs it makes its batch and keeps the state sound, unless
the editor refuses. -/
theorem Call.leads (c : Call) (settings : Settings) (hs : s.Sound rule d)
    (hc : c.Belongs s.mode) :
    (c.run settings).Ends s (fun _ => s.Leads rule d (c.edits settings d s))
      fun _ _ => s.Refuses := by
  have hopen {go : Document → Step Reply} {edits : List Edit}
      (h : (go d).Ends s (fun _ => s.Leads rule d edits) fun _ _ => s.Refuses) :
      (Step.withDocument go).Ends s (fun _ => s.Leads rule d edits) fun _ _ => s.Refuses :=
    (Step.ends_withDocument_of_some hs.document).2 h
  cases c with
  | command c key =>
    refine hopen ?_
    rw [Step.ends_bind]
    exact c.leads settings key hs hc
  | type t =>
    refine hopen ?_
    rw [Step.ends_bind]
    exact Step.type_leads hs hc t
  | operate kind =>
    refine hopen ?_
    rw [Step.ends_bind]
    exact Step.operate_leads hs hc settings kind
  | selectObject keys => exact hopen (Step.selectObject_leads hs hc keys)
  | shorthand kind object => exact hopen (OperatorKind.shorthand_leads hs kind settings hc)
  | compose kind keys => exact hopen (OperatorKind.compose_leads hs kind settings keys)
  | move m keys =>
    refine hopen ?_
    rw [Step.ends_bind, Step.ends_get]
    split
    · exact Step.extend_leads hs ‹_› m keys
    · exact Step.moveCursors_leads hs (hc.resolve_left ‹_›) settings m keys
  | execute b =>
    rw [run, Step.ends_bind, Step.ends_execute]
    refine ⟨fun _ => ?_, fun hrefusing => .inl fun haccess => ?_⟩
    · exact .of_sound (hs.congr rfl rfl rfl) (Nat.le_refl _) rfl
    · simp [State.access, hrefusing] at haccess

/-- **What an action leads to.** In a mode in which it is offered it makes its batch and keeps the
state sound, unless the editor refuses. -/
theorem Action.leads (a : Action) (settings : Settings) (keys : List Key) (ha : a.AtHome)
    (hs : s.Sound rule d) (hmode : a.modes.has s.mode) :
    (a.answer settings keys).Ends s (fun _ => s.Leads rule d (a.edits settings d keys s))
      fun _ _ => s.Refuses := by
  rw [answer_eq, edits]
  cases h : a.call keys with
  | inl reply => exact .refl hs
  | inr c => exact c.leads settings hs (belongs_of_call ha hmode h)

theorem Action.fits_edits (a : Action) (settings : Settings) (keys : List Key) (ha : a.AtHome)
    (hs : s.Sound rule d) (hmode : a.modes.has s.mode) {e : Edit}
    (he : e ∈ a.edits settings d keys s) : d.Fits e.range := by
  rw [edits] at he
  cases h : a.call keys with
  | inl reply =>
    rw [h] at he
    exact absurd he List.not_mem_nil
  | inr c =>
    rw [h] at he
    exact Call.fits_edits hs (belongs_of_call ha hmode h) he

theorem Action.length_edits_le (a : Action) (settings : Settings) (keys : List Key) :
    (a.edits settings d keys s).length ≤ s.selections.length := by
  rw [edits]
  cases a.call keys with
  | inl reply => exact Nat.zero_le _
  | inr c => exact c.length_edits_le settings

end ModalEdit
