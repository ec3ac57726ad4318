import ModalEdit.Proofs.Action.Waits
import ModalEdit.Proofs.Engine.RoundTrip
import ModalEdit.Proofs.Engine.UsesUp

/-!
# Motions of one cursor

The keys of a motion call no other action of Normal mode (`Engine.eq_or_declines_motion`). So with
one cursor they move it to where the walk leads (`Engine.handleKey_motion`), and run nothing if it
leads nowhere (`Engine.handleKey_motion_ne_executed`). The first of two keys waits
(`Engine.handleKey_motion_waits`).
-/

namespace ModalEdit

variable {d : Document} {s : State} {settings : Settings} {keys : List Key} {m : Motion}

/-! ### The action -/

namespace Action

/-- A motion waits for the rest of its keys. -/
theorem answer_motion_waits (hdoc : s.editor.document = some d) (hmode : s.mode = .normal)
    (hne : s.selections ≠ []) (hparse : m.pattern.parse keys = .partly) :
    (motion m).answer settings keys s = .ok .needsMore s := by
  have hvisual : s.mode.isVisual = false := by rw [hmode]; rfl
  have hwaits : (s.arrivals d m keys).any (·.2.isPartly) = true := by
    obtain ⟨sel, hsel⟩ := List.exists_mem_of_ne_nil _ hne
    refine List.any_eq_true.2 ⟨_, List.mem_map_of_mem hsel, ?_⟩
    rw [Motion.compute, hparse]
    rfl
  have hends : ((motion m).answer settings keys).Ends s (fun r s' => r = .needsMore ∧ s' = s)
      fun _ _ => False := by
    rw [answer, hparse]
    refine (Step.ends_withDocument_of_some hdoc).2 ?_
    rw [Step.ends_bind, Step.ends_get, hvisual]
    simp only [Bool.false_eq_true, ↓reduceIte, Step.moveCursors, Step.ends_bind, Step.ends_get,
      hwaits]
    exact ⟨rfl, rfl⟩
  obtain ⟨_, _, hanswer, rfl, rfl⟩ := hends.exists_ok
  exact hanswer

/-- A motion declines keys that are not all of its keys. -/
theorem declines_motion (hdoc : s.editor.document = some d) (hmode : s.mode = .normal)
    (hne : s.selections ≠ []) (h : (m.pattern.parse keys).isFull = false) :
    (motion m).Declines settings keys s := by
  cases hparse : m.pattern.parse keys with
  | none => exact ⟨.noMatch, by rintro ⟨⟩, by rw [answer, hparse]; rfl⟩
  | partly => exact ⟨.needsMore, by rintro ⟨⟩, answer_motion_waits hdoc hmode hne hparse⟩
  | full captured rest =>
    rw [hparse] at h
    cases h

variable {sel : Selection} {captured : Option (List Char × Key)} {rest : List Key}

/-- All of its keys take the cursor to where the walk leads, if it leads anywhere. -/
theorem ends_motion (settings : Settings) (hdoc : s.editor.document = some d)
    (hmode : s.mode = .normal) (hsel : s.selections = [sel])
    (h : m.pattern.parse keys = .full captured rest) :
    ((motion m).answer settings keys).Ends s (fun r s' =>
      match m.walk.take? d ⟨s.session.lastFind, false⟩ (captured.map (·.2)) sel.active with
      | some a => r = .executed ∧ s' = (s.remember a.find).setCursors
          [if m.walk.keepsColumn then a.target else settings.placement.clamp d a.target]
      | none => r = .noMatch ∧ s' = s) fun _ _ => False := by
  have hvisual : s.mode.isVisual = false := by rw [hmode]; rfl
  have hfound : s.arrivals d m keys = [(sel.active, Found.ofMatch (.full captured rest) fun key =>
      m.walk.take? d ⟨s.session.lastFind, false⟩ key sel.active)] := by
    rw [State.arrivals, hsel, List.map_singleton, Motion.compute, h]
  rw [answer, h]
  refine (Step.ends_withDocument_of_some hdoc).2 ?_
  rw [Step.ends_bind, Step.ends_get, hvisual]
  simp only [Bool.false_eq_true, ↓reduceIte, Step.moveCursors, Step.ends_bind, Step.ends_get,
    hfound]
  cases htake : m.walk.take? d ⟨s.session.lastFind, false⟩ (captured.map (·.2)) sel.active with
  | none => simp [Found.ofMatch, htake, Found.isPartly, Found.result?]
  | some a =>
    simp [Found.ofMatch, htake, Found.isPartly, Found.result?, firstFind, Step.ends_bind,
      Step.ends_modify, -bind_pure_comp]

end Action

/-! ### The key -/

namespace Engine

variable {e : Engine} {ed : Editor} {key k : Key} {ks : List Key} {sel : Selection}
  {captured : Option (List Char × Key)}

/-- Actions that all decline the keys run nothing. -/
theorem handleKey_ne_executed (hall : ∀ a ∈ e.keymap.forMode e.session.mode,
      a.Declines e.settings (e.session.pending ++ [key]) (e.state ed)) (name : String) :
    (e.handleKey ed key).1 ≠ .executed name := by
  intro hexecuted
  unfold handleKey at hexecuted
  split at hexecuted
  · cases hexecuted
  dsimp only at hexecuted
  split at hexecuted
  · rename_i hoffer
    obtain ⟨before, a, rest, heq, -, ha, -⟩ := ((e.keymap.forMode e.session.mode).offer_cases
      e.settings (e.session.pending ++ [key]) false (e.state ed)).of_ok hoffer
    obtain ⟨r, hr, hanswer⟩ := hall a (heq ▸ by simp)
    rw [hanswer] at ha
    cases ha
    exact absurd rfl hr
  · cases hexecuted
  · cases hexecuted
  · cases hexecuted

theorem mem_forMode_normal (hm : m ∈ Motion.defaults) :
    Action.motion m ∈ Keymap.builtin.forMode .normal := by
  rw [Keymap.forMode_builtin]
  exact List.mem_append_right _ (List.mem_filter.2 ⟨List.mem_map_of_mem hm, rfl⟩)

theorem selections_ne_nil (hsel : ed.selections = [sel]) : (e.state ed).selections ≠ [] := by
  rw [State.selections, state, hsel]
  exact List.cons_ne_nil _ _

/-- Keys that begin with none of the other actions' keys run a motion, or nothing. -/
theorem exists_motion_of_executed (he : e.InNormalMode ed d) (hsel : ed.selections = [sel])
    (htyped : e.session.pending ++ [key] = k :: ks) (hk : k ∉ Keymap.normalKeys) {name : String}
    (h : (e.handleKey ed key).1 = .executed name) :
    ∃ m ∈ Motion.defaults, (m.pattern.parse (k :: ks)).isFull = true := by
  refine Classical.byContradiction fun hnone => handleKey_ne_executed (fun a ha => ?_) name h
  rw [he.keymap, he.mode, Keymap.forMode_builtin] at ha
  rw [htyped]
  rcases List.mem_append.1 ha with ha | ha
  · exact Keymap.spares_of_not_mem Keymap.beginsWith_normalKeys hk a ha _ _ _
  · obtain ⟨m, hm, rfl⟩ := List.mem_map.1 (List.mem_filter.1 ha).1
    exact Action.declines_motion he.document he.mode (selections_ne_nil hsel)
      (Bool.eq_false_iff.2 fun hfull => hnone ⟨m, hm, hfull⟩)

/-- **The keys of a motion call no other action** of Normal mode. -/
theorem eq_or_declines_motion (he : e.InNormalMode ed d) (hsel : ed.selections = [sel])
    (hk : k ∉ Keymap.normalKeys) (hm : m ∈ Motion.defaults)
    (hparse : m.pattern.parse (k :: ks) = .full captured []) :
    ∀ a ∈ Keymap.builtin.forMode .normal,
      a = .motion m ∨ a.Declines e.settings (k :: ks) (e.state ed) := by
  rw [Keymap.forMode_builtin]
  intro a ha
  rcases List.mem_append.1 ha with ha | ha
  · exact .inr (Keymap.spares_of_not_mem Keymap.beginsWith_normalKeys hk a ha _ _ _)
  · obtain ⟨m', hm', rfl⟩ := List.mem_map.1 (List.mem_filter.1 ha).1
    cases hfull : (m'.pattern.parse (k :: ks)).isFull with
    | false =>
      exact .inr (Action.declines_motion he.document he.mode (selections_ne_nil hsel) hfull)
    | true =>
      have heq := TextObject.eq_of_isFull (TextObject.walked_mem_behind .delete hm)
        (TextObject.walked_mem_behind .delete hm') hparse hfull
      exact .inl (congrArg Action.motion (TextObject.walked.inj heq))

/-- **With one cursor the last key of a motion** moves it to where the walk leads. -/
theorem handleKey_motion (he : e.InNormalMode ed d) (hsel : ed.selections = [sel])
    (htyped : e.session.pending ++ [key] = k :: ks) (hk : k ∉ Keymap.normalKeys)
    (hm : m ∈ Motion.defaults) (hparse : m.pattern.parse (k :: ks) = .full captured [])
    {a : Arrival} (ha : m.walk.take? d ⟨e.session.lastFind, false⟩ (captured.map (·.2))
      sel.active = some a) :
    e.handleKey ed key = (.executed m.name,
      e.withSession { e.session with
        pending := []
        lastFind := a.find.or e.session.lastFind },
      ed.setCursors
        [if m.walk.keepsColumn then a.target else e.settings.placement.clamp d a.target]) := by
  have hmotion := Action.ends_motion (s := e.state ed) e.settings he.document he.mode hsel hparse
  have hoffer : ((e.keymap.forMode e.session.mode).offer e.settings (e.session.pending ++ [key])
      false).Ends (e.state ed) (fun o s' => o = .executed m.name ∧
        s' = ((e.state ed).remember a.find).setCursors [if m.walk.keepsColumn then a.target
          else e.settings.placement.clamp d a.target]) fun _ _ => False := by
    rw [he.keymap, he.mode, htyped, ← List.append_nil (Keymap.builtin.forMode .normal)]
    refine Keymap.ends_offer [] (eq_or_declines_motion he hsel hk hm hparse)
      (mem_forMode_normal hm) false ?_
    refine hmotion.mono (fun r s' h => ?_) fun _ _ h => h
    rw [show (e.state ed).session.lastFind = e.session.lastFind from rfl, ha] at h
    exact ⟨h.1, rfl, h.2⟩
  obtain ⟨_, rfl, hkey⟩ := handleKey_of_executed he.document hoffer
  exact hkey

/-- If the walk leads nowhere, the key runs nothing. -/
theorem handleKey_motion_ne_executed (he : e.InNormalMode ed d) (hsel : ed.selections = [sel])
    (htyped : e.session.pending ++ [key] = k :: ks) (hk : k ∉ Keymap.normalKeys)
    (hm : m ∈ Motion.defaults) (hparse : m.pattern.parse (k :: ks) = .full captured [])
    (hnone : m.walk.take? d ⟨e.session.lastFind, false⟩ (captured.map (·.2)) sel.active = none)
    (name : String) : (e.handleKey ed key).1 ≠ .executed name := by
  refine handleKey_ne_executed (fun a ha => ?_) name
  rw [he.keymap, he.mode] at ha
  rw [htyped]
  rcases eq_or_declines_motion he hsel hk hm hparse a ha with rfl | hdeclines
  · have hmotion := Action.ends_motion (s := e.state ed) e.settings he.document he.mode hsel
      hparse
    obtain ⟨r, s', hanswer, h⟩ := hmotion.exists_ok
    rw [show (e.state ed).session.lastFind = e.session.lastFind from rfl, hnone] at h
    obtain ⟨rfl, rfl⟩ := h
    exact ⟨.noMatch, nofun, hanswer⟩
  · exact hdeclines

/-- A key that only begins the keys of motions waits for the next one. -/
theorem handleKey_motion_waits (he : e.InNormalMode ed d) (hsel : ed.selections = [sel])
    (htyped : e.session.pending ++ [key] = k :: ks) (hk : k ∉ Keymap.normalKeys)
    (hm : m ∈ Motion.defaults) (hparse : m.pattern.parse (k :: ks) = .partly)
    (hnone : ∀ m ∈ Motion.defaults, (m.pattern.parse (k :: ks)).isFull = false) :
    e.handleKey ed key =
      (.pending, e.withSession { e.session with pending := e.session.pending ++ [key] }, ed) := by
  refine handleKey_of_waiting he.document ?_
  rw [he.keymap, he.mode, htyped]
  refine Keymap.offer_waits (fun a ha => ?_) (.inr ⟨.motion m, mem_forMode_normal hm,
    Action.answer_motion_waits he.document he.mode (selections_ne_nil hsel) hparse⟩)
  rw [Keymap.forMode_builtin] at ha
  rcases List.mem_append.1 ha with ha | ha
  · exact Keymap.spares_of_not_mem Keymap.beginsWith_normalKeys hk a ha _ _ _
  · obtain ⟨m', hm', rfl⟩ := List.mem_map.1 (List.mem_filter.1 ha).1
    exact Action.declines_motion he.document he.mode (selections_ne_nil hsel) (hnone m' hm')

end Engine

end ModalEdit
