import ModalEdit.Proofs.Action.Acts
import ModalEdit.Proofs.Command.Column
import ModalEdit.Proofs.Engine.Rest
import ModalEdit.Proofs.Span.Clamped

/-!
# The column past the end of a line makes no difference

A walk up or down keeps the column, so a cursor of Normal mode may stand past the end of its line.
To every other action that cursor is the one that has been moved into the document: offered the same
keys in twins, it ends alike and makes the two states equal (`Action.endAlike`). So do runs of keys
in which no cursor is moved up or down (`Engine.handleKeys_clamped`). What the cursor is not is the
one that rests under the placement: where cursors stand on characters, the end of a line is not the
last character before it (`Engine.not_handleKeys_placed`).
-/

namespace ModalEdit

variable {d : Document} {p : Position} {s s' : State} {settings : Settings} {bs : List Binding}

/-! ### Calls -/

namespace OperatorKind

/-- With one cursor an object is found for the operator where it is found at the cursor. -/
theorem targetsOf_cursor (u : Purpose) (keys : List Key) (o : TextObject) :
    targetsOf d u [.cursor p] keys o =
      (o.compute d u p keys).result?.map fun r => [(.cursor p, some r)] := by
  simp only [targetsOf, List.map_cons, List.map_nil, List.any_cons, List.any_nil, Bool.or_false,
    Selection.cursor]
  cases (o.compute d u p keys).result? with
  | none => rfl
  | some r => rfl

theorem findSome?_targetsOf_cursor (u : Purpose) (keys : List Key) (objects : List TextObject) :
    objects.findSome? (targetsOf d u [.cursor p] keys) =
      (objects.findSome? fun o => (o.compute d u p keys).result?).map
        fun r => [(.cursor p, some r)] := by
  rw [List.map_findSome?]
  exact congrArg (List.findSome? · objects) (funext (targetsOf_cursor u keys))

/-- **An operator works on the same text object for both cursors.** -/
theorem compose_endAlike (h : s.Twins d p s') (hline : p.line ≤ d.lastLine) (kind : OperatorKind)
    (settings : Settings) (keys : List Key) :
    Step.EndAlike (kind.compose settings d keys) (kind.compose settings d keys) s s'
      (fun r t t' => (r = .executed → t' = t) ∧
        (TextObject.AlwaysFound (.wholeLine kind :: TextObject.defaults) keys → r = .executed))
      (State.Twins d p) := by
  have hawaits (u : Purpose) (objects : List TextObject) :
      awaits d u [.cursor (d.clamp p)] keys objects = awaits d u [.cursor p] keys objects := by
    simp only [awaits, List.any_cons, List.any_nil, Selection.cursor,
      TextObject.compute_clamp _ hline]
  simp only [compose, Step.endAlike_get_bind, h.selections, h.selections_other, h.session_other,
    hawaits, findSome?_targetsOf_cursor, TextObject.compute_clamp _ hline]
  cases hfound : (TextObject.wholeLine kind :: TextObject.defaults).findSome? fun o =>
      (o.compute d ⟨some kind, s.session.lastFind⟩ p keys).result? with
  | some r =>
    refine Step.EndAlike.bind ?_
    refine (Step.apply_endAlike h kind settings.placement r.range).mono (fun _ t t' ht => ?_)
      fun _ _ ht => ht
    subst ht
    rw [Step.endAlike_modify_bind, Step.endAlike_pure]
    exact ⟨fun _ => rfl, fun _ => rfl⟩
  | none =>
    refine Step.endAlike_pure.2 ⟨fun hr => ?_, fun halways => ?_⟩
    · split at hr <;> cases hr
    · obtain ⟨o, ho, hfinds⟩ := halways
      exact absurd (List.findSome?_eq_none_iff.1 hfound o ho)
        (Option.ne_none_iff_isSome.2 (hfinds d _ p))

end OperatorKind

/-- A motion that gives up the column leads both cursors to the same place, and any motion leads
both somewhere or neither. -/
theorem Step.moveCursors_endAlike (h : s.Twins d p s') (hline : p.line ≤ d.lastLine) (m : Motion)
    (settings : Settings) (keys : List Key) :
    EndAlike (moveCursors settings d m keys) (moveCursors settings d m keys) s s'
      (fun r t t' => r = .executed → m.walk.keepsColumn = false → t' = t) (State.Twins d p) := by
  obtain ⟨hpartly, hsome⟩ := m.compute_clamp_cases hline ⟨s.session.lastFind, false⟩ keys
  simp only [moveCursors, endAlike_get_bind, State.arrivals, h.selections, h.selections_other,
    h.session_other, List.map_cons, List.map_nil, List.any_cons, List.any_nil, Bool.or_false,
    Selection.cursor, hpartly, hsome]
  split
  · exact endAlike_pure.2 fun hr => absurd hr (by decide)
  · split
    · rename_i hfound
      rw [endAlike_modify_bind, endAlike_pure]
      intro _ hcolumn
      obtain ⟨a, ha⟩ := Option.isSome_iff_exists.1 hfound
      simp only [Motion.compute_clamp hcolumn, ha, hcolumn, firstFind, List.findSome?_singleton]
      rw [h.other]
      rfl
    · exact endAlike_pure.2 fun hr => absurd hr (by decide)

/-- The call may find nothing to work on, or leaves the cursors to the editor. -/
def Call.mayIdle : Call → Bool
  | command c _ => c.mayIdle
  | execute _ => true
  | _ => false

/-- What is called in Normal mode does the same to twins. It makes them equal, unless it moves the
cursors up or down or may idle. -/
theorem Call.endAlike (h : s.Twins d p s') (hline : p.line ≤ d.lastLine) (c : Call)
    (hc : c.Belongs .normal)
    (hfound : ∀ kind object, c = .shorthand kind object →
      TextObject.AlwaysFound (.wholeLine kind :: TextObject.defaults) object)
    (settings : Settings) :
    Step.EndAlike (c.run settings) (c.run settings) s s'
      (fun r t t' => r = .executed → c.KeepsColumn ∨ State.Settled d p c.mayIdle t t')
      (State.Twins d p) := by
  have hopen {go : Document → Step Reply} (hgo : Step.EndAlike (go d) (go d) s s'
      (fun r t t' => r = .executed → c.KeepsColumn ∨ State.Settled d p c.mayIdle t t')
      (State.Twins d p)) :
      Step.EndAlike (Step.withDocument go) (Step.withDocument go) s s'
        (fun r t t' => r = .executed → c.KeepsColumn ∨ State.Settled d p c.mayIdle t t')
        (State.Twins d p) :=
    Step.endAlike_withDocument h.document h.document_other hgo
  cases c with
  | command c key =>
    refine hopen (Step.EndAlike.bind ?_)
    refine (c.endAlike h hc settings key).mono (fun _ t t' ht => ?_) fun _ _ ht => ht
    exact Step.endAlike_pure.2 fun _ => .inr ht
  | type t => cases hc
  | operate kind | selectObject keys => cases hc
  | shorthand kind object =>
    refine hopen (Step.EndAlike.bind ?_)
    refine (kind.compose_endAlike h hline settings object).mono (fun r t t' ht => ?_)
      fun _ _ ht => ht
    obtain ⟨hequal, halways⟩ := ht
    obtain rfl := halways (hfound kind object rfl)
    exact Step.endAlike_pure.2 fun _ => .inr (.inl (hequal rfl))
  | compose kind keys =>
    refine hopen ((kind.compose_endAlike h hline settings keys).mono (fun r t t' ht hr => ?_)
      fun _ _ ht => ht)
    exact .inr (.inl (ht.1 hr))
  | move m keys =>
    refine hopen ?_
    simp only [Step.endAlike_get_bind, h.mode, h.mode_other, Mode.isVisual, Bool.false_eq_true,
      ↓reduceIte]
    refine (Step.moveCursors_endAlike h hline m settings keys).mono (fun r t t' ht hr => ?_)
      fun _ _ ht => ht
    by_cases hcolumn : m.walk.keepsColumn = true
    · exact .inl hcolumn
    · exact .inr (.inl (ht hr (Bool.eq_false_iff.2 hcolumn)))
  | execute b =>
    refine Step.EndAlike.bind ?_
    refine Step.endAlike_execute h.access_other (fun cmds => ?_) h
    refine Step.endAlike_pure.2 fun _ => .inr (.inr ⟨rfl, h.document, h.mode, h.selections, ?_⟩)
    rw [h.other]
    rfl

/-! ### Actions -/

/-- An action of this name may run and leave the cursor where it is: it finds nothing to replace, to
join or to paste, or it calls a command of the editor. -/
def MayIdle (bs : List Binding) (name : String) : Prop :=
  name ∈ ["replace-char", "join-lines", "paste-after", "paste-before"] ∨
    ∃ b ∈ bs, name = "command:" ++ b.command

/-- The text objects of the shorthands are always found. -/
theorem Keymap.alwaysFound_of_mem {name : String} {pattern : Pattern} {kind : OperatorKind}
    {object : List Key} (h : .shorthand name pattern kind object ∈ withBindings bs) :
    TextObject.AlwaysFound (.wholeLine kind :: TextObject.defaults) object := by
  simp [withBindings, builtin, edits, visual, operators, onChar, onSelection, shorthand] at h
  rcases h with ⟨-, -, rfl, rfl⟩ | ⟨-, -, rfl, rfl⟩ | ⟨-, -, rfl, rfl⟩ | ⟨-, -, rfl, rfl⟩ |
    ⟨-, -, rfl, rfl⟩ | ⟨-, -, rfl, rfl⟩ | ⟨-, -, rfl, rfl⟩
  · exact TextObject.alwaysFound_right _
  · exact TextObject.alwaysFound_left _
  · exact TextObject.alwaysFound_lineEnd _
  · exact TextObject.alwaysFound_lineEnd _
  · exact TextObject.alwaysFound_right _
  · exact TextObject.alwaysFound_line .change
  · exact TextObject.alwaysFound_line .yank

/-- The action is for a command that may idle, or for a command of the editor. -/
def Action.mayIdle : Action → Bool
  | command _ _ _ c => c.mayIdle
  | bound _ => true
  | _ => false

theorem Action.mayIdle_of_call {a : Action} {keys : List Key} {c : Call}
    (hcall : a.call keys = .inr c) (hc : c.mayIdle = true) : a.mayIdle = true := by
  have hmade := madeBy_of_call hcall
  cases c with
  | command c key =>
    obtain ⟨name, modes, pattern, rfl⟩ := hmade
    exact hc
  | execute b =>
    obtain rfl : a = .bound b := hmade
    rfl
  | _ => cases hc

/-- The actions that may idle go by these names. -/
theorem Keymap.mayIdle_name {a : Action} (ha : a ∈ withBindings bs) (h : a.mayIdle = true) :
    MayIdle bs a.name := by
  have hall : ∀ a ∈ builtin, a.mayIdle = true →
      a.name ∈ ["replace-char", "join-lines", "paste-after", "paste-before"] := by decide
  rcases List.mem_append.1 ha with hbound | hbuiltin
  · obtain ⟨b, hb, rfl⟩ := List.mem_map.1 hbound
    exact .inr ⟨b, hb, rfl⟩
  · exact .inl (hall a hbuiltin h)

/-- How two runs may end once an action of this name has run in Normal mode: after a motion up or
down anyhow, else in equal states, or as twins if the action may idle. -/
def State.SettledBy (bs : List Binding) (d : Document) (p : Position) (name : String)
    (t t' : State) : Prop :=
  (name = "up" ∨ name = "down") ∨ t' = t ∨ MayIdle bs name ∧ t.Twins d p t'

/-- **An action of Normal mode does the same to twins.** If it runs it makes them equal, unless it
is one of the motions up and down or may idle; if it does not run it leaves them alone. -/
theorem Action.endAlike {a : Action} (ha : a ∈ Keymap.withBindings bs)
    (hmode : a.modes.has .normal) (h : s.Twins d p s') (hline : p.line ≤ d.lastLine)
    (settings : Settings) (keys : List Key) :
    Step.EndAlike (a.answer settings keys) (a.answer settings keys) s s'
      (fun r t t' => (r = .executed → State.SettledBy bs d p a.name t t') ∧
        (r ≠ .executed → t.Twins d p t')) (State.Twins d p) := by
  have hframe := a.frame settings keys
  rw [answer_eq] at hframe ⊢
  cases hcall : a.call keys with
  | inl reply =>
    exact Step.endAlike_pure.2 ⟨fun hr => absurd (hr ▸ hcall) (a.call_ne_executed keys), fun _ => h⟩
  | inr c =>
    rw [hcall] at hframe
    have hbelongs := belongs_of_call (Keymap.atHome_withBindings bs a ha) hmode hcall
    have hfound (kind : OperatorKind) (object : List Key) (hc : c = .shorthand kind object) :
        TextObject.AlwaysFound (.wholeLine kind :: TextObject.defaults) object := by
      subst hc
      obtain ⟨name, pattern, rfl⟩ := madeBy_of_call hcall
      exact Keymap.alwaysFound_of_mem ha
    have hends := (c.endAlike h hline hbelongs hfound settings).and_ends (hframe s) (hframe s')
    refine hends.mono (fun r t t' ht => ⟨fun hr => ?_, fun hr => ?_⟩) fun _ _ ht => ht.1
    · rcases ht.1 hr with hcolumn | hequal | ⟨hidle, htwins⟩
      · exact .inl (name_of_keepsColumn ha hcall hcolumn)
      · exact .inr (.inl hequal)
      · exact .inr (.inr ⟨Keymap.mayIdle_name ha (mayIdle_of_call hcall hidle), htwins⟩)
    · rw [ht.2.1 hr, ht.2.2 hr]
      exact h

/-! ### Keys -/

/-- Offering keys to the actions of Normal mode comes to the same for twins. -/
theorem Keymap.offer_endAlike {k : Keymap}
    (hk : ∀ a ∈ k, a ∈ withBindings bs ∧ a.modes.has .normal) (h : s.Twins d p s')
    (hline : p.line ≤ d.lastLine) (settings : Settings) (keys : List Key) (waiting : Bool) :
    Step.EndAlike (k.offer settings keys waiting) (k.offer settings keys waiting) s s'
      (fun o t t' => (∀ name, o = .executed name → State.SettledBy bs d p name t t') ∧
        (∀ waiting, o = .declined waiting → t.Twins d p t')) (State.Twins d p) := by
  induction k generalizing waiting s s' with
  | nil =>
    refine Step.endAlike_pure.2 ⟨fun name ho => ?_, fun _ _ => h⟩
    cases ho
  | cons a k ih =>
    obtain ⟨⟨ha, hmode⟩, hk⟩ := List.forall_mem_cons.1 hk
    refine Step.EndAlike.bind ?_
    refine (Action.endAlike ha hmode h hline settings keys).mono (fun r t t' ht => ?_)
      fun _ _ ht => ht
    cases r with
    | executed =>
      refine Step.endAlike_pure.2 ⟨fun name ho => ?_, fun _ ho => ?_⟩
      · cases ho
        exact ht.1 rfl
      · cases ho
    | needsMore => exact ih hk (ht.2 (by decide)) true
    | noMatch => exact ih hk (ht.2 (by decide)) waiting

namespace Engine

variable {e : Engine} {ed ed' : Editor}

/-- How two runs of keys compare that started in twins: the outcomes and the engines are the same,
and so are the editors, or they are still twins and all that has run may idle. -/
structure RunAlike (bs : List Binding) (d : Document) (p : Position)
    (r r' : List KeyOutcome × Engine × Editor) : Prop where
  /-- What became of the keys. -/
  outcomes : r'.1 = r.1
  /-- The actions, the settings and the session. -/
  engine : r'.2.1 = r.2.1
  /-- The editors. -/
  editor : r'.2.2 = r.2.2 ∨ (r.2.1.state r.2.2).Twins d p (r'.2.1.state r'.2.2) ∧
    ∀ name, .executed name ∈ r.1 → MayIdle bs name

/-- **What one key does to twins.** -/
theorem handleKey_twins (hk : e.keymap = .withBindings bs)
    (h : (e.state ed).Twins d p (e.state ed')) (hline : p.line ≤ d.lastLine) (key : Key)
    (hlevel : (e.handleKey ed key).1 ≠ .executed "up" ∧ (e.handleKey ed key).1 ≠ .executed "down") :
    RunAlike bs d p ([(e.handleKey ed key).1], (e.handleKey ed key).2)
      ([(e.handleKey ed' key).1], (e.handleKey ed' key).2) := by
  have hdoc : ed.document.isNone = false := by
    rw [show ed.document = some d from h.document]
    rfl
  have hdoc' : ed'.document.isNone = false := by
    rw [show ed'.document = some d from h.document_other]
    rfl
  have hmem : ∀ a ∈ e.keymap.forMode e.session.mode,
      a ∈ Keymap.withBindings bs ∧ a.modes.has .normal := fun a ha => by
    obtain ⟨ha, hmode⟩ := List.mem_filter.1 ha
    rw [show e.session.mode = .normal from h.mode] at hmode
    exact ⟨hk ▸ ha, hmode⟩
  have hoffer := Keymap.offer_endAlike hmem h hline e.settings (e.session.pending ++ [key]) false
  -- Whatever becomes of the pending keys, twins remain twins.
  have htwins {t t' : State} (h : t.Twins d p t') (o : KeyOutcome) (keys : List Key)
      (ho : ∀ name, o = .executed name → MayIdle bs name) :
      RunAlike bs d p ([o], e.withSession { t.session with pending := keys }, t.editor)
        ([o], e.withSession { t'.session with pending := keys }, t'.editor) := by
    refine ⟨rfl, ?_, .inr ⟨h.withPending keys, fun name hname => ?_⟩⟩
    · rw [h.session_other]
    · exact ho name (List.mem_singleton.1 hname).symm
  rcases hoffer.cases with ⟨o, t, t', ht, ht', hexecuted, hdeclined⟩ | ⟨c, t, t', ht, ht', herror⟩
  · simp only [handleKey, hdoc, hdoc', Bool.false_eq_true, ↓reduceIte, state] at ht ht' hlevel ⊢
    rw [ht] at hlevel ⊢
    rw [ht']
    cases o with
    | executed name =>
      rcases hexecuted name rfl with hname | rfl | ⟨hidle, h⟩
      · rcases hname with rfl | rfl
        · exact absurd rfl hlevel.1
        · exact absurd rfl hlevel.2
      · exact ⟨rfl, rfl, .inl rfl⟩
      · refine htwins h _ [] fun name' hname' => ?_
        cases hname'
        exact hidle
    | declined waiting =>
      have h := hdeclined waiting rfl
      cases waiting with
      | true =>
        have hpending : t'.session.pending = t.session.pending :=
          congrArg Session.pending h.session_other
        dsimp only
        rw [hpending]
        exact htwins h .pending (t.session.pending ++ [key]) fun _ ho => by cases ho
      | false => exact htwins h .reset [] fun _ ho => by cases ho
  · simp only [handleKey, hdoc, hdoc', Bool.false_eq_true, ↓reduceIte, state] at ht ht' ⊢
    rw [ht, ht']
    refine ⟨rfl, congrArg e.withSession herror.session_other, .inr ⟨herror, fun name hname => ?_⟩⟩
    cases List.mem_singleton.1 hname

theorem handleKeys_twins (hk : e.keymap = .withBindings bs)
    (h : (e.state ed).Twins d p (e.state ed')) (hline : p.line ≤ d.lastLine) (keys : List Key)
    (hlevel : e.StaysLevel ed keys) :
    RunAlike bs d p (e.handleKeys ed keys) (e.handleKeys ed' keys) := by
  induction keys generalizing e ed ed' with
  | nil => exact ⟨rfl, rfl, .inr ⟨h, fun _ hname => absurd hname List.not_mem_nil⟩⟩
  | cons key keys ih =>
    obtain ⟨hnormal, hlevel⟩ := hlevel
    obtain ⟨houtcome, hengine, heditor⟩ := handleKey_twins hk h hline key (hnormal h.mode)
    have houtcome : (e.handleKey ed' key).1 = (e.handleKey ed key).1 := (List.cons.inj houtcome).1
    have hengine : (e.handleKey ed' key).2.1 = (e.handleKey ed key).2.1 := hengine
    have hkeymap := (e.handleKey_keeps ed key).1.trans hk
    simp only [handleKeys]
    rw [houtcome, hengine]
    rcases heditor with heditor | ⟨htwins, hidle⟩
    · have heditor : (e.handleKey ed' key).2.2 = (e.handleKey ed key).2.2 := heditor
      rw [heditor]
      exact ⟨rfl, rfl, .inl rfl⟩
    · have htwins : ((e.handleKey ed key).2.1.state (e.handleKey ed key).2.2).Twins d p
          ((e.handleKey ed key).2.1.state (e.handleKey ed' key).2.2) := hengine ▸ htwins
      obtain ⟨houtcomes, hengine, heditor⟩ := ih hkeymap htwins hlevel
      refine ⟨congrArg ((e.handleKey ed key).1 :: ·) houtcomes, hengine, heditor.imp_right ?_⟩
      rintro ⟨htwins, hidles⟩
      refine ⟨htwins, fun name hname => ?_⟩
      rcases List.mem_cons.1 hname with hname | hname
      · exact hidle name (List.mem_singleton.2 hname)
      · exact hidles name hname

/-- **The column past the end of a line makes no difference.** In Normal mode, with a single cursor
on an existing line: whatever keys follow, as long as no cursor of Normal mode is moved up or down
they do the same as if the cursor had been moved into the document first, which is where the
placement puts it unless cursors stand on characters and it is past the last one of its line. The
outcomes, the text, the clipboard and the session are the same. So is the cursor, once an action has
run that does something: all others leave it where it was. -/
theorem handleKeys_clamped (e : Engine) (ed : Editor) (d : Document) (p : Position)
    (bs : List Binding) (keys : List Key) (hk : e.keymap = .withBindings bs)
    (hmode : e.session.mode = .normal) (hdoc : ed.document = some d)
    (hcursor : ed.selections = [.cursor p]) (hline : p.line < d.lineCount)
    (hlevel : e.StaysLevel ed keys) :
    (e.settings.placement.clamp d p = d.clamp p ↔
      ¬ (e.settings.placement = .onChar ∧ 0 < d.lineLen p.line ∧ d.lineLen p.line ≤ p.col)) ∧
    match e.handleKeys ed keys,
      e.handleKeys { ed with selections := [.cursor (d.clamp p)] } keys with
    | (os, e₁, ed₁), (os', e₂, ed₂) =>
      os' = os ∧ e₂ = e₁ ∧ ed₂.document = ed₁.document ∧ ed₂.clipboard = ed₁.clipboard ∧
      (ed₂ = ed₁ ∨ ed₁.document = some d ∧ ed₁.selections = [.cursor p] ∧
        ed₂ = { ed₁ with selections := [.cursor (d.clamp p)] } ∧
        ∀ name, .executed name ∈ os → MayIdle bs name) := by
  have hline : p.line ≤ d.lastLine := Nat.le_sub_one_of_lt hline
  refine ⟨Placement.clamp_eq_documentClamp_iff hline, ?_⟩
  have htwins : (e.state ed).Twins d p
      (e.state { ed with selections := [.cursor (d.clamp p)] }) := ⟨hdoc, hmode, hcursor, rfl⟩
  have h := handleKeys_twins hk htwins hline keys hlevel
  generalize e.handleKeys ed keys = r at h
  generalize e.handleKeys { ed with selections := [.cursor (d.clamp p)] } keys = r' at h
  obtain ⟨os, e₁, ed₁⟩ := r
  obtain ⟨os', e₂, ed₂⟩ := r'
  obtain ⟨rfl, rfl, rfl | ⟨htwins, hidle⟩⟩ := h
  · exact ⟨rfl, rfl, rfl, rfl, .inl rfl⟩
  · have hother : ed₂ = { ed₁ with selections := [.cursor (d.clamp p)] } :=
      congrArg State.editor htwins.other
    subst hother
    exact ⟨rfl, rfl, rfl, rfl, .inr ⟨htwins.document, htwins.selections, rfl, hidle⟩⟩

/-- Past the end of the first line: nothing is under the cursor to be replaced, then the last word
is changed. -/
theorem handleKeys_clamped_changed :
    let e : Engine := {}
    let d := Document.ofText ['a', ' ', 'b', '\n', 'c']
    let ed := Editor.ofDocument d [⟨0, 7⟩]
    let keys := [.char 'r', .char 'x', .char 'c', .char 'b', .char 'z']
    e.keymap = .withBindings [] ∧ e.session.mode = .normal ∧ ed.document = some d ∧
    ed.selections = [.cursor ⟨0, 7⟩] ∧ 0 < d.lineCount ∧ e.StaysLevel ed keys ∧
    (e.handleKeys ed keys).2.2.text = ['a', ' ', 'z', '\n', 'c'] ∧
    d.clamp ⟨0, 7⟩ = ⟨0, 3⟩ ∧
    e.handleKeys { ed with selections := [.cursor ⟨0, 3⟩] } keys = e.handleKeys ed keys := by
  intro e d ed keys
  have hlevel : e.StaysLevel ed keys := by decide +kernel
  have hout : (e.handleKeys ed keys).2.2.text = ['a', ' ', 'z', '\n', 'c'] := by decide +kernel
  have hclamp : d.clamp ⟨0, 7⟩ = ⟨0, 3⟩ := by decide +kernel
  have h := handleKeys_clamped e ed d ⟨0, 7⟩ [] keys rfl rfl rfl rfl (by decide) hlevel
  rw [hclamp] at h
  refine ⟨rfl, rfl, rfl, rfl, by decide, hlevel, hout, hclamp, ?_⟩
  generalize e.handleKeys ed keys = r at h hout ⊢
  generalize e.handleKeys { ed with selections := [.cursor ⟨0, 3⟩] } keys = r' at h ⊢
  obtain ⟨os, e₁, ed₁⟩ := r
  obtain ⟨os', e₂, ed₂⟩ := r'
  obtain ⟨-, rfl, rfl, -, -, rfl | ⟨hdoc, -⟩⟩ := h
  · rfl
  · have htext : ed₁.text = d.text := by rw [Editor.text, hdoc]; rfl
    rw [htext] at hout
    exact absurd hout (by decide)

/-- **Where a cursor rests is not where it was.** A line that has none to join with leaves the
cursor past its end. Where cursors stand on characters, nothing is under a cursor past the end of
the line, and the last character is under the one that rests there. -/
theorem not_handleKeys_placed :
    (let e : Engine := {}
      let d := Document.ofText ['a']
      let run (p : Position) := e.handleKeys (.ofDocument d [p]) [.char 'J']
      Placement.gap.clamp d ⟨0, 5⟩ = ⟨0, 1⟩ ∧ (run ⟨0, 5⟩).1 = [.executed "join-lines"] ∧
        (run ⟨0, 5⟩).2.2.selections = [.cursor ⟨0, 5⟩] ∧
        (run ⟨0, 1⟩).2.2.selections = [.cursor ⟨0, 1⟩]) ∧
    (let e : Engine := { settings := { placement := .onChar } }
      let d := Document.ofText ['a', 'b']
      let run (p : Position) := e.handleKeys (.ofDocument d [p]) [.char 'x']
      Placement.onChar.clamp d ⟨0, 5⟩ = ⟨0, 1⟩ ∧ (run ⟨0, 5⟩).1 = [.executed "delete-char"] ∧
        (run ⟨0, 5⟩).2.2.text = ['a', 'b'] ∧ (run ⟨0, 1⟩).2.2.text = ['a']) := by
  decide +kernel

end Engine

end ModalEdit
