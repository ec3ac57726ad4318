import ModalEdit.Proofs.Step

/-!
# What keys call

An action parses the keys typed so far and then either passes them on, waits for more or does
something. `Action.call` separates the two: it says what the keys are to the action, and
`Action.answer_eq` that the answer is to do just that. What holds of every action is proved for
every `Call`, with no look at patterns.
-/

namespace ModalEdit

/-- What an action does once keys have called it. -/
inductive Call where
  /-- Run a command with the key captured. -/
  | command (c : Command) (key : Option Key)
  /-- Type. -/
  | type (t : Typed)
  /-- Run an operator on the selections. -/
  | operate (kind : OperatorKind)
  /-- Select the text object that the keys name. -/
  | selectObject (keys : List Key)
  /-- Run an operator on a text object of its own. -/
  | shorthand (kind : OperatorKind) (object : List Key)
  /-- Run an operator on the text object that the keys name. -/
  | compose (kind : OperatorKind) (keys : List Key)
  /-- Move the cursors or the heads of the selections. -/
  | move (m : Motion) (keys : List Key)
  /-- Call a command of the editor. -/
  | execute (b : Binding)

/-- Do what is called. All but a command of the editor needs a document. -/
def Call.run (settings : Settings) : Call → Step Reply
  | command c key => Step.withDocument fun d => do
    c.run settings d key
    return .executed
  | type t => Step.withDocument fun d => do
    Step.type d t
    return .executed
  | operate kind => Step.withDocument fun d => do
    Step.operate settings d kind
    return .executed
  | selectObject keys => Step.withDocument fun d => Step.selectObject d keys
  | shorthand kind object => Step.withDocument fun d => do
    let reply ← kind.compose settings d object
    if reply ≠ .executed ∧ kind = .change then modify (·.setMode .insert)
    return .executed
  | compose kind keys => Step.withDocument fun d => kind.compose settings d keys
  | move m keys => Step.withDocument fun d => do
    if (← get).mode.isVisual then Step.extend d m keys else Step.moveCursors settings d m keys
  | execute b => do
    Step.execute b.command b.args
    return .executed

/-- A call, or the reply if nothing is called. -/
abbrev Called := Reply ⊕ Call

/-- What is called by a full match. -/
def Match.called (m : Match) (f : Option Key → List Key → Called) : Called :=
  match m with
  | .none => .inl .noMatch
  | .partly => .inl .needsMore
  | .full captured rest => f (captured.map (·.2)) rest

/-- What the keys typed so far call. -/
def Action.call (keys : List Key) : Action → Called
  | command _ _ pattern c => (pattern.parse keys).called fun key _ => .inr (.command c key)
  | typing =>
    match keys with
    | [key] =>
      match key.typed? with
      | some t => .inr (.type t)
      | none => .inl .noMatch
    | _ => .inl .noMatch
  | onSelection _ pattern kind => (pattern.parse keys).called fun _ _ => .inr (.operate kind)
  | selectObject => .inr (.selectObject keys)
  | shorthand _ pattern kind object =>
    (pattern.parse keys).called fun _ _ => .inr (.shorthand kind object)
  | operator kind =>
    (Pattern.parseLiteral [kind.key] keys).called fun _ rest =>
      if rest.isEmpty then .inl .needsMore else .inr (.compose kind rest)
  | motion m =>
    match m.pattern.parse keys with
    | .none => .inl .noMatch
    | _ => .inr (.move m keys)
  | bound b => (Pattern.parseLiteral b.keys keys).called fun _ _ => .inr (.execute b)

/-- **An action does what the keys call.** -/
theorem Action.answer_eq (a : Action) (settings : Settings) (keys : List Key) :
    a.answer settings keys =
      match a.call keys with
      | .inl reply => pure reply
      | .inr c => c.run settings := by
  cases a with
  | command name modes pattern c =>
    simp only [answer, call]
    cases pattern.parse keys <;> rfl
  | typing =>
    rcases keys with _ | ⟨key, _ | ⟨_, _⟩⟩
    · rfl
    · simp only [answer, call]
      cases key.typed? <;> rfl
    · rfl
  | onSelection name pattern kind =>
    simp only [answer, call]
    cases pattern.parse keys <;> rfl
  | selectObject => rfl
  | shorthand name pattern kind object =>
    simp only [answer, call]
    cases pattern.parse keys <;> rfl
  | operator kind =>
    simp only [answer, call]
    cases Pattern.parseLiteral [kind.key] keys with
    | full captured rest => cases rest <;> rfl
    | partly => rfl
    | none => rfl
  | motion m =>
    simp only [answer, call]
    cases m.pattern.parse keys <;> rfl
  | bound b =>
    simp only [answer, call]
    cases Pattern.parseLiteral b.keys keys <;> rfl

end ModalEdit
