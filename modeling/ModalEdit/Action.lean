import ModalEdit.Command.Basic
import ModalEdit.Config.Binding

/-!
# Actions

An action is everything that keys can call, with the modes in which it is offered. `Action.answer`
is the step in which an action answers the keys typed so far, and `Action.run` tries it by itself.
-/

namespace ModalEdit

/-- What keys can call. -/
inductive Action where
  /-- A command called by a pattern. -/
  | command (name : String) (modes : ModeSet) (pattern : Pattern) (c : Command)
  /-- Typing. -/
  | typing
  /-- An operator on the selections. -/
  | onSelection (name : String) (pattern : Pattern) (kind : OperatorKind)
  /-- A text object takes the place of the selections. -/
  | selectObject
  /-- An operator with the keys of its text object. -/
  | shorthand (name : String) (pattern : Pattern) (kind : OperatorKind) (object : List Key)
  /-- An operator that a text object follows. -/
  | operator (kind : OperatorKind)
  /-- A motion of the cursors or of the heads of the selections. -/
  | motion (m : Motion)
  /-- A binding to a command of the editor. -/
  | bound (b : Binding)

namespace Action

/-- The name of an action. -/
def name : Action → String
  | command name .. => name
  | typing => "insert-text"
  | onSelection name .. => name
  | selectObject => "visual-text-object"
  | shorthand name .. => name
  | operator kind => "operator-" ++ kind.name
  | motion m => m.name
  | bound b => "command:" ++ b.command

/-- The modes in which an action is offered. -/
def modes : Action → ModeSet
  | command _ modes .. => modes
  | typing => .onlyInsert
  | onSelection .. => .anyVisual
  | selectObject => .anyVisual
  | shorthand .. => .onlyNormal
  | operator _ => .onlyNormal
  | motion _ => .normalAndVisual
  | bound b => b.modes

end Action

/-- The selections that cover the ranges found, and whether they are whole lines. Once one range
stands for lines, or if `linewise` from the start, all that follow are widened to lines. A selection
without a range stays. -/
def coverRanges (d : Document) (linewise : Bool) :
    List (Selection × Option ObjectRange) → List Selection × Bool
  | [] => ([], linewise)
  | (_, some r) :: rest =>
    match r.range.lines with
    | some l =>
      let (sels, lines) := coverRanges d true rest
      (d.lineCovering l.first l.last :: sels, lines)
    | none =>
      let (sels, lines) := coverRanges d linewise rest
      let sel :=
        if linewise then d.lineCovering r.range.start.line (d.stepBack r.range.stop).line
        else ⟨r.range.start, r.range.stop⟩
      (sel :: sels, lines)
  | (sel, none) :: rest =>
    let (sels, lines) := coverRanges d linewise rest
    (sel :: sels, lines)

namespace State

variable (s : State)

/-- The targets of an operator on the selections. -/
def selectedTargets (d : Document) (kind : OperatorKind) : List Target :=
  s.selections.map fun sel => (sel, some (s.selectedRange d (kind != .change) sel))

/-- Where a motion leads from every cursor. -/
def arrivals (d : Document) (m : Motion) (keys : List Key) : List (Position × Found Arrival) :=
  s.selections.map fun sel =>
    (sel.active, m.compute d ⟨s.session.lastFind, false⟩ sel.active keys)

/-- Where a motion leads from the head of every selection. -/
def headArrivals (d : Document) (m : Motion) (keys : List Key) :
    List (Selection × Found Arrival) :=
  s.selections.map fun sel =>
    (sel, m.compute d ⟨s.session.lastFind, true⟩ (s.head d sel) keys)

/-- The selection with its head moved. Its anchor stays. -/
def moveHead (d : Document) (sel : Selection) (target : Position) : Selection :=
  if s.mode = .visualLine then d.lineCovering sel.lineEndpoints.1 target.line
  else d.covering (d.charEndpoints sel).1 (d.clampChar target)

/-- What a text object finds at the head of every selection. -/
def objectsAtHeads (d : Document) (keys : List Key) (o : TextObject) :
    List (Selection × Found ObjectRange) :=
  s.selections.map fun sel => (sel, o.compute d ⟨none, s.session.lastFind⟩ (s.head d sel) keys)

/-- What a text object finds at the head of every selection, if it finds something at one. -/
def rangesAtHeads (d : Document) (keys : List Key) (o : TextObject) :
    Option (List (Selection × Option ObjectRange)) :=
  let found := (s.objectsAtHeads d keys o).map fun f => (f.1, f.2.result?)
  if found.any (·.2.isSome) then some found else none

end State

/-- The search of the first arrival that has one. -/
def firstFind {α : Type} (found : List (α × Found Arrival)) : Option Find :=
  found.findSome? fun f => f.2.result?.bind (·.find)

namespace Step

/-- Run an operator on the selections. -/
def operate (settings : Settings) (d : Document) (kind : OperatorKind) : Step Unit := do
  kind.apply settings.placement d ((← get).selectedTargets d kind) true

/-- Move every cursor by a motion. A cursor that the motion leads nowhere stays. -/
def moveCursors (settings : Settings) (d : Document) (m : Motion) (keys : List Key) :
    Step Reply := do
  let found := (← get).arrivals d m keys
  let rest (p : Position) : Position :=
    if m.walk.keepsColumn then p else settings.placement.clamp d p
  if found.any (·.2.isPartly) then return .needsMore
  else if found.any (·.2.result?.isSome) then
    let cursors := found.map fun f => (f.2.result?.map fun a => rest a.target).getD f.1
    modify fun s => (s.remember (firstFind found)).setCursors cursors
    return .executed
  else return .noMatch

/-- Move the head of every selection by a motion. -/
def extend (d : Document) (m : Motion) (keys : List Key) : Step Reply := do
  let s ← get
  let found := s.headArrivals d m keys
  if found.any (·.2.isPartly) then return .needsMore
  else if found.any (·.2.result?.isSome) then
    let sels := found.map fun f => (f.2.result?.map fun a => s.moveHead d f.1 a.target).getD f.1
    modify fun s => (s.remember (firstFind found)).select sels
    return .executed
  else return .noMatch

/-- Replace the selections by the first text object that the keys name at one of them. -/
def selectObject (d : Document) (keys : List Key) : Step Reply := do
  let s ← get
  match TextObject.structures.findSome? (s.rangesAtHeads d keys) with
  | some found =>
    let (sels, lines) := coverRanges d (s.mode == .visualLine) found
    modify (·.select sels)
    if lines then modify (·.setMode .visualLine)
    return .executed
  | none =>
    if TextObject.structures.any fun o => (s.objectsAtHeads d keys o).any (·.2.isPartly) then
      return .needsMore
    else return .noMatch

end Step

namespace Action

/-- Answer the keys typed so far. -/
def answer (a : Action) (settings : Settings) (keys : List Key) : Step Reply :=
  match a with
  | command _ _ pattern c =>
    match pattern.parse keys with
    | .none => return .noMatch
    | .partly => return .needsMore
    | .full captured _ =>
      Step.withDocument fun d => do
        c.run settings d (captured.map (·.2))
        return .executed
  | typing =>
    match keys with
    | [key] =>
      match key.typed? with
      | some t => Step.withDocument fun d => do
        Step.type d t
        return .executed
      | none => return .noMatch
    | _ => return .noMatch
  | onSelection _ pattern kind =>
    match pattern.parse keys with
    | .none => return .noMatch
    | .partly => return .needsMore
    | .full .. =>
      Step.withDocument fun d => do
        Step.operate settings d kind
        return .executed
  | selectObject => Step.withDocument fun d => Step.selectObject d keys
  | shorthand _ pattern kind object =>
    match pattern.parse keys with
    | .none => return .noMatch
    | .partly => return .needsMore
    | .full .. =>
      Step.withDocument fun d => do
        let reply ← kind.compose settings d object
        if reply ≠ .executed ∧ kind = .change then modify (·.setMode .insert)
        return .executed
  | operator kind =>
    match Pattern.parseLiteral [kind.key] keys with
    | .none => return .noMatch
    | .partly => return .needsMore
    | .full _ remainder =>
      if remainder.isEmpty then return .needsMore
      else Step.withDocument fun d => kind.compose settings d remainder
  | motion m =>
    match m.pattern.parse keys with
    | .none => return .noMatch
    | _ =>
      Step.withDocument fun d => do
        if (← get).mode.isVisual then Step.extend d m keys else Step.moveCursors settings d m keys
  | bound b =>
    match Pattern.parseLiteral b.keys keys with
    | .none => return .noMatch
    | .partly => return .needsMore
    | .full .. => do
      Step.execute b.command b.args
      return .executed

/-- Try an action by itself on the keys typed so far. -/
def run (a : Action) (settings : Settings) (s : State) (keys : List Key) : Attempt :=
  (a.answer settings keys).attempt s

end Action

end ModalEdit
