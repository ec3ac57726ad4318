import ModalEdit.Key.Basic

/-!
# Key scripts

A key script is a text that spells a sequence of keys. A character stands for its key. A group
`<...>` names a key, with the letters of its modifiers and dashes in front; names and letters may be
in either case. A `<` that no `>` follows is a plain character.

`parseKeys` reads a script. It is the inverse of `renderKeys` on the keys that scripts can spell.
-/

namespace ModalEdit

/-- Why a text is no key script. -/
inductive KeyError where
  /-- The script has no key. -/
  | empty
  /-- The group that begins at a character offset has no name. -/
  | emptyGroup (offset : Nat)
  /-- No key has this name. -/
  | unknownKey (name : List Char)
deriving DecidableEq, Repr

/-- The error in words. -/
def KeyError.message : KeyError → String
  | empty => "empty key sequence"
  | emptyGroup o => s!"empty key group `<>` at offset {o}"
  | unknownKey name => s!"unknown key name `{String.ofList name}`"

/-- Read a decimal number below 256; a plus sign may stand before it. -/
def readByte? (cs : List Char) : Option Nat :=
  let digits := if cs.head? = some '+' then cs.tail else cs
  if digits.isEmpty then none
  else if digits.all Char.isDigit then
    let n := digits.foldl (fun n c => 10 * n + (c.toNat - '0'.toNat)) 0
    if n < 256 then some n else none
  else none

/-- The characters that have a name of their own, in lower case. -/
def charNames : List (List Char × Char) :=
  [(['l', 't'], '<'), (['s', 'p', 'a', 'c', 'e'], ' '), (['b', 'a', 'r'], '|')]

/-- The names of the other keys, in lower case. -/
def keyNames : List (List Char × NamedKey) :=
  [(['c', 'r'], .enter), (['e', 'n', 't', 'e', 'r'], .enter),
    (['r', 'e', 't', 'u', 'r', 'n'], .enter), (['e', 's', 'c'], .esc),
    (['e', 's', 'c', 'a', 'p', 'e'], .esc), (['b', 's'], .backspace),
    (['b', 'a', 'c', 'k', 's', 'p', 'a', 'c', 'e'], .backspace), (['t', 'a', 'b'], .tab),
    (['u', 'p'], .up), (['d', 'o', 'w', 'n'], .down), (['l', 'e', 'f', 't'], .left),
    (['r', 'i', 'g', 'h', 't'], .right), (['h', 'o', 'm', 'e'], .home), (['e', 'n', 'd'], .endKey),
    (['p', 'a', 'g', 'e', 'u', 'p'], .pageUp),
    (['p', 'a', 'g', 'e', 'd', 'o', 'w', 'n'], .pageDown),
    (['i', 'n', 's', 'e', 'r', 't'], .insert), (['d', 'e', 'l'], .delete),
    (['d', 'e', 'l', 'e', 't', 'e'], .delete)]

/-- The function key whose name is `f` and a number from 1 to 255. -/
def functionKey? : List Char → Option NamedKey
  | 'f' :: digits => (readByte? digits).bind fun n => if n = 0 then none else some (.f n)
  | _ => none

/-- The key with the given name, which may be a single character. -/
def readName (name : List Char) : Except KeyError Key :=
  match name with
  | [c] => .ok (.char c)
  | _ =>
    let lower := name.map Char.toLower
    match charNames.lookup lower with
    | some c => .ok (.char c)
    | none =>
      match (keyNames.lookup lower).or (functionKey? lower) with
      | some k => .ok (.named k)
      | none => .error (.unknownKey name)

/-- Split the modifiers off the front of a group. A dash with nothing behind it belongs to the
name. -/
def splitMods : List Char → Mods × List Char
  | x :: '-' :: c :: rest =>
    match Modifier.ofLetter? x with
    | some m =>
      let (mods, name) := splitMods (c :: rest)
      (mods.insert m, name)
    | none => (.none, x :: '-' :: c :: rest)
  | name => (.none, name)

/-- The key that a group names. -/
def readGroup (group : List Char) : Except KeyError Key := do
  let (mods, name) := splitMods group
  let base ← readName name
  return base.withMods mods

/-- Cut the text behind a `<` into the group up to its `>` and the rest. If the group ends in a dash
and another `>` follows, that one closes the group. -/
def splitGroup? (cs : List Char) : Option (List Char × List Char) :=
  let group := cs.takeWhile (· != '>')
  match cs.dropWhile (· != '>') with
  | [] => none
  | _ :: rest =>
    if group.getLast? = some '-' ∧ rest.head? = some '>' then some (group ++ ['>'], rest.tail)
    else some (group, rest)

theorem length_splitGroup? {cs group rest : List Char} (h : splitGroup? cs = some (group, rest)) :
    rest.length < cs.length := by
  unfold splitGroup? at h
  have hle : (cs.dropWhile (· != '>')).length ≤ cs.length := (List.dropWhile_sublist _).length_le
  split at h
  · cases h
  · rename_i c rest' heq
    rw [heq, List.length_cons] at hle
    dsimp only at h
    split at h <;> cases h
    · simp only [List.length_tail]; omega
    · omega

/-- The keys of a script whose first character has offset `i`. -/
def parseKeysFrom (i : Nat) (cs : List Char) : Except KeyError (List Key) :=
  match cs with
  | [] => .ok []
  | c :: rest =>
    if c = '<' then
      match _h : splitGroup? rest with
      | none => do
        let keys ← parseKeysFrom (i + 1) rest
        return .char c :: keys
      | some (group, rest') =>
        if group.isEmpty then .error (.emptyGroup i)
        else do
          let key ← readGroup group
          let keys ← parseKeysFrom (i + group.length + 2) rest'
          return key :: keys
    else do
      let keys ← parseKeysFrom (i + 1) rest
      return .char c :: keys
termination_by cs.length
decreasing_by
  all_goals simp_wf
  all_goals try have := length_splitGroup? _h
  all_goals omega

/-- The keys of a script. -/
def parseKeys (script : List Char) : Except KeyError (List Key) :=
  if script.isEmpty then .error .empty else parseKeysFrom 0 script

end ModalEdit
