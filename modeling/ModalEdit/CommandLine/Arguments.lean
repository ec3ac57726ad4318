import ModalEdit.Text.Position
import ModalEdit.Unicode.WhiteSpace

/-!
# Command line arguments

The program is called with the path of a text file and with options. `Arguments.read` reads the
arguments one after the other. The value of an option may follow it, as the next argument or behind
an equals sign. It is looked at only when the next option or path begins or the arguments end, so
an unknown argument is reported before a faulty value in front of it. Behind `--` no argument is an
option.
-/

namespace ModalEdit.CommandLine

/-- What the program is called with. -/
structure Arguments where
  /-- The file to edit. -/
  path : String
  /-- The keys to replay. -/
  keys : String
  /-- The cursors to begin with. -/
  cursors : List Position := []
  /-- The language of the document. -/
  language : Option String := none
  /-- The configuration file, if it is not to be looked for. -/
  config : Option String := none
  /-- The result goes back to the file. -/
  write : Bool := false
deriving DecidableEq, Repr

/-- A value on the command line. -/
inductive Slot where
  | path | keys | cursor | language | config
deriving DecidableEq, Repr

/-- How a value is shown in messages. -/
def Slot.usage : Slot → String
  | path => "<PATH>"
  | keys => "--keys <KEYS>"
  | cursor => "--cursor <CURSORS>"
  | language => "--language <LANGUAGE>"
  | config => "--config <CONFIG>"

/-- The option with the given long name. -/
def Slot.ofOption? (name : List Char) : Option Slot :=
  [("keys", keys), ("cursor", cursor), ("language", language), ("config", config)].lookup
    (String.ofList name)

/-! ### Cursors -/

/-- Why a text is no number of at most 64 bits. -/
inductive NumberError where
  | empty | invalid | tooLarge
deriving DecidableEq, Repr

/-- The error in words. -/
def NumberError.message : NumberError → String
  | empty => "cannot parse integer from empty string"
  | invalid => "invalid digit found in string"
  | tooLarge => "number too large to fit in target type"

/-- Read the digits that follow the number `n`. -/
def readDigits (n : Nat) : List Char → Except NumberError Nat
  | [] => .ok n
  | c :: rest =>
    if c.isDigit then
      let m := 10 * n + (c.toNat - '0'.toNat)
      if m < Nat.pow 2 64 then readDigits m rest else .error .tooLarge
    else .error .invalid

/-- Read a number. A plus sign may stand before it. -/
def readNumber (cs : List Char) : Except NumberError Nat :=
  match cs with
  | [] => .error .empty
  | '+' :: c :: rest => readDigits 0 (c :: rest)
  | _ => readDigits 0 cs

/-- A text without the white space around it. -/
def trim (cs : List Char) : List Char :=
  ((cs.dropWhile isBlank).reverse.dropWhile isBlank).reverse

/-- Why a text is no cursor. -/
inductive CursorError where
  | noColon
  | line (e : NumberError)
  | column (e : NumberError)
deriving DecidableEq, Repr

/-- The error in words, about the text `src`. -/
def CursorError.message (src : String) : CursorError → String
  | noColon => s!"expected LINE:COL, got `{src}`"
  | line e => s!"bad line in `{src}`: {e.message}"
  | column e => s!"bad column in `{src}`: {e.message}"

/-- Read a cursor: a line and a column with a colon between them. -/
def readCursor (src : List Char) : Except CursorError Position :=
  match src.dropWhile (· != ':') with
  | [] => .error .noColon
  | _ :: col => do
    let line ← (readNumber (trim (src.takeWhile (· != ':')))).mapError .line
    let col ← (readNumber (trim col)).mapError .column
    return ⟨line, col⟩

/-! ### Reading the arguments -/

/-- Why arguments are refused. -/
inductive ArgumentError where
  /-- The path or the keys are missing. -/
  | missing
  /-- There is no such option, or there is a second path. -/
  | unexpected (argument : String)
  /-- A value is missing, or it is a path and empty. -/
  | missingValue (slot : Slot)
  /-- A value is no cursor. -/
  | cursor (value : String) (e : CursorError)
  /-- A value is given twice. -/
  | repeated (slot : Slot)
  /-- The option `--write` is given twice. -/
  | repeatedWrite
  /-- The option `--write` has a value. -/
  | needlessValue (value : String)
deriving DecidableEq, Repr

/-- The error in words. -/
def ArgumentError.message : ArgumentError → String
  | missing => "error: the following required arguments were not provided:"
  | unexpected a => s!"error: unexpected argument '{a}' found"
  | missingValue s => s!"error: a value is required for '{s.usage}' but none was supplied"
  | cursor v e => s!"error: invalid value '{v}' for '{Slot.cursor.usage}': {e.message v}"
  | repeated s => s!"error: the argument '{s.usage}' cannot be used multiple times"
  | repeatedWrite => "error: the argument '--write' cannot be used multiple times"
  | needlessValue v => s!"error: unexpected value '{v}' for '--write' found; no more were expected"

/-- The arguments read so far. -/
structure Draft where
  path : Option String := none
  keys : Option String := none
  cursors : List Position := []
  language : Option String := none
  config : Option String := none
  write : Bool := false
  /-- The value that has not been looked at, which an option may still wait for. -/
  pending : Option (Slot × Option String) := none
  /-- No more options follow. -/
  plain : Bool := false

namespace Draft

variable (d : Draft)

/-- Look at a value. -/
def fill (slot : Slot) (v : String) : Except ArgumentError Draft :=
  match slot with
  | .path => if v.isEmpty then .error (.missingValue slot) else .ok { d with path := some v }
  | .keys => if d.keys.isSome then .error (.repeated slot) else .ok { d with keys := some v }
  | .cursor =>
    match readCursor v.toList with
    | .ok p => .ok { d with cursors := d.cursors ++ [p] }
    | .error e => .error (.cursor v e)
  | .language =>
    if d.language.isSome then .error (.repeated slot) else .ok { d with language := some v }
  | .config =>
    if d.config.isSome then .error (.repeated slot)
    else if v.isEmpty then .error (.missingValue slot)
    else .ok { d with config := some v }

/-- Look at the value that has not been looked at. -/
def settle : Except ArgumentError Draft :=
  match d.pending with
  | none => .ok d
  | some (slot, none) => .error (.missingValue slot)
  | some (slot, some v) => { d with pending := none }.fill slot v

/-- An option that has a value, which may be attached to it. -/
def option (slot : Slot) (attached : Option String) : Except ArgumentError Draft := do
  let d ← d.settle
  match attached with
  | some v => d.fill slot v
  | none => return { d with pending := some (slot, none) }

/-- The option to write the result back. -/
def writeOption (attached : Option String) : Except ArgumentError Draft := do
  match attached with
  | some v => throw (.needlessValue v)
  | none =>
    let d ← d.settle
    if d.write then throw .repeatedWrite else return { d with write := true }

/-- An option with a long name. -/
def long (body : List Char) : Except ArgumentError Draft :=
  let name := body.takeWhile (· != '=')
  let attached := match body.dropWhile (· != '=') with
    | [] => none
    | _ :: v => some (String.ofList v)
  match Slot.ofOption? name with
  | some slot => d.option slot attached
  | none =>
    if name = "write".toList then d.writeOption attached
    else .error (.unexpected (String.ofList ('-' :: '-' :: name)))

/-- An option with a name of one letter. -/
def short (letter : Char) (attached : List Char) : Except ArgumentError Draft :=
  if letter = 'k' then
    match attached with
    | [] => d.option .keys none
    | '=' :: v => d.option .keys (some (String.ofList v))
    | v => d.option .keys (some (String.ofList v))
  else .error (.unexpected (String.ofList ['-', letter]))

/-- An argument that is no option. -/
def value (arg : String) : Except ArgumentError Draft :=
  match d.pending, d.plain with
  | some (slot, none), false => .ok { d with pending := some (slot, some arg) }
  | _, _ =>
    if d.path.isSome ∨ d.pending.any (·.1 == .path) then .error (.unexpected arg)
    else do return { ← d.settle with pending := some (.path, some arg) }

/-- Read one argument. -/
def add (arg : String) : Except ArgumentError Draft :=
  match d.plain, arg.toList with
  | false, ['-', '-'] => .ok { d with plain := true }
  | false, '-' :: '-' :: body => d.long body
  | false, '-' :: c :: attached => d.short c attached
  | _, _ => d.value arg

/-- The arguments are all read. -/
def finish : Except ArgumentError Arguments := do
  let d ← d.settle
  match d.path, d.keys with
  | some path, some keys =>
    return { path, keys, cursors := d.cursors, language := d.language, config := d.config,
             write := d.write }
  | _, _ => throw .missing

end Draft

/-- Read the arguments of a call. -/
def Arguments.read (args : List String) : Except ArgumentError Arguments := do
  (← args.foldlM Draft.add {}).finish

end ModalEdit.CommandLine
