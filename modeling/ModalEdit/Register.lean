import ModalEdit.Text.Lines

/-!
# Registers

What was last yanked or deleted is kept as one entry per cursor. An entry made of whole lines ends
in a line feed. The store also remembers the text it last put on the clipboard, so that text which
someone else has put there since can be told apart and adopted.
-/

namespace ModalEdit

/-- What one cursor contributed to the registers. -/
structure RegisterEntry where
  /-- The characters. -/
  text : Text
  /-- The text is whole lines. -/
  linewise : Bool
deriving DecidableEq, Repr

namespace RegisterEntry

/-- An entry; whole lines get the final line feed they lack. -/
def make (text : Text) (linewise : Bool) : RegisterEntry :=
  ⟨if linewise ∧ text.getLast? ≠ some '\n' then text ++ ['\n'] else text, linewise⟩

/-- An entry of characters. -/
def charwise (text : Text) : RegisterEntry := make text false

/-- An entry of whole lines. -/
def ofLines (text : Text) : RegisterEntry := make text true

/-- An entry of text from the clipboard, which is whole lines if it ends in a line feed. -/
def ofClipboard (text : Text) : RegisterEntry := make text (text.getLast? == some '\n')

/-- The text without the line feed that ends whole lines. -/
def body (e : RegisterEntry) : Text := if e.linewise then dropBreak e.text else e.text

end RegisterEntry

/-- The register entries and what the store knows of the clipboard. -/
structure Registers where
  /-- One entry per cursor of the last yank or delete. -/
  entries : List RegisterEntry := []
  /-- The text the store last wrote to the clipboard, if the write came through. -/
  published : Option Text := none
deriving DecidableEq, Repr

namespace Registers

variable (r : Registers)

/-- All entries in one: their bodies joined by line feeds, whole lines if all of them are. -/
def joined? : Option RegisterEntry :=
  if r.entries.isEmpty then none
  else
    some (.make (['\n'].intercalate (r.entries.map (·.body))) (r.entries.all (·.linewise)))

/-- The text that stands for all entries on the clipboard. -/
def clipboardText : Text := (r.joined?.map (·.text)).getD []

/-- Put new entries in the place of the old ones. -/
def store (entries : List RegisterEntry) : Registers := ⟨entries, none⟩

/-- Note that `text` has reached the clipboard. -/
def noteWritten (text : Text) : Registers := { r with published := some text }

/-- The text on the clipboard is not what the store put there. -/
def isForeign (text : Text) : Bool :=
  !text.isEmpty &&
    match r.published with
    | some t => t != text
    | none => r.entries.isEmpty || r.clipboardText != text

/-- Adopt the text on the clipboard if someone else has put it there. -/
def sync (text : Text) : Registers :=
  if r.isForeign text then ⟨[.ofClipboard text], some text⟩ else r

/-- The entries for `n` cursors: one each if there are as many, else all in one for each. -/
def forCursors (n : Nat) : List RegisterEntry :=
  if r.entries.length = n then r.entries
  else
    match r.joined? with
    | some e => List.replicate n e
    | none => []

end Registers

end ModalEdit
