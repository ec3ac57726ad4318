import ModalEdit.Text.Document
import ModalEdit.Unicode.Alphabetic

/-!
# Markup elements

A tag is `<name ...>` or `</name ...>`; declarations, comments and tags that close themselves do not
count. An element runs from an opening tag to the closing tag that ends it: a closing tag takes the
nearest opening tag of its name that is still open and discards those opened after it.

`Document.tagSpan` is the innermost element around the cursor.
-/

namespace ModalEdit

/-- A tag in a text. -/
structure Tag where
  /-- What the tag opens or closes. -/
  name : Text
  /-- The tag closes an element. -/
  closing : Bool
  /-- Offset of its `<`. -/
  start : Nat
  /-- Offset behind its `>`. -/
  stop : Nat
deriving DecidableEq, Repr

namespace Tag

/-- The tag whose `<` has offset `start` and is followed by `rest`. -/
def read? (start : Nat) (rest : Text) : Option Tag :=
  let inside := rest.takeWhile fun c => c != '<' && c != '>'
  if rest[inside.length]? = some '>' then
    let closing := inside.head? == some '/'
    let label := if closing then inside.tail else inside
    let name := label.takeWhile (!isBlank ·)
    if !closing && label.getLast? == some '/' then none
    else if name.head?.any isLetter then some ⟨name, closing, start, start + inside.length + 2⟩
    else none
  else none

/-- The tags of a text whose first character has offset `i`. After a tag `skip` characters still
belong to it. -/
def scan (i skip : Nat) : Text → List Tag
  | [] => []
  | c :: cs =>
    match skip with
    | skip + 1 => scan (i + 1) skip cs
    | 0 =>
      if c = '<' then
        match read? i cs with
        | some tag => tag :: scan (i + 1) (tag.stop - (i + 1)) cs
        | none => scan (i + 1) 0 cs
      else scan (i + 1) 0 cs

end Tag

/-- An opening tag and the closing tag that ends its element. -/
structure Element where
  /-- The tag in front. -/
  opening : Tag
  /-- The tag behind. -/
  closing : Tag
deriving DecidableEq, Repr

namespace Element

/-- The elements that the tags form, in the order in which they end. The tags still open are given
from the innermost out. -/
def pair (stillOpen : List Tag) : List Tag → List Element
  | [] => []
  | tag :: tags =>
    if ¬ tag.closing then pair (tag :: stillOpen) tags
    else
      match stillOpen.dropWhile fun o => o.name != tag.name with
      | opening :: outer => ⟨opening, tag⟩ :: pair outer tags
      | [] => pair stillOpen tags

/-- The element covers the character with offset `o`; its tags belong to it. -/
def covers (e : Element) (o : Nat) : Bool :=
  decide (e.opening.start ≤ o) && decide (o < e.closing.stop)

/-- The element that starts last; of several the first. -/
def innermost : List Element → Option Element
  | [] => none
  | e :: es =>
    match innermost es with
    | some best => if e.opening.start < best.opening.start then some best else some e
    | none => some e

end Element

/-- The elements of a document. -/
def Document.elements (d : Document) : List Element := Element.pair [] (Tag.scan 0 0 d.text)

/-- The innermost element around the cursor, without its tags unless `around`. -/
def Document.tagSpan (d : Document) (around : Bool) (p : Position) : Option Range := do
  let e ← Element.innermost (d.elements.filter (·.covers (d.offsetOf p)))
  if around then return .between (d.positionAt e.opening.start) (d.positionAt e.closing.stop)
  return .between (d.positionAt e.opening.stop) (d.positionAt e.closing.start)

end ModalEdit
