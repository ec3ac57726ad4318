import ModalEdit.Proofs.Command.Batch
import ModalEdit.Proofs.Span.Tag

/-!
# What is subtracted and indexed

Walks, spans and plans take differences of columns and offsets, cut texts at them and look edits up
by their places. `Document.Guarded` collects why none of this can go wrong, and `Document.guarded`
says that it holds of every document.
-/

namespace ModalEdit

namespace Document

/-- The differences, cuts and lookups made in a document are all defined. -/
structure Guarded (d : Document) : Prop where
  /-- The last character of a run is one column before its end and lies in the line. -/
  run : ∀ kind i, ∀ r ∈ runs kind (d.content i), r.start < r.stop ∧ r.stop ≤ d.lineLen i
  /-- A search that succeeds has found a character of the line, and stops short of it only behind
  another one. -/
  search : ∀ f again p q, d.find? f again p = some q → ∃ i, i < d.lineLen (d.clamp p).line ∧
    (f.direction = .after → 0 < i) ∧ q = ⟨(d.clamp p).line, f.landing i⟩
  /-- The distances from an offset to the brackets around it are not negative, and both brackets
  are characters of the text. -/
  pair : ∀ b o first last, d.enclosingPair? b o = some (first, last) →
    first ≤ o ∧ o ≤ last ∧ first < last ∧ last < d.size
  /-- A line can be cut at the column of any offset in it. -/
  cut : ∀ o, (d.positionAt o).col ≤ (d.content (d.positionAt o).line).length
  /-- Both tags of an element lie in the text, the second behind the first. -/
  element : ∀ e ∈ d.elements, e.Within d.size
  /-- An edit that opens a line puts in at least the line feed. -/
  opened : ∀ below i, 0 < (openLineEdit d below i).text.length
  /-- The edits of a plan lie in the text one behind the other, none with a negative length. -/
  plan : ∀ edits plan, (∀ e ∈ edits, d.Fits e.range) → d.plan edits = .ok plan →
    (plan.edits.Pairwise fun e f => e.stop ≤ f.start) ∧
      ∀ e ∈ plan.edits, e.start ≤ e.stop ∧ e.stop ≤ d.size
  /-- Every edit of a batch is known to its plan. -/
  known : ∀ edits plan i, d.plan edits = .ok plan → i < edits.length →
    (plan.startOf? i).isSome ∧ (plan.endOf? i).isSome

variable {d : Document}

/-- **Nothing that a walk, a span or a plan computes is undefined.** -/
theorem guarded (d : Document) : d.Guarded where
  run _ _ _ h := runs_bounds h
  search _ _ _ _ := exists_hit_of_find?
  pair _ _ _ _ := enclosingPair?_bounds
  cut o := (d.inBounds_positionAt o).2
  element _ := within_of_mem_elements
  opened below i := by cases below <;> simp [openLineEdit, Edit.insert]
  plan _ _ := pairwise_of_plan
  known _ _ _ hplan hi := ⟨isSome_startOf?_of_plan hplan hi, isSome_endOf?_of_plan hplan hi⟩

end Document

end ModalEdit
