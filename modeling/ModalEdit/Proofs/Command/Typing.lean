import ModalEdit.Proofs.Command.Batch
import ModalEdit.Proofs.Command.Pairing
import ModalEdit.Proofs.Text.Copies

/-!
# Typing at several cursors

Typing a character at different cursors puts it in at all of them in one batch and leaves each
cursor behind its own (`Step.type_text`). Backspace there takes the same characters out again: the
pieces before the cursors are the ones that have been put in, and no two of them meet
(`Distinct.edit_eraseBefore`), so it leads back to the document and the cursors of before
(`Step.type_deleteBefore`).
-/

namespace ModalEdit

/-! ### Where the cursors are -/

/-- If nothing is repeated, nothing is left out. -/
theorem eraseReps_eq_self {α : Type} [BEq α] [LawfulBEq α] {l : List α} (h : l.Nodup) :
    l.eraseReps = l := by
  have hloop : ∀ (l : List α) (a : α) (acc : List α), (a :: l).Nodup →
      List.eraseRepsBy.loop (· == ·) a l acc = acc.reverse ++ a :: l := by
    intro l
    induction l with
    | nil => intro a acc _; simp [List.eraseRepsBy.loop]
    | cons b l ih =>
      intro a acc h
      obtain ⟨ha, h⟩ := List.nodup_cons.1 h
      have hne : (a == b) = false := by
        simpa using fun heq : a = b => ha (heq ▸ List.mem_cons_self)
      unfold List.eraseRepsBy.loop
      rw [hne, ih b (a :: acc) h]
      simp
  cases l with
  | nil => rfl
  | cons a l => exact hloop l a [] h

variable {d after : Document} {plan : Plan} {ps : List Position} {s : State}

/-- Where every selection has an edit, each cursor is behind the text of its own. -/
theorem typedTo_map {α : Type} (sel : α → Selection) (edit : α → Edit) (stop : α → Nat)
    {xs : List α} {k : Nat}
    (hends : ∀ i x, xs[i]? = some x → plan.endOf? (k + i) = some (stop x)) :
    typedTo d after plan k (xs.map fun x => (sel x, some (edit x))) =
      xs.map fun x => after.positionAt (stop x) := by
  induction xs generalizing k with
  | nil => rfl
  | cons x xs ih =>
    have hfirst : plan.endOf? k = some (stop x) := hends 0 x rfl
    have hrest := ih (k := k + 1) fun i y hy => by
      rw [Nat.add_right_comm, Nat.add_assoc]
      exact hends (i + 1) y hy
    rw [List.map_cons, typedTo, hfirst, hrest]
    rfl

/-- **A key typed at different cursors**, when its batch is made and the plan knows where the text
of each edit ends. -/
theorem Step.type_of_edit {α : Type} {t : Typed} {xs : List α} (pos : α → Position)
    (edit : α → Edit) {stop : α → Nat} (hdoc : s.editor.document = some d)
    (hreadonly : s.editor.readonly = false) (hsels : s.selections = (xs.map pos).map .cursor)
    (hnodup : (xs.map pos).Nodup) (hedits : ∀ x ∈ xs, t.edit? d (.cursor (pos x)) = some (edit x))
    (hedit : d.edit (xs.map edit) = .ok (after, plan))
    (hends : ∀ i x, xs[i]? = some x → plan.endOf? i = some (stop x)) :
    Step.type d t s =
      .ok () ((s.edited after).setCursors (xs.map fun x => after.positionAt (stop x))) := by
  have hcursors : ((xs.map pos).map Selection.cursor).Nodup :=
    hnodup.map fun p q heq => congrArg Selection.active heq
  have htypings : s.typings d t = xs.map fun x => (Selection.cursor (pos x), some (edit x)) := by
    rw [State.typings, hsels, eraseReps_eq_self hcursors, List.map_map, List.map_map]
    refine List.map_congr_left fun x hx => ?_
    simp only [Function.comp_apply, hedits x hx]
  have hbatch : (s.typings d t).filterMap (·.2) = xs.map edit := by
    rw [htypings, List.filterMap_map]
    show xs.filterMap (fun x => some (edit x)) = _
    rw [List.filterMap_eq_map']
  have hstops : typedTo d after plan 0 (s.typings d t) =
      xs.map fun x => after.positionAt (stop x) := by
    rw [htypings]
    exact typedTo_map _ _ _ fun i x hx => by rw [Nat.zero_add, hends i x hx]
  rw [Step.type, Step.get_bind]
  dsimp only
  rw [hbatch, Step.bind_of_ok (Step.commit_of_edit hdoc hreadonly hedit), hstops]
  rfl

namespace Document

/-- Remove the character before a position. -/
def eraseBefore (d : Document) (p : Position) : Edit := .delete (.between (d.stepBack p) p)

/-- When `c` has been put in at each of the positions: remove the characters before the places to
which they have come. -/
def erasures (d : Document) (ps : List Position) (c : Char) : List Edit :=
  ps.map fun p => (d.withCopies ps [c]).eraseBefore (d.pushedTo ps [c] p)

/-- The texts that are put in start where the positions are. -/
theorem perm_starts_inserts (d : Document) (ps : List Position) (t : Text) :
    ((d.inOrder (ps.map (Edit.insert · t))).map (·.start)).Perm (ps.map d.offsetOf) := by
  have hperm := d.perm_starts_inOrder (ps.map (Edit.insert · t))
  rwa [List.map_map] at hperm

namespace Distinct

variable {c : Char} {p : Position} (h : d.Distinct ps) (hc : isLineBreak c → c = '\n')

/-! ### What has been put in -/

section

include h

theorem sorted_starts (t : Text) :
    ((d.inOrder (ps.map (Edit.insert · t))).map (·.start)).Pairwise (· < ·) := by
  refine List.pairwise_map.2 (sorted_inOrder ?_)
  rw [List.map_map]
  exact h.nodup_offsets

/-- In document order the texts that have been put in are the characters before the places that the
offsets have come to. -/
theorem map_parts_undoing (c : Char) :
    (undoing d.text (Plan.placed 0 0 (d.inOrder (ps.map (Edit.insert · [c]))))).map
        OffsetEdit.parts =
      ((d.inOrder (ps.map (Edit.insert · [c]))).map (·.start)).map fun o =>
        (pushed (ps.map d.offsetOf) 1 o - 1, pushed (ps.map d.offsetOf) 1 o, []) := by
  have halike : ∀ e ∈ d.inOrder (ps.map (Edit.insert · [c])),
      e.text = [c] ∧ e.stop = e.start := by
    intro e he
    obtain ⟨e', he', hstart, hstop, htext⟩ := exists_of_mem_inOrder he
    obtain ⟨p, -, rfl⟩ := List.mem_map.1 he'
    exact ⟨htext, hstop.trans hstart.symm⟩
  have hperm := d.perm_starts_inserts ps [c]
  rw [placed_of_alike (a := 1) (r := 0) (List.pairwise_map.1 (h.sorted_starts [c]))
    fun e he => by simp [halike e he], undoing, List.map_map, List.map_map, List.map_map]
  refine List.map_congr_left fun e he => ?_
  have hmem : e.start ∈ ps.map d.offsetOf := hperm.mem_iff.1 (List.mem_map_of_mem he)
  have hpushed := pushed_eq h.nodup_offsets [c] e.start
  rw [atEach, if_pos hmem, ← hperm.countP_eq] at hpushed
  obtain ⟨htext, hstop⟩ := halike e he
  have hnothing : cut d.text e.start e.stop = [] := by simp [cut, hstop]
  simp only [Function.comp_apply, OffsetEdit.parts, htext, hnothing, List.length_singleton] at *
  rw [hpushed]
  simp

/-- No cursor is at the start of the text when something has been typed. -/
theorem pushedTo_ne_origin (hp : p ∈ ps) : d.pushedTo ps [c] p ≠ .origin := by
  intro heq
  have hpushed := lt_pushed Nat.one_pos (List.mem_map_of_mem hp : d.offsetOf p ∈ ps.map d.offsetOf)
  have hoffset := h.offsetOf_pushedTo [c] hp
  have hzero : (d.withCopies ps [c]).offsetOf .origin = 0 := by
    rw [offsetOf_of_inBounds inBounds_origin]
    exact congrArg (· + 0) lineStart_zero
  rw [heq, hzero, List.length_singleton] at hoffset
  omega

end

/-! ### The batch of the backspace -/

include h hc

/-- The positions are still different from each other when a character has been typed. -/
theorem typed : (d.withCopies ps [c]).Distinct (ps.map (d.pushedTo ps [c])) :=
  h.withCopies fun b hb => by rw [List.mem_singleton.1 hb]; exact hc

/-- The character before a cursor, by offsets. -/
theorem parts_eraseBefore (hp : p ∈ ps) :
    let after := d.withCopies ps [c]
    let e := after.eraseBefore (d.pushedTo ps [c] p)
    (after.offsetOf e.range.start, after.offsetOf e.range.stop, e.text) =
      (pushed (ps.map d.offsetOf) 1 (d.offsetOf p) - 1, pushed (ps.map d.offsetOf) 1 (d.offsetOf p),
        []) := by
  intro after e
  have hq := (h.typed hc).inBounds _ (List.mem_map_of_mem hp)
  have hrange : e.range = ⟨after.stepBack (d.pushedTo ps [c] p), d.pushedTo ps [c] p, none⟩ :=
    Range.between_of_le (after.stepBack_le _)
  rw [hrange, (h.typed hc).lineFeedsOnly.offsetOf_stepBack hq, h.offsetOf_pushedTo [c] hp]
  rfl

/-- **In document order the characters before the cursors are the texts that have been put in.** -/
theorem map_parts_erasures :
    ((d.withCopies ps [c]).inOrder (d.erasures ps c)).map OffsetEdit.parts =
      ((d.inOrder (ps.map (Edit.insert · [c]))).map (·.start)).map fun o =>
        (pushed (ps.map d.offsetOf) 1 o - 1, pushed (ps.map d.offsetOf) 1 o, []) := by
  have hstarts := d.perm_starts_inserts ps [c]
  have hperm := (d.withCopies ps [c]).perm_parts_inOrder (d.erasures ps c)
  rw [erasures, List.map_map] at hperm
  symm
  refine eq_of_perm_of_strict (R := fun a b => a.1 ≤ b.1) ?_ ?_ ?_
  · refine List.pairwise_map.2 ((h.sorted_starts [c]).imp_of_mem fun {o o'} ho _ hlt => ?_)
    have := (pushed_sub_one_lt_iff (hstarts.mem_iff.1 ho)).2 hlt
    dsimp only
    omega
  · exact List.pairwise_map.2 (pairwise_start_inOrder _)
  · refine ((hstarts.map _).trans (.of_eq ?_)).trans hperm.symm
    rw [List.map_map]
    exact List.map_congr_left fun p hp => (h.parts_eraseBefore hc hp).symm

/-- No two of them meet. -/
theorem apart_erasures :
    ((d.withCopies ps [c]).inOrder (d.erasures ps c)).Pairwise fun e f => e.stop ≤ f.start := by
  have hparts : (((d.withCopies ps [c]).inOrder (d.erasures ps c)).map
      OffsetEdit.parts).Pairwise fun a b => a.2.1 ≤ b.1 := by
    rw [h.map_parts_erasures hc]
    refine List.pairwise_map.2 ((h.sorted_starts [c]).imp fun hlt => ?_)
    exact Nat.le_sub_one_of_lt (strictMono_pushed (ps.map d.offsetOf) 1 hlt)
  exact List.pairwise_map.1 hparts

/-- Where the character that is taken out has been is the offset of before. -/
theorem endOf?_erasures {plan : Plan}
    (hplan : (d.withCopies ps [c]).plan (d.erasures ps c) = .ok plan) {i : Nat}
    (hi : ps[i]? = some p) : plan.endOf? i = some (d.offsetOf p) := by
  let after := d.withCopies ps [c]
  let os := ps.map d.offsetOf
  have hmem : ∀ {p}, p ∈ ps → d.offsetOf p ∈ os := List.mem_map_of_mem
  have hp := List.mem_of_getElem? hi
  have hparts : ∀ p ∈ ps, _ := fun p hp => h.parts_eraseBefore hc hp
  simp only [Prod.mk.injEq] at hparts
  have hstarts : (d.erasures ps c).map (fun e => after.offsetOf e.range.start) =
      os.map fun o => pushed os 1 o - 1 := by
    rw [erasures, List.map_map, List.map_map]
    exact List.map_congr_left fun p hp => (hparts p hp).1
  have hnodup : (os.map fun o => pushed os 1 o - 1).Nodup := by
    refine h.nodup_offsets.map_on fun o ho o' ho' heq => ?_
    have hlt : pushed os 1 o - 1 < pushed os 1 o' - 1 ↔ o < o' := pushed_sub_one_lt_iff ho
    have hgt : pushed os 1 o' - 1 < pushed os 1 o - 1 ↔ o' < o := pushed_sub_one_lt_iff ho'
    omega
  have halike : ∀ e ∈ d.erasures ps c, e.text.length = 0 ∧
      after.offsetOf e.range.stop - after.offsetOf e.range.start = 1 := by
    refine List.forall_mem_map.2 fun p hp => ⟨rfl, ?_⟩
    have := lt_pushed Nat.one_pos (hmem hp)
    rw [(hparts p hp).1, (hparts p hp).2.1]
    show pushed os 1 _ - (pushed os 1 _ - 1) = 1
    omega
  have hbefore : (os.map fun o => pushed os 1 o - 1).countP
      (fun q => decide (q < pushed os 1 (d.offsetOf p) - 1)) =
        os.countP fun q => decide (q < d.offsetOf p) := by
    rw [List.countP_map]
    refine List.countP_congr fun q hq => ?_
    simp [pushed_sub_one_lt_iff hq]
  have hend := places_of_alike hplan halike (hstarts ▸ hnodup) (i := i)
    (by rw [erasures, List.getElem?_map, hi]; rfl)
  have hpushed := pushed_eq h.nodup_offsets [c] (d.offsetOf p)
  rw [atEach, if_pos (hmem hp), List.length_singleton] at hpushed
  dsimp only at hend
  rw [hstarts, (hparts p hp).1, hbefore] at hend
  rw [hend, hpushed]
  simp [os]

/-- **Backspace takes out again what has been typed.** -/
theorem edit_erasures :
    ∃ plan, (d.withCopies ps [c]).edit (d.erasures ps c) = .ok (d, plan) ∧
      ∀ i p, ps[i]? = some p → plan.endOf? i = some (d.offsetOf p) := by
  let after := d.withCopies ps [c]
  have hfits : ∀ e ∈ d.erasures ps c, after.Fits e.range := by
    refine List.forall_mem_map.2 fun p hp => ?_
    have hq := (h.typed hc).inBounds _ (List.mem_map_of_mem hp)
    exact fits_between (inBounds_stepBack hq) hq
  have hplan : after.plan (d.erasures ps c) = .ok ⟨after.inOrder (d.erasures ps c)⟩ :=
    plan_eq_ok_iff.2 ⟨fun e he => ⟨(hfits e he).start, (hfits e he).stop⟩,
      (h.apart_erasures hc).isChain, rfl⟩
  have hedit := edit_eq_ok_iff.2 ⟨hplan, rfl⟩
  have hinserts := h.edit_inserts [c]
  have hback := rebuild_undoing []
    (inSequence_of_plan (h.fits_inserts [c]) (edit_eq_ok_iff.1 hinserts).1)
    (rfl : 0 + 0 = 0 + 0)
  rw [List.nil_append, List.length_nil, List.drop_zero,
    ← text_of_edit (h.fits_inserts [c]) hinserts] at hback
  -- what is taken out are the texts that have been put in, so the old text is left
  have hparts := (h.map_parts_erasures hc).trans (h.map_parts_undoing c).symm
  have hrestored :=
    eq_of_text ((text_of_edit hfits hedit).trans ((rebuild_congr hparts).trans hback))
  rw [hrestored] at hedit
  exact ⟨_, hedit, fun i p hi => h.endOf?_erasures hc hplan hi⟩

end Distinct

end Document

/-! ### The keys that type -/

/-- The edit of a backspace at a cursor behind the start of the text. -/
theorem Typed.edit?_deleteBefore {p : Position} (hp : d.InBounds p) (hne : p ≠ .origin) :
    Typed.deleteBefore.edit? d (.cursor p) = some (d.eraseBefore p) := by
  have hempty : (Selection.cursor p).isEmpty = true := by simp [Selection.isEmpty, Selection.cursor]
  have hclamp : d.clamp (Selection.cursor p).active = p := d.clamp_of_inBounds hp
  simp only [edit?, hempty, not_true_eq_false, ↓reduceIte, hclamp, hne, Document.eraseBefore]

section

variable {c : Char} (h : d.Distinct ps)
include h

/-- **Typing text** puts it in at every cursor and leaves the cursors behind it. -/
theorem Step.type_text (t : Text) (hdoc : s.editor.document = some d)
    (hreadonly : s.editor.readonly = false) (hsels : s.selections = ps.map .cursor) :
    Step.type d (.text t) s =
      .ok () ((s.edited (d.withCopies ps t)).setCursors (ps.map (d.pushedTo ps t))) := by
  have hid : ps.map (fun p => p) = ps := List.map_id ps
  refine Step.type_of_edit (fun p => p) (Edit.insert · t) hdoc hreadonly
    (hid.symm ▸ hsels) (hid.symm ▸ h.nodup) (fun p _ => ?_) (h.edit_inserts t)
    fun i p hp => h.endOf?_inserts t hp
  have hrange : (Selection.cursor p).range = .emptyAt p := if_pos (Position.le_refl p)
  rw [Typed.edit?, Edit.replace, hrange]
  rfl

/-- **Backspace** after a character has been typed leads back to the document and the cursors of
before. -/
theorem Step.type_deleteBefore (hc : isLineBreak c → c = '\n')
    (hdoc : s.editor.document = some (d.withCopies ps [c]))
    (hreadonly : s.editor.readonly = false)
    (hsels : s.selections = (ps.map (d.pushedTo ps [c])).map .cursor) :
    Step.type (d.withCopies ps [c]) .deleteBefore s = .ok () ((s.edited d).setCursors ps) := by
  obtain ⟨plan, hedit, hends⟩ := h.edit_erasures hc
  have hback : ps.map (fun p => d.positionAt (d.offsetOf p)) = ps.map id :=
    List.map_congr_left fun p hp => h.lineFeedsOnly.positionAt_offsetOf (h.inBounds p hp)
  rw [List.map_id] at hback
  have herases : ∀ p ∈ ps, Typed.deleteBefore.edit? (d.withCopies ps [c])
      (.cursor (d.pushedTo ps [c] p)) =
        some ((d.withCopies ps [c]).eraseBefore (d.pushedTo ps [c] p)) := fun p hp =>
    Typed.edit?_deleteBefore ((h.typed hc).inBounds _ (List.mem_map_of_mem hp))
      (h.pushedTo_ne_origin hp)
  rw [Step.type_of_edit _ _ hdoc hreadonly hsels (h.typed hc).nodup herases hedit hends, hback]

end

end ModalEdit
