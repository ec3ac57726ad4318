import ModalEdit.Proofs.Engine.Frame
import ModalEdit.Proofs.Key.NormalForm

/-!
# Bindings that are never begun

A binding is offered the keys before every built-in action, but it can only run or wait when the
first of the keys pending is its own first key (`Action.answer_bound_of_head?`). What is pending was
begun in the mode of the moment, because a key that waits or fails leaves the mode alone. So keys
typed behind another key, such as what an operator works on, a character searched for or the keys of
a text object, can never begin a binding (`Engine.Unbound`).

`Engine.handleKeys_withBindings` draws the conclusion for runs: as long as no key that begins
something new is the first key of a binding, the user's bindings make no difference at all.
-/

namespace ModalEdit

variable {bs : List Binding} {key : Key} {keys : List Key} {m : Mode} {s : State}
  {settings : Settings}

/-- In the mode the binding is called by keys that begin with `k`. -/
def Binding.BeginsWith (b : Binding) (m : Mode) (k : Key) : Prop :=
  b.modes.has m = true ∧ b.keys.head? = some k

instance (b : Binding) (m : Mode) (k : Key) : Decidable (b.BeginsWith m k) :=
  inferInstanceAs (Decidable (_ ∧ _))

/-- Keys that begin otherwise are nothing to a binding. -/
theorem Action.answer_bound_of_head? {b : Binding} {k : Key} (hne : b.keys ≠ [])
    (hk : b.keys.head? ≠ some k) (settings : Settings) (keys : List Key) (s : State) :
    (bound b).answer settings (k :: keys) s = .ok .noMatch s := by
  obtain ⟨l, ls, hls⟩ := List.exists_cons_of_ne_nil hne
  have hlk : l ≠ k := by
    rintro rfl
    exact hk (by rw [hls, List.head?_cons])
  simp only [answer, hls, Pattern.parseLiteral, if_neg hlk]
  rfl

namespace Keymap

/-- Actions to which the keys are nothing make no difference to those behind them. -/
theorem offer_append_of_noMatch {front : Keymap}
    (h : ∀ a ∈ front, a.answer settings keys s = .ok .noMatch s) (rest : Keymap) (waiting : Bool) :
    (front ++ rest).offer settings keys waiting s = rest.offer settings keys waiting s := by
  induction front with
  | nil => rfl
  | cons a front ih =>
    obtain ⟨ha, h⟩ := List.forall_mem_cons.1 h
    rw [List.cons_append, offer, Step.bind_of_ok ha]
    exact ih h

theorem forMode_withBindings (bs : List Binding) (m : Mode) :
    (withBindings bs).forMode m = forMode (bs.map .bound) m ++ builtin.forMode m :=
  List.filter_append _ _

/-- Keys with which no binding of the mode begins are only offered to the built-in actions. -/
theorem offer_withBindings {k : Key} (hbs : ∀ b ∈ bs, b.keys ≠ [])
    (h : ∀ b ∈ bs, ¬ b.BeginsWith m k) (keys : List Key) (waiting : Bool) :
    ((withBindings bs).forMode m).offer settings (k :: keys) waiting s =
      (builtin.forMode m).offer settings (k :: keys) waiting s := by
  rw [forMode_withBindings]
  refine offer_append_of_noMatch (fun a ha => ?_) _ _
  obtain ⟨ha, hm⟩ := List.mem_filter.1 ha
  obtain ⟨b, hb, rfl⟩ := List.mem_map.1 ha
  exact Action.answer_bound_of_head? (hbs b hb) (fun hk => h b hb ⟨hm, hk⟩) _ _ _

end Keymap

namespace Engine

/-- The engine with the user's bindings in front of the built-in actions. -/
def withBindings (e : Engine) (bs : List Binding) : Engine := { e with keymap := .withBindings bs }

/-- Nothing is pending, and the key is the first one of a binding of the mode. -/
def BeginsBinding (e : Engine) (bs : List Binding) (key : Key) : Prop :=
  e.session.pending = [] ∧ ∃ b ∈ bs, b.BeginsWith e.session.mode key

instance (e : Engine) (bs : List Binding) (key : Key) : Decidable (e.BeginsBinding bs key) :=
  inferInstanceAs (Decidable (_ ∧ _))

/-- What is pending does not begin with the first key of a binding of the mode. -/
def Unbound (e : Engine) (bs : List Binding) : Prop :=
  ∀ k ∈ e.session.pending.head?, ∀ b ∈ bs, ¬ b.BeginsWith e.session.mode k

theorem unbound_of_nil {e : Engine} (h : e.session.pending = []) : e.Unbound bs := by
  rw [Unbound, h]
  exact nofun

variable {e : Engine}

/-- With the next key it still does not, unless the key begins a binding. -/
theorem Unbound.head?_append (h : e.Unbound bs) (hkey : ¬ e.BeginsBinding bs key) :
    ∃ k rest, e.session.pending ++ [key] = k :: rest ∧
      ∀ b ∈ bs, ¬ b.BeginsWith e.session.mode k := by
  cases hpending : e.session.pending with
  | nil => exact ⟨key, [], rfl, fun b hb hbegins => hkey ⟨hpending, b, hb, hbegins⟩⟩
  | cons k rest => exact ⟨k, rest ++ [key], rfl, h k (by rw [hpending, List.head?_cons]; rfl)⟩

/-- **A key keeps the pending keys away from the bindings.** If any are pending afterwards, the mode
is that in which they were begun. -/
theorem Unbound.handleKey (h : e.Unbound bs) (hkey : ¬ e.BeginsBinding bs key) (ed : Editor) :
    (e.handleKey ed key).2.1.Unbound bs := by
  rcases e.handleKey_pending ed key with hnil | ⟨hmode, htyped | hkept⟩
  · exact unbound_of_nil hnil
  · obtain ⟨k, rest, hcons, hk⟩ := h.head?_append hkey
    simp only [Unbound, hmode, htyped, hcons, List.head?_cons, Option.mem_some_iff, forall_eq']
    exact hk
  · rw [Unbound, hmode, hkept]
    exact h

/-- **One key.** Bindings that it does not begin make no difference to what becomes of it. -/
theorem handleKey_withBindings (hk : e.keymap = .builtin) (hbs : ∀ b ∈ bs, b.keys ≠ [])
    (h : e.Unbound bs) (hkey : ¬ e.BeginsBinding bs key) (ed : Editor) :
    (e.withBindings bs).handleKey ed key =
      let out := e.handleKey ed key
      (out.1, out.2.1.withBindings bs, out.2.2) := by
  obtain ⟨k, rest, htyped, hbegins⟩ := h.head?_append hkey
  simp only [Engine.handleKey, withBindings, hk, htyped, Keymap.offer_withBindings hbs hbegins]
  split
  · rfl
  · split <;> rfl

/-- **A run of keys** that begin no binding is that of the built-in actions alone. -/
theorem handleKeys_unbound (hk : e.keymap = .builtin) (hbs : ∀ b ∈ bs, b.keys ≠ [])
    (h : e.Unbound bs) (ed : Editor) (keys : List Key)
    (hkeys : ∀ i, (hi : i < keys.length) →
      ¬ (e.handleKeys ed (keys.take i)).2.1.BeginsBinding bs keys[i]) :
    (e.withBindings bs).handleKeys ed keys =
      let run := e.handleKeys ed keys
      (run.1, run.2.1.withBindings bs, run.2.2) := by
  induction keys generalizing e ed with
  | nil => rfl
  | cons key keys ih =>
    have hkey : ¬ e.BeginsBinding bs key := hkeys 0 (Nat.succ_pos _)
    have hrest := ih ((e.handleKey_keeps ed key).1.trans hk) (h.handleKey hkey ed)
      (e.handleKey ed key).2.2 fun i hi => hkeys (i + 1) (Nat.succ_lt_succ hi)
    simp only [handleKeys, handleKey_withBindings hk hbs h hkey, hrest]

/-- A binding that is accepted has keys. -/
theorem keys_ne_nil_of_readAll {config : Option Toml.Value} :
    ∀ b ∈ (Binding.readAll config).1, b.keys ≠ [] := by
  intro b hb
  obtain ⟨script, hscript⟩ := Binding.exists_script_of_readAll hb
  exact (isSpelled_of_parseKeys hscript).1

/-- **Bindings that are never begun make no difference.** Take the bindings accepted from any
configuration and, from an engine with nothing pending, a run of the built-in actions in which no
key pressed while nothing is pending is the first key of a binding of the mode at that moment. Then
after every key the engine with the bindings has reported the same, and has come to the same session
and the same editor. -/
theorem handleKeys_withBindings (e : Engine) (ed : Editor) (config : Option Toml.Value)
    (keys : List Key) (hk : e.keymap = .builtin) (hpending : e.session.pending = [])
    (hkeys : ∀ i, (hi : i < keys.length) → ¬ (e.handleKeys ed (keys.take i)).2.1.BeginsBinding
      (Binding.readAll config).1 keys[i]) :
    let bs := (Binding.readAll config).1
    ∀ n, (e.withBindings bs).handleKeys ed (keys.take n) =
      let run := e.handleKeys ed (keys.take n)
      (run.1, run.2.1.withBindings bs, run.2.2) := by
  intro bs n
  refine handleKeys_unbound hk keys_ne_nil_of_readAll (unbound_of_nil hpending) ed _ fun i hi => ?_
  obtain ⟨hin, hi⟩ := Nat.lt_min.1 (List.length_take ▸ hi)
  rw [List.take_take, Nat.min_eq_left (Nat.le_of_lt hin), List.getElem_take]
  exact hkeys i hi

/-- A binding to the key of a motion in Normal mode: behind the key of an operator and in Insert
mode the key means what it always has. -/
theorem handleKeys_withBindings_behind :
    let d := Document.ofText "ab cd".toList
    let config := Toml.Value.array [.table [("command", .string "save"), ("keys", .string "w")]]
    let bs := (Binding.readAll (some config)).1
    let keys : List Key := [.char 'c', .char 'w', .char 'w', .esc]
    (∀ i, (hi : i < keys.length) →
      ¬ (({} : Engine).handleKeys (.ofDocument d []) (keys.take i)).2.1.BeginsBinding bs keys[i]) ∧
    bs.map (·.keys) = [[.char 'w']] ∧
      (({} : Engine).withBindings bs).handleKeys (.ofDocument d []) keys =
        let run := ({} : Engine).handleKeys (.ofDocument d []) keys
        (run.1, run.2.1.withBindings bs, run.2.2) := by
  intro d config bs keys
  have hkeys : ∀ i, (hi : i < keys.length) → ¬ (({} : Engine).handleKeys (.ofDocument d [])
      (keys.take i)).2.1.BeginsBinding bs keys[i] := by
    decide +kernel
  exact ⟨hkeys, by decide +kernel,
    handleKeys_withBindings {} (.ofDocument d []) (some config) keys rfl rfl hkeys 4⟩

end Engine

end ModalEdit
