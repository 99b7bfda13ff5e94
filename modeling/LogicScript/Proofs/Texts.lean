import Mathlib.Data.List.Perm.Subperm
import Mathlib.Logic.Relation
import LogicScript.Proofs.Contract

/-! Which values have a text.

To write out an object, all objects directly inside it are written out. So this comes to an end
exactly if no object that is met on the way is inside itself. -/
namespace LogicScript

open Relation

section Options

variable {α β : Type} {f g : α → Option β} {l : List α}

theorem mapM_congr (h : ∀ a ∈ l, f a = g a) : l.mapM f = l.mapM g := by
  induction l with
  | nil => rfl
  | cons a l ih =>
    rw [List.forall_mem_cons] at h
    rw [List.mapM_cons, List.mapM_cons, h.1, ih h.2]

theorem mapM_eq_none_iff : l.mapM f = none ↔ ∃ a ∈ l, f a = none := by
  induction l with
  | nil => simp
  | cons a l ih =>
    simp only [List.mapM_cons, List.mem_cons, or_and_right, exists_or, exists_eq_left, ← ih]
    cases f a with
    | none => simp
    | some b => cases l.mapM f <;> simp

end Options

def Value.object? : Value → Option ObjectId
  | .array o | .struct o => some o
  | _ => none

theorem Value.object?_widen (v : Value) (t : Ty) : (v.widen t).object? = v.object? := by
  unfold widen
  split <;> rfl

/-- The one object is directly inside the other one. -/
def Inside (objects : Array Object) (o' o : ObjectId) : Prop :=
  ∃ object, objects[o]? = some object ∧ ∃ v ∈ object.contents, v.object? = some o'

/-- The value is an object that is inside itself, or has such an object inside. -/
def Value.IsCircular (objects : Array Object) (v : Value) : Prop :=
  ∃ o, v.object? = some o ∧
    ∃ o', ReflTransGen (Inside objects) o' o ∧ TransGen (Inside objects) o' o'

theorem length_le_of_nodup {l : List Nat} {n : Nat} (h : l.Nodup) (hl : l ⊆ List.range n) :
    l.length ≤ n := by
  simpa using (h.subperm hl).length_le

theorem not_transGen_self_of_acc {α : Type} {r : α → α → Prop} {a b : α} (ha : Acc r a)
    (hba : ReflTransGen r b a) : ¬ TransGen r b b := by
  have hb : Acc (TransGen r) b := by
    rcases reflTransGen_iff_eq_or_transGen.mp hba with rfl | hba
    · exact ha.transGen
    · exact ha.transGen.inv hba
  induction hb with
  | intro b _ ih => exact fun hbb => ih b hbb (hbb.to_reflTransGen.trans hba) hbb

namespace Value

variable {objects : Array Object} {depth : Nat} {around : List ObjectId} {v : Value} {o : ObjectId}

theorem textIn_object (hv : v.object? = some o) : textIn objects (depth + 1) around v =
    if o ∈ around then none else
      match objects[o]? with
      | none => some ""
      | some object =>
        (object.contents.mapM (textIn objects depth (o :: around))).map object.written := by
  cases v <;> cases hv <;> rfl

theorem textIn_ne_none (hv : v.object? = none) : textIn objects depth around v ≠ none := by
  cases v <;> cases hv <;> cases depth <;> exact Option.some_ne_none _

/-- An object that could be written out has no endless chain of objects inside. -/
theorem acc_of_textIn (h : textIn objects depth around v ≠ none) (hv : v.object? = some o) :
    Acc (Inside objects) o := by
  induction depth generalizing around v o with
  | zero => cases v <;> cases hv <;> exact absurd rfl h
  | succ depth ih =>
    rw [textIn_object hv] at h
    split at h
    · exact absurd rfl h
    · constructor
      rintro o' ⟨object, hobject, w, hw, hwo⟩
      rw [hobject] at h
      have hcontents : object.contents.mapM (textIn objects depth (o :: around)) ≠ none :=
        fun hnone => h (by simp [hnone])
      exact ih (fun hnone => hcontents (mapM_eq_none_iff.mpr ⟨w, hw, hnone⟩)) hwo

/-- What cannot be written out holds an object inside itself: the objects around are distinct, so
the levels cannot be used up before one of them is met again. -/
theorem circular_of_textIn (hdepth : objects.size < depth + around.length) (hnodup : around.Nodup)
    (haround : around ⊆ List.range objects.size)
    (hinside : ∀ o, v.object? = some o → ∀ q ∈ around, TransGen (Inside objects) o q)
    (h : textIn objects depth around v = none) : v.IsCircular objects := by
  induction depth generalizing around v with
  | zero =>
    have hlength := length_le_of_nodup hnodup haround
    omega
  | succ depth ih =>
    cases hv : v.object? with
    | none => exact absurd h (textIn_ne_none hv)
    | some o =>
      rw [textIn_object hv] at h
      split at h
      · exact ⟨o, hv, o, .refl, hinside o hv o ‹_›⟩
      · rename_i ho
        cases hobject : objects[o]? with
        | none =>
          rw [hobject] at h
          cases h
        | some object =>
          rw [hobject, Option.map_eq_none_iff, mapM_eq_none_iff] at h
          obtain ⟨w, hw, hnone⟩ := h
          have hlt : o < objects.size := (Array.getElem?_eq_some_iff.mp hobject).1
          have hnext : ∀ q, w.object? = some q → Inside objects q o := fun q hq =>
            ⟨object, hobject, w, hw, hq⟩
          obtain ⟨q, hq, o', ho', hself⟩ := ih (by simp; omega) (List.nodup_cons.mpr ⟨ho, hnodup⟩)
            (List.cons_subset.mpr ⟨List.mem_range.mpr hlt, haround⟩)
            (fun q hq r hr => by
              rcases List.mem_cons.mp hr with rfl | hr
              · exact .single (hnext q hq)
              · exact .head (hnext q hq) (hinside o hv r hr)) hnone
          exact ⟨o, hv, o', ho'.tail (hnext q hq), hself⟩

/-- A value has no text if and only if it is an object inside itself or holds one. -/
theorem text?_eq_none_iff : v.text? objects = none ↔ v.IsCircular objects := by
  constructor
  · exact circular_of_textIn (by simp) List.nodup_nil (by simp) (by simp)
  · rintro ⟨o, hv, o', ho', hself⟩
    refine Classical.byContradiction fun h => ?_
    exact not_transGen_self_of_acc (acc_of_textIn h hv) ho' hself

theorem text?_isSome_iff :
    (v.text? objects).isSome ↔ ∀ o, v.object? = some o → Acc (Inside objects) o := by
  rw [Option.isSome_iff_ne_none]
  refine ⟨fun h o hv => acc_of_textIn h hv, fun h hnone => ?_⟩
  obtain ⟨o, hv, o', ho', hself⟩ := text?_eq_none_iff.mp hnone
  exact not_transGen_self_of_acc (h o hv) ho' hself

theorem text?_widen (h : (v.text? objects).isSome) (t : Ty) :
    ((v.widen t).text? objects).isSome := by
  rw [text?_isSome_iff] at h ⊢
  rwa [object?_widen]

end Value

/-- From a position on, objects hold only objects between that position and their own one. -/
def Descends (objects : Array Object) (n : Nat) : Prop :=
  ∀ o object, n ≤ o → objects[o]? = some object → ∀ v ∈ object.contents, ∀ o',
    v.object? = some o' → n ≤ o' ∧ o' < o

namespace Descends

variable {objects objects' : Array Object} {n o : Nat}

theorem size (objects : Array Object) : Descends objects objects.size := by
  intro o object ho hobject
  exact absurd (Array.getElem?_eq_some_iff.mp hobject).1 (Nat.not_lt.mpr ho)

theorem push {object : Object} (h : Descends objects n) (hobject : ∀ v ∈ object.contents, ∀ o',
    v.object? = some o' → n ≤ o' ∧ o' < objects.size) : Descends (objects.push object) n := by
  intro o other ho hother
  rw [Array.getElem?_push] at hother
  split at hother
  · cases hother
    subst o
    exact hobject
  · exact h o other ho hother

theorem acc (h : Descends objects n) (ho : n ≤ o) : Acc (Inside objects) o := by
  induction o using Nat.strongRecOn with
  | ind o ih =>
    constructor
    rintro o' ⟨object, hobject, v, hv, hvo⟩
    obtain ⟨hle, hlt⟩ := h o object ho hobject v hv o' hvo
    exact ih o' hlt hle

/-- Such objects at the end do not keep the others from being written out. -/
theorem acc_of_acc (h : Descends objects' n) (hsame : ∀ o < n, objects'[o]? = objects[o]?)
    (ho : Acc (Inside objects) o) : Acc (Inside objects') o := by
  induction ho with
  | intro o _ ih =>
    by_cases hlt : o < n
    · constructor
      rintro o' ⟨object, hobject, hinside⟩
      exact ih o' ⟨object, hsame o hlt ▸ hobject, hinside⟩
    · exact h.acc (Nat.le_of_not_lt hlt)

end Descends

namespace Eval

/-- A value is shown by its text, and one without a text takes for ever. -/
theorem display_apply (v : Value) (m : Machine) : display v m =
    match m.text? v with
    | some text => .ok text m
    | none => .error .outOfFuel m := by
  have hstep : display v m = (match m.text? v with
      | some text => pure text
      | none => throw Halt.outOfFuel : Eval String) m := rfl
  rw [hstep]
  cases m.text? v <;> rfl

theorem display_of_isSome {v : Value} {m : Machine} (h : (m.text? v).isSome) :
    display v m = .ok (m.display v) m := by
  obtain ⟨text, htext⟩ := Option.isSome_iff_exists.mp h
  have hdisplay : m.display v = text := by
    rw [Machine.display, Value.display, ← Machine.text?, htext, Option.getD_some]
  rw [display_apply, htext, hdisplay]

/-- What comes of showing two values that have these texts. -/
def shown {α : Type} (m : Machine) (k : String → String → EStateM.Result Halt Machine α) :
    Option String → Option String → EStateM.Result Halt Machine α
  | some left, some right => k left right
  | _, _ => .error .outOfFuel m

theorem display_two {α : Type} (v w : Value) (k : String → String → Eval α) (m : Machine) :
    (display v >>= fun left => display w >>= fun right => k left right) m =
      shown m (fun left right => k left right m) (m.text? v) (m.text? w) := by
  cases hv : m.text? v with
  | none => exact bind_of_error (by rw [display_apply, hv])
  | some left =>
    refine (bind_of_ok (by rw [display_apply, hv])).trans ?_
    cases hw : m.text? w with
    | none => exact bind_of_error (by rw [display_apply, hw])
    | some right => exact bind_of_ok (by rw [display_apply, hw])

theorem text?_of_display {v : Value} {m m' : Machine} {text : String}
    (h : display v m = .ok text m') : m' = m ∧ m.text? v = some text := by
  rw [display_apply] at h
  split at h
  · cases h
    exact ⟨rfl, ‹_›⟩
  · cases h

end Eval

/-- A run that has come to an end has shown its value, so the value has a text. -/
theorem Program.text?_of_runBy {p : Program} {ctx : Context} {sub : Eval.Evaluator}
    {done : Completion} (h : (p.runBy ctx sub).outcome = .ok done) :
    ((p.runBy ctx sub).machine.text? done.value).isSome := by
  unfold runBy at h ⊢
  split at h
  · cases h
  · rename_i scope hscope
    cases hexecute : p.execute sub 0 (({} : Machine).push scope).2 with
    | error halt m =>
      dsimp only [Machine.push, Array.size_empty] at h hexecute
      rw [hexecute] at h
      cases h
    | ok result m =>
      dsimp only [Machine.push, Array.size_empty] at h hexecute ⊢
      rw [hexecute] at h ⊢
      cases h
      obtain ⟨done', m₁, -, hshow⟩ := Eval.ok_of_bind hexecute
      obtain ⟨text, m₂, hdisplay, hlog⟩ := Eval.ok_of_bind hshow
      obtain ⟨rfl, htext⟩ := Eval.text?_of_display hdisplay
      cases hlog
      exact Option.isSome_of_eq_some htext

end LogicScript
