import LogicScript.Proofs.Renaming
import LogicScript.Proofs.Tidying.Tree

/-! Tidied machines and tables.

Functions and rules are the only parts of a program that a machine and a table hold. A tidied machine
holds them tidied; nothing that a machine does with its values depends on that. -/
namespace LogicScript

namespace Tidying

variable (k : Tidying)

def value : Value → Value
  | .function d => .function (k.function d)
  | v => v

def object : Object → Object
  | .array elements => .array (elements.map k.value)
  | .struct d fields => .struct d (fields.map k.value)

def registered (r : Rule) : Rule := { r with decl := k.rule r.decl }

def entry : Entry → Entry
  | .facts tuples => .facts (tuples.map (List.map k.value))
  | .rule r => .rule (k.registered r)

def store (s : PredicateStore) : PredicateStore := ⟨s.entries.map k.entry⟩

def frame (f : Frame) : Frame := ⟨f.scope, f.bindings.map k.value, k.store f.predicates⟩

def machine (m : Machine) : Machine :=
  { m with frames := m.frames.map k.frame, objects := m.objects.map k.object }

def completion : Completion → Completion
  | .normal => .normal
  | .returned v => .returned (k.value v)

def decl : Decl → Decl
  | .function d => .function (k.function d)
  | d => d

def attributes (a : Attributes) : Attributes := { a with decl := a.decl.map k.decl }

def scope (s : Scope) : Scope := { s with declared := s.declared.map k.decl }

def scopes (s : Scopes) : Scopes := ⟨s.all.map k.scope⟩

def table (t : Table) : Table := ⟨t.nodes.map k.attributes, k.scopes t.scopes⟩

end Tidying

namespace Bindings

variable {α β : Type}

theorem map_set (f : α → β) (b : Bindings α) (name : String) (a : α) :
    (b.set name a).map f = (b.map f).set name (f a) := by
  obtain ⟨l⟩ := b
  show (⟨(put l name a).map fun p => (p.1, f p.2)⟩ : Bindings β) = ⟨put (l.map _) name (f a)⟩
  congr 1
  induction l with
  | nil => rfl
  | cons p rest ih => by_cases h : p.1 = name <;> simp [put, h, ih]

@[simp] theorem contains_map (f : α → β) (b : Bindings α) (name : String) :
    (b.map f).contains name = b.contains name := by simp [contains]

end Bindings

namespace Tidying

variable {k : Tidying} {v w : Value} {m : Machine} {op : BinaryOp} {l r : Value}

section Values

@[simp] theorem kind_value (v : Value) : (k.value v).kind = v.kind := by cases v <;> rfl

@[simp] theorem widen_value (v : Value) (t : Ty) : (k.value v).widen t = k.value (v.widen t) := by
  cases v with
  | int i =>
    cases t with
    | prim p => cases p <;> rfl
    | _ => rfl
  | _ => rfl

/-- Functions are told apart by their marks, which stay. -/
@[simp] theorem equal_value (v w : Value) : (k.value v).equal (k.value w) = v.equal w := by
  cases v <;> cases w <;> rfl

@[simp] theorem numericEqual_value (v w : Value) :
    (k.value v).numericEqual (k.value w) = v.numericEqual w := by
  cases v <;> cases w <;> rfl

@[simp] theorem asFloat?_value (v : Value) : (k.value v).asFloat? = v.asFloat? := by
  cases v <;> rfl

theorem value_of_kind (h : v.kind ≠ .function) : k.value v = v := by
  cases v <;> first | rfl | exact absurd rfl h

theorem onInts_value : Operator.onInts op (k.value l) (k.value r) = Operator.onInts op l r := by
  cases l <;> cases r <;> rfl

theorem onFloats_value :
    Operator.onFloats op (k.value l) (k.value r) = Operator.onFloats op l r := by
  unfold Operator.onFloats
  simp only [asFloat?_value, kind_value]

theorem apply_value {s t : Ty} :
    Operator.apply op s t (k.value l) (k.value r) = Operator.apply op s t l r := by
  unfold Operator.apply
  rw [numericEqual_value, onInts_value, onFloats_value]

theorem map_apply {s t : Ty} :
    (Operator.apply op s t l r).map k.value = Operator.apply op s t l r := by
  cases h : Operator.apply op s t l r with
  | error cause => rfl
  | ok v => exact congrArg Except.ok (value_of_kind (Operator.isPlain_apply h).1)

theorem equalTuples_map (s t : List Value) :
    equalTuples (s.map k.value) (t.map k.value) = equalTuples s t := by
  induction s generalizing t with
  | nil => cases t <;> rfl
  | cons v s ih =>
    cases t with
    | nil => rfl
    | cons w t => simp [equalTuples, ih]

theorem contains_entry (e : Entry) (args : List Value) :
    (k.entry e).contains (args.map k.value) = e.contains args := by
  have htuples : (k.entry e).tuples = e.tuples.map (List.map k.value) := by cases e <;> rfl
  unfold Entry.contains Entry.mentions
  simp only [htuples, List.all_map, List.any_map, Function.comp_def, equal_value]

theorem contents_object (object : Object) :
    (k.object object).contents = object.contents.map k.value := by
  cases object with
  | array elements => exact Array.toList_map ..
  | struct d fields =>
    simp only [object, Object.contents, List.map_map, Bindings.get?_map]
    refine List.map_congr_left fun f _ => ?_
    cases hfield : fields.get? f.name <;> simp [hfield, value]

theorem written_object (object : Object) : (k.object object).written = object.written := by
  cases object <;> rfl

@[simp] theorem textIn_value (objects : Array Object) (depth : Nat) (around : List ObjectId)
    (v : Value) :
    Value.textIn (objects.map k.object) depth around (k.value v) =
      Value.textIn objects depth around v := by
  induction depth generalizing around v with
  | zero => cases v <;> rfl
  | succ depth ih =>
    have hobject : (k.value v).object? = v.object? := by cases v <;> rfl
    cases hv : v.object? with
    | none => cases v <;> first | rfl | cases hv
    | some o =>
      rw [Value.textIn_object hv, Value.textIn_object (hobject.trans hv), Array.getElem?_map]
      cases objects[o]? with
      | none => rfl
      | some object =>
        simp only [Option.map_some, contents_object, List.mapM_map, written_object,
          mapM_congr fun w _ => ih (o :: around) w, Function.comp_def]

@[simp] theorem text?_machine (m : Machine) (v : Value) :
    (k.machine m).text? (k.value v) = m.text? v := by
  unfold Machine.text? Value.text? machine
  rw [Array.size_map, textIn_value]

@[simp] theorem value_completion (done : Completion) :
    (k.completion done).value = k.value done.value := by cases done <;> rfl

@[simp] theorem isReturn_completion (done : Completion) :
    (k.completion done).isReturn = done.isReturn := by cases done <;> rfl

end Values

section Objects

theorem setElement_object (i : Nat) (v : Value) (object : Object) :
    k.object (object.setElement i v) = (k.object object).setElement i (k.value v) := by
  cases object with
  | array elements =>
    refine congrArg Object.array (Array.ext' ?_)
    simp [Array.toList_setIfInBounds]
  | struct d fields => rfl

theorem setField_object (name : String) (v : Value) (object : Object) :
    k.object (object.setField name v) = (k.object object).setField name (k.value v) := by
  cases object with
  | array elements => rfl
  | struct d fields => exact congrArg (Object.struct d) (Bindings.map_set ..)

end Objects

section Stores

variable {s : PredicateStore} {functor : String}

@[simp] theorem get?_store (s : PredicateStore) (functor : String) :
    (k.store s).get? functor = (s.get? functor).map k.entry := by
  simp [PredicateStore.get?, store]

theorem addFact_store (s : PredicateStore) (functor : String) (tuple : List Value) :
    (k.store s).addFact functor (tuple.map k.value) = (s.addFact functor tuple).map k.store := by
  unfold PredicateStore.addFact
  rw [get?_store]
  cases s.get? functor with
  | none => simp [Except.map, store, Bindings.map_set, entry]
  | some e =>
    cases e with
    | rule r => rfl
    | facts tuples =>
      simp only [Option.map_some, entry, List.any_map, Function.comp_def, equalTuples_map]
      split
      · rfl
      · simp [Except.map, store, Bindings.map_set, entry]

theorem setRule_store (s : PredicateStore) (functor : String) (r : Rule) :
    (k.store s).setRule functor (k.registered r) = (s.setRule functor r).map k.store := by
  unfold PredicateStore.setRule
  rw [get?_store]
  cases s.get? functor with
  | none => simp [Except.map, store, Bindings.map_set, entry]
  | some e => cases e <;> simp [Except.map, store, Bindings.map_set, entry]

end Stores

section Machines

@[simp] theorem frame_machine (m : Machine) (f : FrameId) :
    (k.machine m).frame f = k.frame (m.frame f) := by
  unfold Machine.frame machine
  simp only [Array.getD_eq_getD_getElem?, Array.getElem?_map]
  cases m.frames[f]? <;> rfl

@[simp] theorem frameOf?_machine (m : Machine) (env : Env) (scope : ScopeId) :
    (k.machine m).frameOf? env scope = m.frameOf? env scope := by
  simp only [Machine.frameOf?, frame_machine, Tidying.frame]

@[simp] theorem object_machine (m : Machine) (o : ObjectId) :
    (k.machine m).objects[o]? = m.objects[o]?.map k.object := by
  simp [machine]

@[simp] theorem arrayLength_machine (m : Machine) (o : ObjectId) :
    (k.machine m).arrayLength o = m.arrayLength o := by
  unfold Machine.arrayLength
  rw [object_machine]
  cases m.objects[o]? with
  | none => rfl
  | some object => cases object <;> simp [Tidying.object]

theorem updateFrame_machine {change change' : Frame → Frame}
    (h : ∀ frame, k.frame (change frame) = change' (k.frame frame)) (m : Machine) (f : FrameId) :
    k.machine (m.updateFrame f change) = (k.machine m).updateFrame f change' := by
  unfold Machine.updateFrame machine
  congr 1
  refine Array.ext (by simp) fun i hi _ => ?_
  simp only [Array.getElem_map, Array.getElem_modify]
  split
  · exact h _
  · rfl

theorem define_machine (m : Machine) (f : FrameId) (name : String) (v : Value) :
    k.machine (m.define f name v) = (k.machine m).define f name (k.value v) :=
  updateFrame_machine (fun frame => by simp only [Tidying.frame, Bindings.map_set]) m f

theorem setStore_machine (m : Machine) (f : FrameId) (s : PredicateStore) :
    k.machine (m.setStore f s) = (k.machine m).setStore f (k.store s) := by
  refine updateFrame_machine (fun frame => ?_) m f
  rfl

theorem push_machine (m : Machine) (scope : ScopeId) :
    (k.machine m).push scope = ((m.push scope).1, k.machine (m.push scope).2) := by
  have hfresh : k.frame { scope } = { scope } := rfl
  simp [Machine.push, machine, Array.map_push, hfresh]

theorem alloc_machine (m : Machine) (object : Object) :
    (k.machine m).alloc (k.object object) =
      ((m.alloc object).1, k.machine (m.alloc object).2) := by
  simp [Machine.alloc, machine, Array.map_push]

theorem updateObject_machine {change change' : Object → Object}
    (h : ∀ object, k.object (change object) = change' (k.object object)) (m : Machine)
    (o : ObjectId) :
    k.machine (m.updateObject o change) = (k.machine m).updateObject o change' := by
  unfold Machine.updateObject machine
  congr 1
  refine Array.ext (by simp) fun i hi _ => ?_
  simp only [Array.getElem_map, Array.getElem_modify]
  split
  · exact h _
  · rfl

end Machines

section Tables

variable (t : Table)

@[simp] theorem attributes_table (id : Nat) :
    (k.table t).attributes id = k.attributes (t.attributes id) := by
  unfold Table.attributes table
  simp only [Array.getD_eq_getD_getElem?, Array.getElem?_map]
  cases t.nodes[id]? <;> rfl

@[simp] theorem get_scopes (s : Scopes) (i : ScopeId) :
    (k.scopes s).get i = k.scope (s.get i) := by
  unfold Scopes.get scopes
  simp only [Array.getD_eq_getD_getElem?, Array.getElem?_map]
  cases s.all[i]? <;> rfl

end Tables

end Tidying

end LogicScript
