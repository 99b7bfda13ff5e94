import LogicScript.Analysis
import LogicScript.Proofs.Observation

/-! The shapes of objects.

An array keeps its length, and a struct keeps its declaration and the names of its fields, whatever
is evaluated. So an index that was found to be inside an array is still inside it when the element
is written, after any other evaluation. -/
namespace LogicScript

open Eval

/-- What an object is like apart from the values it holds. -/
inductive Object.Shape
  | array (length : Nat)
  | struct (decl : StructDecl) (names : List String)
  deriving DecidableEq

namespace Object

def shape : Object → Object.Shape
  | .array elements => .array elements.size
  | .struct d fields => .struct d fields.names

@[simp] theorem shape_setElement (i : Nat) (v : Value) (object : Object) :
    (object.setElement i v).shape = object.shape := by
  cases object <;> simp [setElement, shape]

/-- Only a new name changes the shape of a struct. -/
theorem shape_setField {name : String} {object : Object}
    (h : ∀ d fields, object = .struct d fields → fields.contains name = true) (v : Value) :
    (object.setField name v).shape = object.shape := by
  cases object with
  | array elements => rfl
  | struct d fields => simp only [setField, shape, Bindings.names_set (h d fields rfl)]

end Object

namespace Machine

def shape? (m : Machine) (o : ObjectId) : Option Object.Shape := m.objects[o]?.map Object.shape

/-- All objects of the first machine are in the second one, in their shapes. -/
def KeepsShapes (m m' : Machine) : Prop :=
  ∀ o shape, m.shape? o = some shape → m'.shape? o = some shape

variable {m m' : Machine} {o : ObjectId}

theorem KeepsShapes.refl (m : Machine) : m.KeepsShapes m := fun _ _ h => h

theorem KeepsShapes.trans {m'' : Machine} (h : m.KeepsShapes m') (h' : m'.KeepsShapes m'') :
    m.KeepsShapes m'' := fun o shape ho => h' o shape (h o shape ho)

theorem KeepsShapes.of_objects (h : m'.objects = m.objects) : m.KeepsShapes m' := by
  intro o shape ho
  rwa [shape?, h]

theorem keepsShapes_alloc (m : Machine) (object : Object) : m.KeepsShapes (m.alloc object).2 := by
  intro o shape ho
  obtain ⟨old, hold, rfl⟩ := Option.map_eq_some_iff.mp ho
  have hlt : o < m.objects.size := (Array.getElem?_eq_some_iff.mp hold).1
  simp only [shape?, alloc, Array.getElem?_push, Nat.ne_of_lt hlt, if_false, hold, Option.map_some]

theorem keepsShapes_updateObject {change : Object → Object}
    (h : ∀ object, m.objects[o]? = some object → (change object).shape = object.shape) :
    m.KeepsShapes (m.updateObject o change) := by
  intro i shape hi
  obtain ⟨object, hobject, rfl⟩ := Option.map_eq_some_iff.mp hi
  simp only [shape?, updateObject, Array.getElem?_modify]
  split
  · subst_vars
    simp [hobject, h object hobject]
  · simp [hobject]

theorem KeepsShapes.array {elements : Array Value} (h : m.KeepsShapes m')
    (ho : m.objects[o]? = some (.array elements)) :
    ∃ elements', m'.objects[o]? = some (.array elements') ∧ elements'.size = elements.size := by
  obtain ⟨object, hobject, hshape⟩ :=
    Option.map_eq_some_iff.mp (h o (.array elements.size) (by simp [shape?, ho, Object.shape]))
  cases object with
  | array elements' => exact ⟨elements', hobject, by simpa [Object.shape] using hshape⟩
  | struct d fields => cases hshape

theorem KeepsShapes.struct {d : StructDecl} {fields : Bindings Value} (h : m.KeepsShapes m')
    (ho : m.objects[o]? = some (.struct d fields)) :
    ∃ fields', m'.objects[o]? = some (.struct d fields') ∧ fields'.names = fields.names := by
  obtain ⟨object, hobject, hshape⟩ :=
    Option.map_eq_some_iff.mp (h o (.struct d fields.names) (by simp [shape?, ho, Object.shape]))
  cases object with
  | array elements => cases hshape
  | struct d' fields' =>
    simp only [Object.shape, Object.Shape.struct.injEq] at hshape
    obtain ⟨rfl, hnames⟩ := hshape
    exact ⟨fields', hobject, hnames⟩

end Machine

/-- Objects keep their shapes, whatever else happens. -/
def shapeContract : Contract where
  Inv _ := True
  Leads := Machine.KeepsShapes
  Blame _ := True
  Stop _ := True
  refl := .refl
  trans := .trans
  blame_attach _ := trivial
  stop_attach _ := trivial

theorem shapeContract_permits : shapeContract.Permits where
  admits := {
    faults := fun _ _ _ => trivial
    plain := fun _ _ => trivial
    bound := fun _ _ => trivial
    held := fun {_ _ object} _ _ => by cases object <;> simp [Object.All]
    define := fun _ _ _ => ⟨trivial, .of_objects rfl⟩
    push := fun _ => ⟨trivial, .of_objects rfl⟩
    alloc := fun _ _ => ⟨trivial, Machine.keepsShapes_alloc _ _⟩
    setElement := fun _ _ => ⟨trivial, Machine.keepsShapes_updateObject fun _ _ => by simp⟩
    setField := fun _ _ hfield => ⟨trivial, Machine.keepsShapes_updateObject fun object ho =>
      Object.shape_setField (fun d fields hd => hfield d fields (hd ▸ ho)) _⟩
    print := fun _ => ⟨trivial, .of_objects rfl⟩
    log := fun _ => ⟨trivial, .of_objects rfl⟩
    addFact := fun _ _ _ _ => ⟨trivial, .of_objects rfl⟩ }
  blames _ := trivial
  setRule _ _ := ⟨trivial, .of_objects rfl⟩

namespace Eval

variable {ctx : Context} {m m' m₁ : Machine} {env : Env}

theorem expression_keepsShapes (ctx : Context) (fuel : Nat) (m : Machine) (env : Env) (e : Expr) :
    m.KeepsShapes (after ((evaluator ctx fuel).expression env e m)) := by
  have hkeeps : shapeContract.Keeps (fun _ => True) (evaluator ctx fuel) (evaluator ctx fuel) :=
    shapeContract_permits.keeps_evaluator (fun _ => trivial) ctx fuel
  exact (hkeeps.expression m env e trivial).1.leads

theorem element_ok {array index : Value} {o : ObjectId} {i : Nat}
    (h : element array index m = .ok (o, i) m') :
    m' = m ∧ ∃ elements, m.objects[o]? = some (.array elements) ∧ i < elements.size := by
  cases array with
  | array object =>
    obtain ⟨m₀, m₂, hget, h⟩ := ok_of_bind h
    cases hget
    cases index with
    | int k =>
      dsimp only at h
      split at h
      · rename_i hk
        cases h
        have hlow : 0 ≤ k.toInt := Int64.le_iff_toInt_le.mp hk.1
        have hhigh := hk.2
        unfold Machine.arrayLength at hhigh
        split at hhigh
        · exact ⟨rfl, _, ‹_›, by omega⟩
        · omega
      · cases h
    | _ => cases h
  | _ => cases h

theorem access_ok {sub : Evaluator} {array index : Expr} {o : ObjectId} {i : Nat}
    (h : access sub env array index m = .ok (o, i) m₁) :
    ∃ elements, m₁.objects[o]? = some (.array elements) ∧ i < elements.size := by
  obtain ⟨a, m₂, -, h⟩ := ok_of_bind h
  obtain ⟨k, m₃, -, h⟩ := ok_of_bind h
  obtain ⟨rfl, hinside⟩ := element_ok h
  exact hinside

/-- What can be read from an object can be read from it as long as the shapes are kept. -/
theorem fieldOf_keepsShapes {stem v : Value} {name : String} (hkeeps : m.KeepsShapes m')
    (h : fieldOf stem name m = .ok v m₁) : ∃ v', fieldOf stem name m' = .ok v' m' := by
  obtain ⟨m₀, m₂, hget, h⟩ := ok_of_bind h
  cases hget
  have hread : fieldOf stem name m' = _ := bind_of_ok (m := m') rfl
  rw [hread]
  dsimp only at h ⊢
  cases stem with
  | array o =>
    dsimp only at h ⊢
    cases ho : m.objects[o]? with
    | none => rw [ho] at h; cases h
    | some object =>
      cases object with
      | struct d fields => rw [ho] at h; cases h
      | array elements =>
        rw [ho] at h
        obtain ⟨elements', ho', -⟩ := hkeeps.array ho
        rw [ho']
        dsimp only at h ⊢
        split at h
        · rename_i hname
          exact ⟨_, by rw [if_pos hname]; rfl⟩
        · cases h
  | struct o =>
    dsimp only at h ⊢
    cases ho : m.objects[o]? with
    | none => rw [ho] at h; cases h
    | some object =>
      cases object with
      | array elements => rw [ho] at h; cases h
      | struct d fields =>
        rw [ho] at h
        obtain ⟨fields', ho', hnames⟩ := hkeeps.struct ho
        rw [ho']
        dsimp only at h ⊢
        cases hv : fields.get? name with
        | none => rw [hv] at h; cases h
        | some w =>
          have hmem : name ∈ fields'.names := hnames ▸ Bindings.mem_names_of_get? hv
          obtain ⟨w', hw'⟩ := Option.isSome_iff_exists.mp (Bindings.mem_names_iff.mp hmem)
          rw [hw']
          exact ⟨w', rfl⟩
  | _ => cases h

/-- The array is still there when the value of an assignment to an element is known, and the element
is one of its elements. -/
theorem expression_after_access {fuel : Nat} {array index : Expr} {o : ObjectId} {i : Nat}
    (h : access (evaluator ctx fuel) env array index m = .ok (o, i) m₁) (value : Expr) :
    ∃ elements, (after ((evaluator ctx fuel).expression env value m₁)).objects[o]? =
      some (.array elements) ∧ i < elements.size := by
  obtain ⟨elements, ho, hi⟩ := access_ok h
  obtain ⟨elements', ho', hsize⟩ := (expression_keepsShapes ctx fuel m₁ env value).array ho
  exact ⟨elements', ho', hsize ▸ hi⟩

theorem setElement_apply {o : ObjectId} {elements : Array Value} {i : Nat} {v : Value}
    (ho : m.objects[o]? = some (.array elements)) (hi : i < elements.size) :
    ∃ m', setElement o i v m = .ok () m' ∧
      m'.objects[o]? = some (.array (elements.set i v hi)) := by
  refine ⟨_, rfl, ?_⟩
  simp [Machine.updateObject, Array.getElem?_modify, ho, Object.setElement, Array.setIfInBounds, hi]

/-- An assignment to an element that has a value has written it to an element of the array. -/
theorem assignment_ok {fuel : Nat} {mark mark' : Mark} {array index value : Expr} {v : Value}
    (h : (evaluator ctx (fuel + 1)).expression env
      (.assign mark (.index mark' array index) value) m = .ok v m') :
    ∃ o i m₁ w m₂ elements, access (evaluator ctx fuel) env array index m = .ok (o, i) m₁ ∧
      (evaluator ctx fuel).expression env value m₁ = .ok w m₂ ∧
      v = w.widen (ctx.table.typeOf mark') ∧ m₂.objects[o]? = some (.array elements) ∧
      ∃ hi : i < elements.size, m'.objects[o]? = some (.array (elements.set i v hi)) := by
  obtain ⟨⟨o, i⟩, m₁, haccess, h⟩ := ok_of_bind (ok_of_attach h)
  obtain ⟨w, m₂, hvalue, h⟩ := ok_of_bind h
  obtain ⟨⟨⟩, m₃, hset, h⟩ := ok_of_bind h
  cases h
  obtain ⟨elements, ho, hi⟩ := expression_after_access haccess value
  rw [hvalue, after_ok] at ho
  obtain ⟨m₄, hset', hwritten⟩ := setElement_apply (v := w.widen (ctx.table.typeOf mark')) ho hi
  cases hset.symm.trans hset'
  exact ⟨o, i, m₁, w, m₂, elements, haccess, hvalue, rfl, ho, hi, hwritten⟩

end Eval

namespace Program

/-- From every state of a run to the later ones the arrays keep their lengths, and the structs their
declarations and the names of their fields. So a field that can be read can be read later on, too;
the position that an access has found is inside its array after whatever is evaluated next; and an
assignment to an element that has a value has written it there. -/
theorem shapes_kept (p : Program) (ctx : Context) :
    (∀ m m', p.Passes ctx m m' → ∀ o shape, m.shape? o = some shape → m'.shape? o = some shape) ∧
    (∀ m m', p.Passes ctx m m' → ∀ stem name v m₁, fieldOf stem name m = .ok v m₁ →
      ∃ v', fieldOf stem name m' = .ok v' m') ∧
    (∀ fuel m env array index o i m₁,
      access (evaluator ctx fuel) env array index m = .ok (o, i) m₁ → ∀ value, ∃ elements,
        (after ((evaluator ctx fuel).expression env value m₁)).objects[o]? =
          some (.array elements) ∧ i < elements.size) ∧
    ∀ fuel m m' env mark mark' array index value v,
      (evaluator ctx (fuel + 1)).expression env (.assign mark (.index mark' array index) value) m =
        .ok v m' →
      ∃ o i m₁ w m₂ elements, access (evaluator ctx fuel) env array index m = .ok (o, i) m₁ ∧
        (evaluator ctx fuel).expression env value m₁ = .ok w m₂ ∧
        v = w.widen (ctx.table.typeOf mark') ∧ m₂.objects[o]? = some (.array elements) ∧
        ∃ hi : i < elements.size, m'.objects[o]? = some (.array (elements.set i v hi)) := by
  have hkept : ∀ m m', p.Passes ctx m m' → m.KeepsShapes m' := fun m m' h =>
    shapeContract_permits.leads_of_passes (fun _ => trivial) trivial (fun _ => trivial) h
  exact ⟨hkept, fun m m' h _ _ _ _ => fieldOf_keepsShapes (hkept m m' h),
    fun _ _ _ _ _ _ _ _ h => expression_after_access h,
    fun _ _ _ _ _ _ _ _ _ _ => assignment_ok⟩

/-- While the value of an assignment to an element is evaluated, a function writes to the same array
under another name, makes a new array in its place and writes the field of a struct. -/
def aliasing : Program where
  mark := ⟨0, {}⟩
  statements := [
    .struct ⟨⟨1, {}⟩, "P", [⟨⟨2, {}⟩, "x", .simple ⟨3, {}⟩ "Int"⟩]⟩,
    .var ⟨⟨4, {}⟩, "a", none, some (.array ⟨5, {}⟩ [.int ⟨6, {}⟩ 1, .int ⟨7, {}⟩ 2])⟩,
    .var ⟨⟨8, {}⟩, "b", none, some (.reference ⟨⟨9, {}⟩, "a"⟩)⟩,
    .var ⟨⟨10, {}⟩, "s", none, some (.call ⟨11, {}⟩ (.constructor ⟨12, {}⟩ "P") [.int ⟨13, {}⟩ 3])⟩,
    .function ⟨⟨14, {}⟩, "f", [], some (.simple ⟨15, {}⟩ "Int"), ⟨⟨16, {}⟩, [
      .expr ⟨17, {}⟩ (.assign ⟨18, {}⟩
        (.index ⟨19, {}⟩ (.reference ⟨⟨20, {}⟩, "b"⟩) (.int ⟨21, {}⟩ 1)) (.int ⟨22, {}⟩ 7)),
      .expr ⟨23, {}⟩ (.assign ⟨24, {}⟩ (.reference ⟨⟨25, {}⟩, "a"⟩)
        (.array ⟨26, {}⟩ [.int ⟨27, {}⟩ 8])),
      .expr ⟨28, {}⟩ (.assign ⟨29, {}⟩ (.field ⟨30, {}⟩ (.reference ⟨⟨31, {}⟩, "s"⟩) "x")
        (.int ⟨32, {}⟩ 4)),
      .ret ⟨33, {}⟩ (some (.int ⟨34, {}⟩ 9))]⟩⟩,
    .expr ⟨35, {}⟩ (.assign ⟨36, {}⟩
      (.index ⟨37, {}⟩ (.reference ⟨⟨38, {}⟩, "a"⟩) (.int ⟨39, {}⟩ 1))
      (.call ⟨40, {}⟩ (.reference ⟨⟨41, {}⟩, "f"⟩) []))]

/-- Stopped before the assignment, the run has the array that the completed run still has. -/
theorem aliasing_keeps_shapes :
    (aliasing.run ⟨(analyze aliasing).1, 1⟩ 12).outcome.isOk = true ∧
    aliasing.Passes ⟨(analyze aliasing).1, 1⟩ (aliasing.run ⟨(analyze aliasing).1, 1⟩ 3).machine
      (aliasing.run ⟨(analyze aliasing).1, 1⟩ 12).machine ∧
    (aliasing.run ⟨(analyze aliasing).1, 1⟩ 3).machine.shape? 0 = some (.array 2) ∧
    (aliasing.run ⟨(analyze aliasing).1, 1⟩ 12).machine.shape? 0 = some (.array 2) := by
  have hpasses := aliasing.passes_run ⟨(analyze aliasing).1, 1⟩ (by decide : 3 ≤ 12)
  have hearly : (aliasing.run ⟨(analyze aliasing).1, 1⟩ 3).machine.shape? 0 = some (.array 2) := by
    decide +kernel
  exact ⟨by decide +kernel, hpasses, hearly,
    (aliasing.shapes_kept ⟨(analyze aliasing).1, 1⟩).1 _ _ hpasses 0 _ hearly⟩

end Program

end LogicScript
