import LogicScript.Proofs.Consistency

/-! Values and their static types.

A Float is never an Int. In a consistent program, arrays, structs and functions are as their static
types say as well: the shape of an object is settled when it is made. -/
namespace LogicScript

open Analysis

/-- What the static types make of an object: an array of such elements, or such a struct. -/
inductive Shape
  | array (element : Ty)
  | struct (decl : StructDecl)

/-- The shapes of the objects of a machine. A world grows as objects are made. -/
abbrev World := List Shape

theorem World.getElem?_of_prefix {w w' : World} (h : w <+: w') {o : ObjectId} {shape : Shape}
    (ho : w[o]? = some shape) : w'[o]? = some shape := by
  obtain ⟨more, rfl⟩ := h
  rw [List.getElem?_append_left (List.getElem?_eq_some_iff.mp ho).1, ho]

section Conformance

variable (p : Program) (t : Table) (view : Ty.View)

/-- A value is fit for a static type. That a Float is no Int is always asked; the rest only in a
consistent program. -/
def Value.Conforms (w : World) (v : Value) : Ty → Prop
  | .float => v.kind ≠ .int
  | .null => p.Consistent t view → v.kind = .null ∨ v.kind = .void
  | .array element => p.Consistent t view → (∀ o, v ≠ .struct o) ∧
    ∀ o, v = .array o → w[o]? = some (.array element)
  | .struct d => p.Consistent t view → (∀ o, v ≠ .array o) ∧
    ∀ o, v = .struct o → w[o]? = some (.struct d)
  | .function ps r => p.Consistent t view →
    (∀ d, v = .function d → t.seen view d.mark = .function ps r) ∧
    (∀ d, v = .constructor d → ps = d.fields.map (t.seen view ·.mark) ∧ r = .struct d) ∧
    ∀ name, v = .native name → r = .string
  | _ => True

/-- An object holds values that are fit for its shape. -/
def Shape.Holds (w : World) : Shape → Object → Prop
  | .array element, .array elements => ∀ v ∈ elements, v.Conforms p t view w element
  | .struct d, .struct _ fields => ∀ name v, fields.get? name = some v →
    ∃ f ∈ d.fields, f.name = name ∧ v.Conforms p t view w (t.seen view f.mark)
  | _, _ => False

/-- What the evaluation of an expression gives. -/
structure Expr.Yields (w : World) (e : Expr) (v : Value) : Prop where
  owned : p.Owns v
  function : ∀ d, e.function? t = some d → v = .function d
  conforms : e.Certain p t view → v.Conforms p t view w (t.seen view e.mark)

/-- A value that is returned is fit for the type of the result. -/
def Completion.Conforms (w : World) (result : Ty) : Completion → Prop
  | .normal => True
  | .returned v => p.Owns v ∧ (v.widen result).Conforms p t view w result

/-- A rule is one of the program and has the scope that is filed for it. -/
structure Rule.Filed (functor : String) (r : Rule) : Prop where
  mem : .statement (.rule r.decl) ∈ p.nodes
  functor_eq : r.decl.functor = functor
  scope : (t.attributes r.decl.mark.id).bodyScope = some r.scope

/-- Each binding is fit for the declaration that its scope has for the name, and each object for its
shape. -/
structure Machine.Typed (w : World) (m : Machine) : Prop where
  size : w.length = m.objects.size
  bound : ∀ f name v d, (m.frame f).bindings.get? name = some v →
    t.scopes.findLocal (m.frame f).scope name = some d → d.isTyped = true →
    ¬ d.Reused p t view name → v.Conforms p t view w ((useType t d).seen view)
  held : p.Consistent t view → ∀ (o : ObjectId) shape object, w[o]? = some shape →
    m.objects[o]? = some object → shape.Holds p t view w object
  values : m.AllValues p.Owns
  rules : m.AllRules (Rule.Filed p t)

end Conformance

section Values

variable {p : Program} {t : Table} {view : Ty.View} {w w' : World} {v : Value} {type slot : Ty} {e : Expr}

theorem Program.Owns.of_kind (h : v.kind ≠ .function) : p.Owns v := by
  rintro d rfl
  exact absurd rfl h

theorem Program.Owns.widen (h : p.Owns v) (type : Ty) : p.Owns (v.widen type) := by
  unfold Value.widen
  split
  · exact .of_kind (by simp [Value.kind])
  · exact h

namespace Value

theorem Conforms.mono (h : v.Conforms p t view w type) (hw : w <+: w') : v.Conforms p t view w' type := by
  unfold Conforms at h ⊢
  split
  · exact h
  · exact h
  · exact fun hc => ⟨(h hc).1, fun o ho => World.getElem?_of_prefix hw ((h hc).2 o ho)⟩
  · exact fun hc => ⟨(h hc).1, fun o ho => World.getElem?_of_prefix hw ((h hc).2 o ho)⟩
  · exact h
  · trivial

/-- What is neither an Int, an object nor a function fits every type but that of null. -/
theorem conforms_of_kind (hint : v.kind ≠ .int) (hnull : type ≠ .null)
    (hplain : v.kind ≠ .array ∧ v.kind ≠ .struct ∧ v.kind ≠ .function ∧ v.kind ≠ .constructor ∧
      v.kind ≠ .nativeFunction) : v.Conforms p t view w type := by
  obtain ⟨harray, hstruct, hfunction, hconstructor, hnative⟩ := hplain
  unfold Conforms
  split
  · exact hint
  · exact absurd rfl hnull
  · exact fun _ => ⟨by rintro o rfl; exact hstruct rfl, by rintro o rfl; exact absurd rfl harray⟩
  · exact fun _ => ⟨by rintro o rfl; exact harray rfl, by rintro o rfl; exact absurd rfl hstruct⟩
  · exact fun _ => ⟨by rintro d rfl; exact absurd rfl hfunction,
      by rintro d rfl; exact absurd rfl hconstructor, by rintro n rfl; exact absurd rfl hnative⟩
  · trivial

theorem conforms_nothing (h : v.kind = .null ∨ v.kind = .void) : v.Conforms p t view w type := by
  by_cases hnull : type = .null
  · subst hnull
    exact fun _ => h
  · refine conforms_of_kind ?_ hnull ?_ <;> rcases h with h | h <;> simp [h]

/-- What is no Float and not shared may have any value. -/
theorem conforms_unshared (hfloat : type ≠ .float) (hshared : type.isShared = false) :
    v.Conforms p t view w type := by
  unfold Conforms
  split
  · exact absurd rfl hfloat
  all_goals first | cases hshared | trivial

theorem widen_of_ne (h : slot ≠ .float) : v.widen slot = v := by
  unfold widen
  split
  · exact absurd rfl h
  · rfl

/-- A value is fit for a slot when it is widened, unless something is stored there that is shared. -/
theorem widen_conforms (h : p.Consistent t view → slot.isShared = true → v.Conforms p t view w slot) :
    (v.widen slot).Conforms p t view w slot := by
  by_cases hfloat : slot = .float
  · subst hfloat
    show (v.widen .float).kind ≠ .int
    cases v <;> simp [widen, kind]
  rw [widen_of_ne hfloat]
  by_cases hshared : slot.isShared = true
  · unfold Conforms at h ⊢
    split
    · cases hshared
    all_goals first | exact fun hc => h hc hshared hc | trivial
  · exact conforms_unshared hfloat (by simpa using hshared)

@[simp] theorem widen_seen : v.widen (type.seen view) = v.widen type := by
  by_cases hfloat : type = .float
  · rw [hfloat, Ty.seen_prim]
  · rw [widen_of_ne hfloat, widen_of_ne fun h => hfloat (Ty.seen_eq_prim.mp h)]

@[simp] theorem widen_seen_mark {m : Mark} : v.widen (t.seen view m) = v.widen (t.typeOf m) := widen_seen

theorem Conforms.held (h : v.Conforms p t view w (type.seen view)) :
    v.Conforms p t view w (type.held view) := by
  unfold Ty.held
  split
  · trivial
  · exact h

end Value

/-- A reference whose name has several types is certain only where this does not matter. -/
theorem Expr.Certain.of_reused {r : Reference} {d : Decl} (h : (Expr.reference r).Certain p t view)
    (hr : r.node ∈ p.nodes) (hd : (t.attributes r.mark.id).decl = some d)
    (hreused : d.Reused p t view r.name) :
    t.typeOf r.mark ≠ .float ∧ (t.typeOf r.mark).isShared = false := by
  rcases h with hdirect | ⟨hc, hdoubtful⟩
  · exact absurd ⟨d, hd, hreused⟩ hdirect
  · exact ⟨fun hfloat => hdoubtful hfloat ⟨d, hd, hreused⟩, hc _ hr d hd hreused⟩

/-- In a consistent program, a value is fit for the type that its expression is seen to have, if that
is not Float. -/
theorem Expr.Yields.seen {v : Value} {type : Ty} (h : e.Yields p t view w v) (hc : p.Consistent t view)
    (htype : t.seen view e.mark = type) (hfloat : type ≠ .float) : v.Conforms p t view w type := by
  subst htype
  refine h.conforms (.inr ⟨hc, fun hdoubt => absurd ?_ hfloat⟩)
  rw [Table.seen, hdoubt, Ty.seen_prim]

theorem Expr.Yields.mono {v : Value} (h : e.Yields p t view w v) (hw : w <+: w') :
    e.Yields p t view w' v :=
  ⟨h.owned, h.function, fun hc => (h.conforms hc).mono hw⟩

theorem Shape.Holds.mono {shape : Shape} {object : Object} (h : shape.Holds p t view w object)
    (hw : w <+: w') : shape.Holds p t view w' object := by
  cases shape <;> cases object
  · exact fun v hv => (h v hv).mono hw
  · exact h.elim
  · exact h.elim
  · intro name v hv
    obtain ⟨f, hf, hname, hc⟩ := h name v hv
    exact ⟨f, hf, hname, hc.mono hw⟩

end Values

namespace Machine.Typed

variable {p : Program} {t : Table} {view : Ty.View} {w : World} {m m' : Machine} {f : FrameId} {name : String}
  {v : Value} {o : ObjectId}

theorem empty (p : Program) (t : Table) : ({} : Machine).Typed p t view [] where
  size := rfl
  bound f name v d hv := by
    have hnone : (({} : Machine).frame f).bindings.get? name = none := rfl
    rw [hnone] at hv
    cases hv
  held _ o shape object ho := by cases ho
  values := .empty
  rules f functor r hr := by
    have hnone : (({} : Machine).frame f).predicates.get? functor = none := rfl
    rw [hnone] at hr
    cases hr

theorem of_eq (h : m.Typed p t view w) (hframes : m'.frames = m.frames)
    (hobjects : m'.objects = m.objects) : m'.Typed p t view w := by
  have hframe : ∀ f, m'.frame f = m.frame f := fun f => by rw [frame, frame, hframes]
  exact {
    size := by rw [hobjects, h.size]
    bound := fun f => by rw [hframe]; exact h.bound f
    held := by rw [hobjects]; exact h.held
    values := ⟨fun f => by rw [hframe]; exact h.values.bound f,
      by rw [hobjects]; exact h.values.held⟩
    rules := h.rules.of_eq fun f => by rw [hframe] }

theorem log (h : m.Typed p t view w) (e : Event) : (m.log e).Typed p t view w := h.of_eq rfl rfl

theorem print (h : m.Typed p t view w) (line : String) : (m.print line).Typed p t view w := h.of_eq rfl rfl

theorem define (h : m.Typed p t view w) (hv : p.Owns v)
    (hslot : ∀ d, t.scopes.findLocal (m.frame f).scope name = some d → d.isTyped = true →
      ¬ d.Reused p t view name → v.Conforms p t view w ((useType t d).seen view)) :
    (m.define f name v).Typed p t view w where
  size := h.size
  bound i other u d hu hd htyped hreused := by
    rw [scope_define] at hd
    rw [Machine.define, frame_updateFrame] at hu
    split at hu
    · rename_i hi
      obtain ⟨rfl, -⟩ := hi
      by_cases hname : other = name
      · subst hname
        rw [Bindings.get?_set_self] at hu
        cases hu
        exact hslot d hd htyped hreused
      · rw [Bindings.get?_set_ne _ _ hname] at hu
        exact h.bound f other u d hu hd htyped hreused
    · exact h.bound i other u d hu hd htyped hreused
  held := h.held
  values := h.values.define hv
  rules := h.rules.of_eq fun i => by simp

theorem push (h : m.Typed p t view w) (scope : ScopeId) : (m.push scope).2.Typed p t view w where
  size := h.size
  bound i other u d hu hd htyped hreused := by
    rw [frame_push] at hu hd
    split at hu
    · cases hu
    · rename_i hi
      rw [if_neg hi] at hd
      exact h.bound i other u d hu hd htyped hreused
  held := h.held
  values := h.values.push
  rules := h.rules.of_eq fun f => predicates_push ..

theorem setStore (h : m.Typed p t view w) {store : PredicateStore}
    (hstore : ∀ functor r, store.get? functor = some (.rule r) → r.Filed p t functor) :
    (m.setStore f store).Typed p t view w where
  size := h.size
  bound i other u d hu hd := by
    rw [bindings_setStore] at hu
    rw [scope_setStore] at hd
    exact h.bound i other u d hu hd
  held := h.held
  values := h.values.setStore
  rules := h.rules.setStore hstore

theorem alloc (h : m.Typed p t view w) {object : Object} {shape : Shape}
    (howned : object.All p.Owns) (hheld : p.Consistent t view → shape.Holds p t view w object) :
    (m.alloc object).2.Typed p t view (w ++ [shape]) := by
  have hw : w <+: w ++ [shape] := List.prefix_append ..
  refine ⟨by simp [Machine.alloc, h.size], fun i other u d hu hd htyped hreused => ?_,
    fun hc o' shape' object' hshape hobject => ?_, h.values.alloc howned, h.rules⟩
  · exact (h.bound i other u d hu hd htyped hreused).mono hw
  · have hobject : (m.objects.push object)[o']? = some object' := hobject
    rw [Array.getElem?_push] at hobject
    split at hobject
    · rename_i ho
      rw [ho, ← h.size, List.getElem?_concat_length] at hshape
      cases hobject
      cases hshape
      exact (hheld hc).mono hw
    · rename_i ho
      have hlt : o' < w.length := by
        rw [h.size]
        exact (Array.getElem?_eq_some_iff.mp hobject).1
      rw [List.getElem?_append_left hlt] at hshape
      exact (h.held hc o' shape' object' hshape hobject).mono hw

theorem updateObject (h : m.Typed p t view w) {change : Object → Object}
    (howned : ∀ object : Object, object.All p.Owns → (change object).All p.Owns)
    (hheld : p.Consistent t view → ∀ shape object, w[o]? = some shape → m.objects[o]? = some object →
      shape.Holds p t view w object → shape.Holds p t view w (change object)) :
    (m.updateObject o change).Typed p t view w := by
  refine ⟨by simp [Machine.updateObject, h.size], h.bound, fun hc o' shape object' hshape hobject => ?_,
    h.values.updateObject howned, h.rules⟩
  have hobject : (m.objects.modify o change)[o']? = some object' := hobject
  rw [Array.getElem?_modify] at hobject
  split at hobject
  · rename_i ho
    subst ho
    obtain ⟨object, hold, rfl⟩ := Option.map_eq_some_iff.mp hobject
    exact hheld hc shape object hshape hold (h.held hc o shape object hshape hold)
  · exact h.held hc o' shape object' hshape hobject

theorem setElement (h : m.Typed p t view w) {i : Nat} (hv : p.Owns v)
    (hfits : p.Consistent t view → ∃ element, w[o]? = some (.array element) ∧ v.Conforms p t view w element) :
    (m.updateObject o (.setElement i v)).Typed p t view w := by
  refine h.updateObject (fun object ho => ho.setElement hv i) fun hc shape object hshape _ hold => ?_
  obtain ⟨element, hw, hconforms⟩ := hfits hc
  rw [hw] at hshape
  cases hshape
  cases object with
  | array elements =>
    intro u hu
    rcases Array.mem_or_eq_of_mem_setIfInBounds hu with hu | rfl
    · exact hold u hu
    · exact hconforms
  | struct d fields => exact hold.elim

theorem setField (h : m.Typed p t view w) (hv : p.Owns v)
    (hfield : ∀ d fields, m.objects[o]? = some (.struct d fields) → fields.contains name = true)
    (hfits : p.Consistent t view → ∃ d, w[o]? = some (.struct d) ∧
      ∀ f ∈ d.fields, f.name = name → v.Conforms p t view w (t.seen view f.mark)) :
    (m.updateObject o (.setField name v)).Typed p t view w := by
  refine h.updateObject (fun object ho => ho.setField hv name) fun hc shape object hshape hobject hold => ?_
  obtain ⟨d, hw, hconforms⟩ := hfits hc
  rw [hw] at hshape
  cases hshape
  cases object with
  | array elements => exact hold.elim
  | struct d' fields =>
    intro other u hu
    by_cases hname : other = name
    · subst hname
      rw [Bindings.get?_set_self] at hu
      cases hu
      obtain ⟨old, hget⟩ := Option.isSome_iff_exists.mp (hfield d' fields hobject)
      obtain ⟨f, hf, hfname, -⟩ := hold other old hget
      exact ⟨f, hf, hfname, hconforms f hf hfname⟩
    · rw [Bindings.get?_set_ne _ _ hname] at hu
      exact hold other u hu

end Machine.Typed

end LogicScript
