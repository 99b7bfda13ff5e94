import Mathlib.Data.Option.Basic
import LogicScript.Proofs.Declarations
import LogicScript.Proofs.TypeOrder

/-! What the analysis looks at.

It looks up names in scopes and types of nodes, and nothing else that was filed. A function is
declared with its body, but the body is only walked where the function stands. So two states that are
alike in names, heads of functions and types stay so under the same pass, and the pass comes to the
same type. That type speaks of no struct but those of the program. -/
namespace LogicScript

open Analysis

theorem Scopes.findLocal_declare_eq (s : Scopes) (i j : ScopeId) (name other : String) (d : Decl) :
    (s.declare i name d).2.findLocal j other =
      if s.findLocal i name = none ∧ j = i ∧ i < s.all.size ∧ other = name then some d
      else s.findLocal j other := by
  unfold declare
  split
  · simp_all
  · rename_i hfree
    unfold findLocal get
    simp only [Array.getD_eq_getD_getElem?, Array.getElem?_modify]
    by_cases hi : i = j
    · subst hi
      by_cases hsize : i < s.all.size
      · by_cases hname : other = name
        · subst hname
          simp_all [findLocal, get, Bindings.get?_set_self]
        · simp_all [Bindings.get?_set_ne]
      · simp_all
    · simp [hi, Ne.symm hi]

/-- All structs that a type speaks of are declared by some of the nodes. -/
def Ty.Known (all : List Node) (t : Ty) : Prop := ∀ d ∈ t.structs, .statement (.struct d) ∈ all

namespace Ty.Known

variable {all : List Node} {t : Ty} {ts : List Ty}

theorem prim (p : Primitive) : (Ty.prim p).Known all := by simp [Known, structs]

theorem array_iff : (Ty.array t).Known all ↔ t.Known all := Iff.rfl

theorem struct_iff {d : StructDecl} : (Ty.struct d).Known all ↔ .statement (.struct d) ∈ all := by
  simp [Known, structs]

theorem mem_structsOfList {d : StructDecl} : d ∈ structsOfList ts ↔ ∃ t ∈ ts, d ∈ t.structs := by
  induction ts with
  | nil => simp [structsOfList]
  | cons t ts ih => simp [structsOfList, ih]

theorem function_iff : (Ty.function ts t).Known all ↔ (∀ u ∈ ts, u.Known all) ∧ t.Known all := by
  simp only [Known, structs, List.mem_append, mem_structsOfList]
  grind

theorem predicate_iff {functor : String} :
    (Ty.predicate functor ts).Known all ↔ ∀ u ∈ ts, u.Known all := by
  simp only [Known, structs, mem_structsOfList]
  grind

end Ty.Known

/-- The same declaration, but for the body of a function. A struct is one of the program. -/
inductive Decl.Alike (all : List Node) : Decl → Decl → Prop
  | same {d : Decl} (h : ∀ c, d = .struct c → .statement (.struct c) ∈ all) : Alike all d d
  | function (m : Mark) (name : String) (params : List Parameter) (result : Option TypeExpr)
    (body body' : Block) :
    Alike all (.function ⟨m, name, params, result, body⟩) (.function ⟨m, name, params, result, body'⟩)

namespace Decl.Alike

variable {all : List Node} {d e : Decl}

theorem isAtom (h : Alike all d e) : e.isAtom = d.isAtom := by cases h <;> rfl

theorem isPlaceholder (h : Alike all d e) : e.isPlaceholder = d.isPlaceholder := by cases h <;> rfl

theorem isPredicate (h : Alike all d e) : e.isPredicate = d.isPredicate := by cases h <;> rfl

end Decl.Alike

namespace Analysis

/-- Two states look alike to the analysis of some nodes. -/
structure State.Alike (all : List Node) (s s' : State) : Prop where
  size : s'.table.scopes.all.size = s.table.scopes.all.size
  outer : ∀ i, (s'.table.scopes.get i).outer = (s.table.scopes.get i).outer
  declared : ∀ i name, Option.Rel (Decl.Alike all) (s.table.scopes.findLocal i name)
    (s'.table.scopes.findLocal i name)
  type : ∀ id, (s'.table.attributes id).type = (s.table.attributes id).type
  known : ∀ id t, (s.table.attributes id).type = some t → t.Known all

/-- The same name is found in the same scope. -/
def Found (all : List Node) : Option (Decl × ScopeId) → Option (Decl × ScopeId) → Prop :=
  Option.Rel fun x y => x.2 = y.2 ∧ x.1.Alike all y.1

namespace State.Alike

variable {all : List Node} {s s' : State}

theorem chain (h : s.Alike all s') (i : ScopeId) :
    s'.table.scopes.chain i = s.table.scopes.chain i := by
  unfold Scopes.chain
  rw [h.outer]

theorem root (h : s.Alike all s') (i : ScopeId) :
    s'.table.scopes.root i = s.table.scopes.root i := by
  unfold Scopes.root
  rw [h.chain]

theorem typeOf (h : s.Alike all s') (m : Mark) : s'.table.typeOf m = s.table.typeOf m := by
  unfold Table.typeOf
  rw [h.type]

theorem typeOf_known (h : s.Alike all s') (m : Mark) : (s.table.typeOf m).Known all := by
  unfold Table.typeOf
  cases htype : (s.table.attributes m.id).type with
  | none => exact .prim _
  | some t => exact h.known m.id t htype

theorem free_iff (h : s.Alike all s') (i : ScopeId) (name : String) :
    s'.table.scopes.findLocal i name = none ↔ s.table.scopes.findLocal i name = none := by
  have hi := h.declared i name
  generalize s.table.scopes.findLocal i name = x at hi ⊢
  generalize s'.table.scopes.findLocal i name = y at hi ⊢
  cases hi <;> simp

theorem find (h : s.Alike all s') (i : ScopeId) (name : String) :
    Found all (s.table.scopes.find i name) (s'.table.scopes.find i name) := by
  unfold Scopes.find
  rw [h.chain]
  induction s.table.scopes.chain i with
  | nil => exact .none
  | cons j rest ih =>
    have hj := h.declared j name
    unfold Scopes.findIn
    generalize s.table.scopes.findLocal j name = x at hj ⊢
    generalize s'.table.scopes.findLocal j name = y at hj ⊢
    cases hj with
    | none => exact ih
    | some hde => exact .some ⟨rfl, hde⟩

theorem empty (all : List Node) : ({} : State).Alike all {} where
  size := rfl
  outer _ := rfl
  declared _ _ := .none
  type _ := rfl
  known id t h := by
    have hnone : (({} : State).table.attributes id).type = none := by
      simp [Table.attributes]
    rw [hnone] at h
    cases h

end State.Alike

/-- Two passes lead from states that look alike to such states, with results as told. -/
def Agree (all : List Node) {α : Type} (V : α → α → Prop) (x y : Pass α) : Prop :=
  ∀ s s', s.Alike all s' → V (x s).1 (y s').1 ∧ (x s).2.Alike all (y s').2

/-- The same type, which speaks of structs of the nodes only. -/
def SameType (all : List Node) (t t' : Ty) : Prop := t = t' ∧ t.Known all

def SameTypes (all : List Node) (ts ts' : List Ty) : Prop := ts = ts' ∧ ∀ t ∈ ts, t.Known all

/-- The results do not matter. -/
def Any {α : Type} (_ _ : α) : Prop := True

namespace Agree

variable {all : List Node} {α β : Type} {V : α → α → Prop} {W : β → β → Prop} {x y : Pass α}
  {m : Mark} {i : ScopeId} {name : String}

theorem pure {a b : α} (h : V a b) : Agree all V (Pure.pure a) (Pure.pure b) := fun _ _ hs => ⟨h, hs⟩

theorem bind {f g : α → Pass β} (hx : Agree all V x y)
    (hf : ∀ a b, V a b → Agree all W (f a) (g b)) : Agree all W (x >>= f) (y >>= g) := by
  intro s s' hs
  obtain ⟨hresult, hs'⟩ := hx s s' hs
  exact hf _ _ hresult _ _ hs'

theorem next {f g : α → Pass β} (hx : Agree all V x y) (hf : ∀ a b, Agree all W (f a) (g b)) :
    Agree all W (x >>= f) (y >>= g) := hx.bind fun a b _ => hf a b

theorem get_bind {f g : State → Pass β} (h : ∀ s s', s.Alike all s' → Agree all W (f s) (g s')) :
    Agree all W (get >>= f) (get >>= g) := fun s s' hs => h s s' hs s s' hs

theorem discard (h : Agree all V x y) : Agree all Any (Functor.discard x) (Functor.discard y) :=
  fun s s' hs => ⟨trivial, (h s s' hs).2⟩

theorem report {problem : Problem} : Agree all Any (report m problem) (report m problem) :=
  fun _ _ h => ⟨trivial, ⟨h.size, h.outer, h.declared, h.type, h.known⟩⟩

theorem postpone {q : Pending} : Agree all Any (postpone q) (postpone q) :=
  fun _ _ h => ⟨trivial, ⟨h.size, h.outer, h.declared, h.type, h.known⟩⟩

theorem onTable {id : Nat} {f g : Attributes → Attributes} (hf : ∀ a, (f a).type = a.type)
    (hg : ∀ a, (g a).type = a.type) :
    Agree all Any (onTable (·.update id f)) (onTable (·.update id g)) := by
  intro s s' h
  have htype : ∀ (t : Table) (k : Attributes → Attributes), (∀ a, (k a).type = a.type) → ∀ j,
      ((t.update id k).attributes j).type = (t.attributes j).type := by
    intro t k hk j
    rw [Table.attributes_update]
    split
    · subst_vars
      exact hk _
    · rfl
  refine ⟨trivial, h.size, h.outer, h.declared, fun j => ?_, fun j t ht => ?_⟩
  · exact (htype s'.table g hg j).trans ((h.type j).trans (htype s.table f hf j).symm)
  · exact h.known j t ((htype s.table f hf j).symm.trans ht)

theorem setScope : Agree all Any (setScope m i) (setScope m i) :=
  onTable (fun _ => rfl) fun _ => rfl

theorem setBodyScope : Agree all Any (setBodyScope m i) (setBodyScope m i) :=
  onTable (fun _ => rfl) fun _ => rfl

theorem setDecl {d e : Decl} : Agree all Any (setDecl m d) (setDecl m e) :=
  onTable (fun _ => rfl) fun _ => rfl

theorem setType {t t' : Ty} (ht : SameType all t t') :
    Agree all Any (setType m t) (setType m t') := by
  obtain ⟨rfl, hknown⟩ := ht
  intro s s' h
  have htype : ∀ (table : Table) (j : Nat), ((table.setType m.id t).attributes j).type =
      if m.id = j then some t else (table.attributes j).type := by
    intro table j
    rw [Table.setType, Table.attributes_update]
    split <;> rfl
  refine ⟨trivial, h.size, h.outer, h.declared, fun j => ?_, fun j u ht => ?_⟩
  · refine (htype s'.table j).trans (Eq.trans ?_ (htype s.table j).symm)
    rw [h.type]
  · have ht : ((s.table.setType m.id t).attributes j).type = some u := ht
    rw [htype] at ht
    split at ht
    · cases ht
      exact hknown
    · exact h.known j u ht

theorem find : Agree all (Found all) (find i name) (find i name) := fun _ _ h => ⟨h.find i name, h⟩

theorem findLocal :
    Agree all (Option.Rel (Decl.Alike all)) (findLocal i name) (findLocal i name) :=
  fun _ _ h => ⟨h.declared i name, h⟩

theorem openScope {node node' : NodeRef} {parent : Option ScopeId} :
    Agree all Eq (openScope node parent) (openScope node' parent) := by
  intro s s' h
  have hchain : parent.map s'.table.scopes.chain = parent.map s.table.scopes.chain := by
    cases parent with
    | none => rfl
    | some j => exact congrArg some (h.chain j)
  have houter : ∀ j, ((s'.table.scopes.push (some node') parent).2.get j).outer =
      ((s.table.scopes.push (some node) parent).2.get j).outer := by
    intro j
    rw [Scopes.get_push, Scopes.get_push, h.size, hchain]
    split
    · rfl
    · exact h.outer j
  have hsize : ∀ (scopes : Scopes) (node : NodeRef),
      (scopes.push (some node) parent).2.all.size = scopes.all.size + 1 :=
    fun _ _ => Array.size_push ..
  have hdeclared : ∀ j name, Option.Rel (Decl.Alike all)
      ((s.table.scopes.push (some node) parent).2.findLocal j name)
      ((s'.table.scopes.push (some node') parent).2.findLocal j name) := by
    intro j name
    rw [Scopes.findLocal_push, Scopes.findLocal_push]
    exact h.declared j name
  refine ⟨h.size.symm, ?_, houter, hdeclared, h.type, h.known⟩
  exact (hsize ..).trans ((congrArg (· + 1) h.size).trans (hsize ..).symm)

theorem enter {d e : Decl} (hd : d.Alike all e) :
    Agree all Eq (enter i name d) (enter i name e) := by
  intro s s' h
  have hfree : (s'.table.scopes.declare i name e).1 = (s.table.scopes.declare i name d).1 := by
    have hi := h.declared i name
    unfold Scopes.declare
    generalize s.table.scopes.findLocal i name = x at hi ⊢
    generalize s'.table.scopes.findLocal i name = y at hi ⊢
    cases hi <;> rfl
  refine ⟨hfree.symm, ?_, fun j => ?_, fun j other => ?_, h.type, h.known⟩
  · exact (Scopes.size_declare ..).trans (h.size.trans (Scopes.size_declare ..).symm)
  · exact (Scopes.outer_declare ..).trans ((h.outer j).trans (Scopes.outer_declare ..).symm)
  · show Option.Rel (Decl.Alike all) ((s.table.scopes.declare i name d).2.findLocal j other)
      ((s'.table.scopes.declare i name e).2.findLocal j other)
    simp only [Scopes.findLocal_declare_eq, h.free_iff, h.size]
    split
    · exact .some hd
    · exact h.declared j other

theorem declare {d e : Decl} (hd : d.Alike all e) :
    Agree all Any (declare i name d m) (declare i name e m) := by
  refine (enter hd).bind ?_
  rintro free _ rfl
  cases free with
  | true => exact setScope
  | false => exact report.next fun _ _ => setScope

theorem typed {x y : Pass Ty} (h : Agree all (SameType all) x y) :
    Agree all (SameType all) (typed m x) (typed m y) :=
  h.bind fun _ _ ht => (setType ht).next fun _ _ => pure ht

theorem void : SameType all .void .void := ⟨rfl, .prim _⟩

theorem resolveType (t : TypeExpr) :
    Agree all (SameType all) (resolveType t i) (resolveType t i) := by
  induction t with
  | array m element ih => exact ih.bind fun _ _ ⟨heq, hknown⟩ => pure ⟨congrArg Ty.array heq, hknown⟩
  | simple m name =>
    have hunknown : Agree all (SameType all)
        (Analysis.report m (.unknownType name) >>= fun _ => Pure.pure Ty.void)
        (Analysis.report m (.unknownType name) >>= fun _ => Pure.pure Ty.void) :=
      report.next fun _ _ => pure void
    refine find.bind fun found found' h => ?_
    cases h with
    | none => exact hunknown
    | @some x y h =>
      obtain ⟨d, owner⟩ := x
      obtain ⟨e, owner'⟩ := y
      obtain ⟨-, hd⟩ := h
      cases hd with
      | function => exact hunknown
      | same hd =>
        cases d with
        | builtinType p => exact pure ⟨rfl, .prim p⟩
        | struct d => exact pure ⟨rfl, Ty.Known.struct_iff.mpr (hd d rfl)⟩
        | _ => exact hunknown

theorem resolveTypes (ts : List TypeExpr) :
    Agree all (SameTypes all) (resolveTypes ts i) (resolveTypes ts i) := by
  induction ts with
  | nil => exact pure ⟨rfl, by simp⟩
  | cons t ts ih =>
    refine (resolveType t).bind fun u u' hu => ih.bind fun us us' hus => pure ?_
    obtain ⟨rfl, hu⟩ := hu
    obtain ⟨rfl, hus⟩ := hus
    exact ⟨rfl, by simpa using ⟨hu, hus⟩⟩

theorem functionType {params : List Parameter} {result : Option TypeExpr} :
    Agree all (SameType all) (functionType m params result i) (functionType m params result i) := by
  refine get_bind fun s s' h => ?_
  rw [h.type]
  split
  · rename_i ts t htype
    exact pure ⟨rfl, h.known _ _ htype⟩
  · refine (resolveTypes _).bind fun ts ts' hts => ?_
    have hfile : ∀ {t t' : Ty}, SameType all t t' → Agree all (SameType all)
        (Analysis.setType m (.function ts t) >>= fun _ => Pure.pure (Ty.function ts t))
        (Analysis.setType m (.function ts' t') >>= fun _ => Pure.pure (Ty.function ts' t')) := by
      rintro t _ ⟨rfl, ht⟩
      obtain ⟨rfl, hts⟩ := hts
      have hfunction : SameType all (.function ts t) (.function ts t) :=
        ⟨rfl, Ty.Known.function_iff.mpr ⟨hts, ht⟩⟩
      exact (setType hfunction).next fun _ _ => pure hfunction
    cases result with
    | none => exact hfile void
    | some t => exact (resolveType t).bind fun _ _ ht => hfile ht

theorem declType {d e : Decl} (hd : d.Alike all e) :
    Agree all (SameType all) (declType d i) (declType e i) := by
  have hmark : ∀ m : Mark, Agree all (SameType all)
      (get >>= fun s => Pure.pure (s.table.typeOf m))
      (get >>= fun s => Pure.pure (s.table.typeOf m)) := fun m =>
    get_bind fun s s' h => pure ⟨(h.typeOf m).symm, h.typeOf_known m⟩
  cases hd with
  | function => exact functionType
  | same =>
    cases d with
    | function f => exact functionType
    | var m name | parameter m name | placeholder m name | fact m name | rule m name =>
      exact hmark m
    | builtinFunction =>
      exact pure ⟨rfl, Ty.Known.function_iff.mpr ⟨by simp [Ty.Known.prim], .prim _⟩⟩
    | builtinType | struct | atom => exact pure ⟨rfl, .prim _⟩

theorem reference {r : Reference} :
    Agree all (SameType all) (reference r i) (reference r i) := by
  refine typed (find.bind fun found found' h => ?_)
  cases h with
  | none => exact report.next fun _ _ => pure void
  | @some x y h =>
    obtain ⟨d, owner⟩ := x
    obtain ⟨e, owner'⟩ := y
    obtain ⟨rfl, hd⟩ := h
    exact setDecl.next fun _ _ => setScope.next fun _ _ => declType hd

theorem constructorType :
    Agree all (SameType all) (constructorType m name i) (constructorType m name i) := by
  have hnone : Agree all (SameType all)
      (Analysis.report m (.notStruct name) >>= fun _ => Pure.pure Ty.void)
      (Analysis.report m (.notStruct name) >>= fun _ => Pure.pure Ty.void) :=
    report.next fun _ _ => pure void
  refine find.bind fun found found' h => ?_
  cases h with
  | none => exact hnone
  | @some x y h =>
    obtain ⟨d, owner⟩ := x
    obtain ⟨e, owner'⟩ := y
    obtain ⟨rfl, hd⟩ := h
    cases hd with
    | function => exact hnone
    | same hd =>
      cases d with
      | struct d =>
        refine setDecl.next fun _ _ => setScope.next fun _ _ => (resolveTypes _).bind ?_
        rintro ts _ ⟨rfl, hts⟩
        exact pure ⟨rfl, Ty.Known.function_iff.mpr ⟨hts, Ty.Known.struct_iff.mpr (hd d rfl)⟩⟩
      | _ => exact hnone

theorem fieldType {stem : Ty} :
    Agree all (SameType all) (fieldType m stem name i) (fieldType m stem name i) := by
  have hunknown : Agree all (SameType all)
      (Analysis.report m (.unknownField name stem.name) >>= fun _ => Pure.pure Ty.void)
      (Analysis.report m (.unknownField name stem.name) >>= fun _ => Pure.pure Ty.void) :=
    report.next fun _ _ => pure void
  unfold Analysis.fieldType
  dsimp only
  split
  · split
    · exact pure ⟨rfl, .prim _⟩
    · exact hunknown
  · split
    · exact resolveType _
    · exact hunknown
  · exact hunknown

theorem placeholder {type : TypeExpr} :
    Agree all (SameType all) (placeholder m name type i) (placeholder m name type i) := by
  refine get_bind fun s s' h => ?_
  rw [h.root]
  generalize s.table.scopes.root i = root
  have hrest : ∀ {t t' : Ty}, SameType all t t' → Agree all (SameType all)
      (Analysis.setScope m root >>= fun _ =>
        Analysis.setDecl m (.placeholder m name) >>= fun _ => Pure.pure t)
      (Analysis.setScope m root >>= fun _ =>
        Analysis.setDecl m (.placeholder m name) >>= fun _ => Pure.pure t') := fun ht =>
    setScope.next fun _ _ => setDecl.next fun _ _ => pure ht
  refine (resolveType type).bind fun t t' ht => findLocal.bind fun found found' hfound => ?_
  cases hfound with
  | none => exact (enter (.same (by simp))).discard.next fun _ _ => hrest ht
  | @some d e hd =>
    dsimp only
    rw [hd.isPlaceholder]
    split
    · exact hrest ht
    · exact report.next fun _ _ => hrest ht

/-- The element type of an array literal speaks of no structs but those of its elements. -/
theorem elementType_known {ts : List Ty} (hts : ∀ t ∈ ts, t.Known all) :
    (elementType ts).Known all := by
  have hstep : ∀ (element t : Ty), element.Known all → t.Known all →
      (if element.isNull then t
        else if element.isInt && t.isFloat then .float else element : Ty).Known all := by
    intro element t helement ht
    split
    · exact ht
    · split
      · exact .prim _
      · exact helement
  unfold elementType
  generalize hnull : Ty.null = element
  have helement : element.Known all := hnull ▸ .prim _
  clear hnull
  induction ts generalizing element with
  | nil => exact helement
  | cons t ts ih =>
    simp only [List.mem_cons, forall_eq_or_imp] at hts
    exact ih hts.2 _ (hstep element t helement hts.1)

theorem operatorType_known (op : BinaryOp) (l r : Ty) : (operatorType op l r).Known all := by
  unfold operatorType
  split
  · exact .prim _
  · split
    · exact .prim _
    · split <;> exact .prim _

mutual

theorem expression (e : Expr) : Agree all (SameType all) (expression e i) (expression e i) := by
  match e with
  | .int _ _ | .float _ _ | .string _ _ | .bool _ _ | .null _ => exact typed (pure ⟨rfl, .prim _⟩)
  | .reference r => exact reference
  | .constructor m name => exact typed constructorType
  | .array m elements =>
    refine typed ((expressions elements).bind ?_)
    rintro ts _ ⟨rfl, hts⟩
    exact pure ⟨rfl, elementType_known hts⟩
  | .field m stem name =>
    refine typed ((expression stem).bind ?_)
    rintro t _ ⟨rfl, -⟩
    exact fieldType
  | .index m array index =>
    rw [expression_index]
    refine typed ((expression array).bind ?_)
    rintro t _ ⟨rfl, ht⟩
    refine (expression index).discard.next fun _ _ => pure ⟨rfl, ?_⟩
    cases t <;> first | exact ht | exact .prim _
  | .call m callee arguments =>
    rw [expression_call]
    refine typed ((expression callee).bind ?_)
    rintro t _ ⟨rfl, ht⟩
    refine (expressions arguments).discard.next fun _ _ => pure ⟨rfl, ?_⟩
    cases t with
    | function ts t => exact (Ty.Known.function_iff.mp ht).2
    | _ => exact .prim _
  | .not m operand => exact typed ((expression operand).discard.next fun _ _ => pure ⟨rfl, .prim _⟩)
  | .binary m op left right =>
    refine typed ((expression left).bind ?_)
    rintro l _ ⟨rfl, -⟩
    refine (expression right).bind ?_
    rintro r _ ⟨rfl, -⟩
    exact pure ⟨rfl, operatorType_known op l r⟩
  | .assign m target value => exact typed ((expression value).discard.next fun _ _ => expression target)
  | .paren m inner => exact typed (expression inner)
  | .query m target question =>
    exact typed (reference.discard.next fun _ _ => (expression question).discard.next
      fun _ _ => pure ⟨rfl, .prim _⟩)
  | .placeholder m name type => exact typed placeholder
  | .logic goal => exact logic goal

theorem expressions (es : List Expr) :
    Agree all (SameTypes all) (expressions es i) (expressions es i) := by
  match es with
  | [] => exact pure ⟨rfl, by simp⟩
  | e :: es =>
    refine (expression e).bind fun t t' ht => (expressions es).bind fun ts ts' hts => pure ?_
    obtain ⟨rfl, ht⟩ := ht
    obtain ⟨rfl, hts⟩ := hts
    exact ⟨rfl, by simpa using ⟨ht, hts⟩⟩

theorem logic (goal : Goal) : Agree all (SameType all) (logic goal i) (logic goal i) := by
  match goal with
  | .atom m name => exact typed (postpone.next fun _ _ => pure ⟨rfl, .prim _⟩)
  | .call m functor arguments =>
    exact typed ((expressions arguments).discard.next fun _ _ => postpone.next
      fun _ _ => pure ⟨rfl, .prim _⟩)
  | .paren m inner => exact typed ((logic inner).discard.next fun _ _ => pure ⟨rfl, .prim _⟩)
  | .not m operand => exact typed ((logic operand).discard.next fun _ _ => pure ⟨rfl, .prim _⟩)
  | .binary m op left right =>
    exact typed ((logic left).discard.next fun _ _ => (logic right).discard.next
      fun _ _ => pure ⟨rfl, .prim _⟩)

end

theorem predicate {d : Decl} {functor : String} {params params' : List Ty}
    (hd : ∀ c, d ≠ .struct c) (hparams : SameTypes all params params') :
    Agree all Any (predicate d m functor params i) (predicate d m functor params' i) := by
  obtain ⟨rfl, hparams⟩ := hparams
  have hown : Agree all Any (Analysis.declare i functor d m >>= fun _ => Analysis.setDecl m d)
      (Analysis.declare i functor d m >>= fun _ => Analysis.setDecl m d) :=
    (declare (.same fun c h => absurd h (hd c))).next fun _ _ => setDecl
  refine (setType ⟨rfl, Ty.Known.predicate_iff.mpr hparams⟩).next fun _ _ =>
    find.bind fun found found' h => ?_
  cases h with
  | none => exact hown
  | @some x y h =>
    obtain ⟨d, owner⟩ := x
    obtain ⟨e, owner'⟩ := y
    obtain ⟨rfl, hd⟩ := h
    dsimp only
    rw [hd.isPredicate]
    cases d.isPredicate
    · exact hown
    · exact setScope.next fun _ _ => setDecl

theorem parameter {p : Parameter} : Agree all (SameType all) (parameter p i) (parameter p i) :=
  (resolveType p.type).bind fun _ _ ht => (declare (.same (by simp))).next fun _ _ =>
    (setType ht).next fun _ _ => pure ht

theorem parameters (ps : List Parameter) :
    Agree all (SameTypes all) (parameters ps i) (parameters ps i) := by
  induction ps with
  | nil => exact pure ⟨rfl, by simp⟩
  | cons p ps ih =>
    refine parameter.bind fun t t' ht => ih.bind fun ts ts' hts => pure ?_
    obtain ⟨rfl, ht⟩ := ht
    obtain ⟨rfl, hts⟩ := hts
    exact ⟨rfl, by simpa using ⟨ht, hts⟩⟩

theorem fields (fs : List FieldDecl) : Agree all Any (fields fs i) (fields fs i) := by
  induction fs with
  | nil => exact pure trivial
  | cons f fs ih => exact (resolveType f.type).bind fun _ _ ht => (setType ht).next fun _ _ => ih

theorem varDecl {d : VarDecl} : Agree all Any (varDecl d i) (varDecl d i) := by
  have hdeclare : ∀ t t' : Ty, SameType all t t' → Agree all Any
      (Analysis.declare i d.name (.var d.mark d.name) d.mark >>= fun _ => Analysis.setType d.mark t)
      (Analysis.declare i d.name (.var d.mark d.name) d.mark >>= fun _ => Analysis.setType d.mark t') :=
    fun _ _ ht => (declare (.same (by simp))).next fun _ _ => setType ht
  unfold Analysis.varDecl
  dsimp only
  cases d.initializer with
  | none =>
    refine (pure (V := SameType all) void).bind fun t t' ht => ?_
    cases d.type with
    | none => exact (pure ht).bind hdeclare
    | some type => exact (resolveType type).bind hdeclare
  | some e =>
    refine (expression e).bind fun t t' ht => ?_
    cases d.type with
    | none => exact (pure ht).bind hdeclare
    | some type => exact (resolveType type).bind hdeclare

theorem atom {d : AtomDecl} : Agree all Any (atom d i) (atom d i) := by
  have hrest : Agree all Any
      (Analysis.setScope d.mark i >>= fun _ => Analysis.setType d.mark .bool)
      (Analysis.setScope d.mark i >>= fun _ => Analysis.setType d.mark .bool) :=
    setScope.next fun _ _ => setType ⟨rfl, .prim _⟩
  refine findLocal.bind fun found found' h => ?_
  cases h with
  | none => exact (enter (.same (by simp))).discard.next fun _ _ => hrest
  | @some d e hd =>
    dsimp only
    rw [hd.isAtom]
    split
    · exact hrest
    · exact report.next fun _ _ => hrest

theorem fact {d : FactDecl} : Agree all Any (fact d i) (fact d i) :=
  (expressions d.arguments).bind fun _ _ hparams => predicate (by simp) hparams

theorem rule {d : RuleDecl} : Agree all Any (rule d i) (rule d i) := by
  refine openScope.bind ?_
  rintro body _ rfl
  exact setBodyScope.next fun _ _ => (parameters d.parameters).bind fun _ _ hparams =>
    (predicate (by simp) hparams).next fun _ _ => (logic d.body).discard

theorem openBlock : Agree all Eq (openBlock m i) (openBlock m i) := by
  refine openScope.bind ?_
  rintro inner _ rfl
  exact setScope.next fun _ _ => pure rfl

theorem openFunction {params : List Parameter} {result : Option TypeExpr} :
    Agree all Eq (openFunction m params result i) (openFunction m params result i) := by
  refine functionType.bind fun t t' ht => (setType ht).next fun _ _ => openScope.bind ?_
  rintro body _ rfl
  exact setBodyScope.next fun _ _ => pure rfl

end Agree

/-- Two statements are declared ahead alike, if at all. -/
inductive HoistedAlike (all : List Node) : Stmt → Stmt → Prop
  | struct {d : StructDecl} (h : .statement (.struct d) ∈ all) :
    HoistedAlike all (.struct d) (.struct d)
  | function (m : Mark) (name : String) (params : List Parameter) (result : Option TypeExpr)
    (body body' : Block) : HoistedAlike all (.function ⟨m, name, params, result, body⟩)
      (.function ⟨m, name, params, result, body'⟩)
  | other {st st' : Stmt} (h : isHoisted st = false) (h' : isHoisted st' = false) :
    HoistedAlike all st st'

theorem HoistedAlike.refl {all : List Node} {st : Stmt} (h : .statement st ∈ all) :
    HoistedAlike all st st := by
  cases st with
  | struct d => exact .struct h
  | function d =>
    obtain ⟨m, name, params, result, body⟩ := d
    exact .function ..
  | _ => exact .other rfl rfl

theorem hoist_other {st : Stmt} (h : isHoisted st = false) (rest : List Stmt) (i : ScopeId) :
    hoist (st :: rest) i = hoist rest i := by
  cases st with
  | struct d => cases h
  | function d => cases h
  | _ => rfl

namespace Agree

variable {all : List Node} {i : ScopeId}

theorem hoist {ss ss' : List Stmt} (h : List.Forall₂ (HoistedAlike all) ss ss') :
    Agree all Any (hoist ss i) (hoist ss' i) := by
  induction h with
  | nil => exact pure trivial
  | cons hst _ ih =>
    cases hst with
    | struct hd =>
      refine (declare (.same ?_)).next fun _ _ => ih
      rintro c ⟨⟩
      exact hd
    | function => exact (declare (.function ..)).next fun _ _ => ih
    | other hst hst' =>
      rw [hoist_other hst, hoist_other hst']
      exact ih

theorem hoist_self {ss : List Stmt} (h : Stmt.nodesOfList ss ⊆ all) :
    Agree all Any (Analysis.hoist ss i) (Analysis.hoist ss i) :=
  hoist <| List.forall₂_same.mpr fun st hst =>
    .refl (h (Stmt.mem_nodesOfList.mpr ⟨st, hst, st.self_mem_nodes⟩))

mutual

theorem statement (st : Stmt) {i : ScopeId} (h : st.nodes ⊆ all) :
    Agree all Any (statement st i) (statement st i) := by
  match st with
  | .block ⟨m, body⟩ =>
    have hbody : Stmt.nodesOfList body ⊆ all := fun n hn => h (by simp [Stmt.nodes, hn])
    refine openBlock.bind ?_
    rintro inner _ rfl
    exact (hoist_self hbody).next fun _ _ => statements body hbody
  | .function ⟨m, name, params, result, ⟨block, body⟩⟩ =>
    have hbody : Stmt.nodesOfList body ⊆ all := fun n hn => h (by simp [Stmt.nodes, hn])
    rw [statement_function]
    refine openFunction.bind ?_
    rintro outer _ rfl
    refine (parameters params).discard.next fun _ _ => openBlock.bind ?_
    rintro inner _ rfl
    exact (hoist_self hbody).next fun _ _ => statements body hbody
  | .expr _ value => exact (expression value).discard
  | .var d => exact varDecl
  | .struct d => exact (setType ⟨rfl, .prim _⟩).next fun _ _ => fields d.fields
  | .cond _ condition yes none =>
    have hyes : yes.nodes ⊆ all := fun n hn => h (by simp [Stmt.nodes, hn])
    exact (expression condition).discard.next fun _ _ => statement yes hyes
  | .cond _ condition yes (some no) =>
    have hyes : yes.nodes ⊆ all := fun n hn => h (by simp [Stmt.nodes, hn])
    have hno : no.nodes ⊆ all := fun n hn => h (by simp [Stmt.nodes, hn])
    exact (expression condition).discard.next fun _ _ => (statement yes hyes).next
      fun _ _ => statement no hno
  | .loop _ condition body =>
    have hbody : body.nodes ⊆ all := fun n hn => h (by simp [Stmt.nodes, hn])
    exact (expression condition).discard.next fun _ _ => statement body hbody
  | .ret _ none => exact pure trivial
  | .ret _ (some value) => exact (expression value).discard
  | .atom d => exact atom
  | .fact d => exact fact
  | .rule d => exact rule
  | .unify _ left right =>
    exact (logic left.goal).discard.next fun _ _ => (logic right.goal).discard

theorem statements (ss : List Stmt) {i : ScopeId} (h : Stmt.nodesOfList ss ⊆ all) :
    Agree all Any (statements ss i) (statements ss i) := by
  match ss with
  | [] => exact pure trivial
  | st :: rest =>
    have hst : st.nodes ⊆ all := fun n hn => h (by simp [Stmt.nodesOfList, hn])
    have hrest : Stmt.nodesOfList rest ⊆ all := fun n hn => h (by simp [Stmt.nodesOfList, hn])
    exact (statement st hst).next fun _ _ => statements rest hrest

end

theorem enterAll (ds : List Decl) (h : ∀ d ∈ ds, d.isBuiltin = true) :
    Agree all Any (enterAll i ds) (enterAll i ds) := by
  induction ds with
  | nil => exact pure trivial
  | cons d ds ih =>
    simp only [List.mem_cons, forall_eq_or_imp] at h
    refine (enter (.same ?_)).discard.next fun _ _ => ih h.2
    rintro c rfl
    cases h.1

/-- The outermost scope is opened, and what is declared ahead in it is alike. -/
theorem opening {p p' : Program} (hmark : p'.mark = p.mark)
    (h : List.Forall₂ (HoistedAlike all) p.statements p'.statements) :
    Agree all Eq p.opening p'.opening := by
  unfold Program.opening
  rw [hmark]
  refine openScope.bind ?_
  rintro root _ rfl
  exact setScope.next fun _ _ => (enterAll builtins (by decide)).next fun _ _ => (hoist h).next
    fun _ _ => pure rfl

end Agree
end Analysis

namespace Program

variable {p : Program}

theorem opened_alike {p' : Program} {all : List Node} (hmark : p'.mark = p.mark)
    (h : List.Forall₂ (HoistedAlike all) p.statements p'.statements) :
    p.opened.Alike all p'.opened :=
  (Agree.opening hmark h {} {} (.empty all)).2

theorem type_settled (p : Program) (id : Nat) :
    (p.settled.table.attributes id).type = (p.walked.table.attributes id).type := by
  have hsettle := (settled_files p []).1.toKept
  refine (hsettle.type ?_).resolve_right ?_
  · rintro ⟨h | h, -⟩ <;> cases h
  · rintro ⟨⟨d, hd, -⟩, -⟩
    cases hd

theorem types_known (p : Program) {id : Nat} {t : Ty}
    (h : (p.settled.table.attributes id).type = some t) : t.Known p.nodes := by
  have hnodes : Stmt.nodesOfList p.statements ⊆ p.nodes := List.subset_cons_self ..
  have hopened : p.opened.Alike p.nodes p.opened := opened_alike rfl <|
    List.forall₂_same.mpr fun st hst =>
      .refl (hnodes (Stmt.mem_nodesOfList.mpr ⟨st, hst, st.self_mem_nodes⟩))
  have hwalked : p.walked.Alike p.nodes p.walked := (Agree.statements p.statements hnodes _ _ hopened).2
  rw [type_settled] at h
  exact hwalked.known id t h

theorem typeOf_known (p : Program) (m : Mark) : (p.settled.table.typeOf m).Known p.nodes := by
  unfold Table.typeOf
  cases htype : (p.settled.table.attributes m.id).type with
  | none => exact .prim _
  | some t => exact p.types_known htype

end Program

end LogicScript
