import LogicScript.Proofs.Typing

/-! Programs that store things where their type is expected.

An Int is widened wherever a Float slot is written. Whether an Int may still be met where a Float is
expected depends on what is written elsewhere: in an array, a struct or the body of a function that
is known under another type. A program is consistent if it stores arrays, structs and functions only
where their own type is expected. In a coarse view this leaves out the one mistake that is accepted
everywhere: an array of Ints that is stored as an array of Floats. -/
namespace LogicScript

open Analysis

namespace Ty

mutual

/-- Whether two types are equal; struct types are if their declarations are. -/
def equal : Ty → Ty → Bool
  | .prim p, .prim q => p == q
  | .array s, .array t => equal s t
  | .struct d, .struct e => d == e
  | .function ps r, .function qs q => equalAll ps qs && equal r q
  | .predicate f ps, .predicate g qs => f == g && equalAll ps qs
  | _, _ => false

def equalAll : List Ty → List Ty → Bool
  | [], [] => true
  | s :: ss, t :: ts => equal s t && equalAll ss ts
  | _, _ => false

end

mutual

theorem equal_iff (s t : Ty) : equal s t = true ↔ s = t := by
  match s with
  | .prim p => cases t <;> simp [equal]
  | .array s => cases t <;> simp [equal, equal_iff s]
  | .struct d => cases t <;> simp [equal]
  | .function ps r => cases t <;> simp [equal, equalAll_iff ps, equal_iff r]
  | .predicate f ps => cases t <;> simp [equal, equalAll_iff ps]

theorem equalAll_iff (ss ts : List Ty) : equalAll ss ts = true ↔ ss = ts := by
  match ss with
  | [] => cases ts <;> simp [equalAll]
  | s :: ss => cases ts <;> simp [equalAll, equal_iff s, equalAll_iff ss]

end

instance : DecidableEq Ty := fun s t => decidable_of_iff (equal s t = true) (equal_iff s t)

/-- How closely types are looked at. -/
inductive View
  /-- Types as they are. -/
  | exact
  /-- Arrays of Floats are taken for arrays of Ints. -/
  | coarse
  deriving DecidableEq

mutual

/-- A type as it is seen. -/
def seen (view : View) : Ty → Ty
  | .array s => .array (if view = .coarse ∧ s = .float then .int else seen view s)
  | .function ps r => .function (seenAll view ps) (seen view r)
  | s => s

def seenAll (view : View) : List Ty → List Ty
  | [] => []
  | s :: ss => seen view s :: seenAll view ss

end

/-- How the type of the elements of an array is seen. -/
def held (view : View) (s : Ty) : Ty := if view = .coarse ∧ s = .float then .int else s.seen view

def paramsOf : Ty → List Ty
  | .function ps _ => ps
  | _ => []

def fieldsOf : Ty → List FieldDecl
  | .struct d => d.fields
  | _ => []

def isArray : Ty → Bool
  | .array _ => true
  | _ => false

/-- Whether values of the type are known by where they are kept: what is an array of Floats for one
name must not be an array of Ints for another. -/
def isShared : Ty → Bool
  | .array _ | .struct _ | .function _ _ | .null => true
  | _ => false

section Seen

variable (view : View) (s : Ty)

theorem seen_array : seen view (.array s) = .array (s.held view) := by
  rw [seen]
  rfl

theorem seen_function (ps : List Ty) (r : Ty) :
    seen view (.function ps r) = .function (seenAll view ps) (seen view r) := by rw [seen]

@[simp] theorem seen_prim (q : Primitive) : seen view (.prim q) = .prim q := by rw [seen] <;> simp

@[simp] theorem seen_struct (d : StructDecl) : seen view (.struct d) = .struct d := by
  rw [seen] <;> simp

@[simp] theorem isShared_seen : (s.seen view).isShared = s.isShared := by
  cases s with
  | prim q => rw [seen_prim]
  | array s => rw [seen_array]; rfl
  | struct d => rw [seen_struct]
  | function ps r => rw [seen_function]; rfl
  | predicate f ps => rw [seen] <;> simp

theorem seen_eq_prim {view : View} {s : Ty} {q : Primitive} :
    s.seen view = .prim q ↔ s = .prim q := by
  cases s with
  | prim q => rw [seen_prim]
  | array s => simp [seen_array]
  | struct d => rw [seen_struct]
  | function ps r => simp [seen_function]
  | predicate f ps => rw [seen] <;> simp

theorem resultOf_seen : resultOf (s.seen view) = (resultOf s).seen view := by
  cases s with
  | prim q => simp [resultOf]
  | array s => simp [seen_array, resultOf]
  | struct d => simp [resultOf]
  | function ps r => simp [seen_function, resultOf]
  | predicate f ps => rw [seen] <;> simp [resultOf]

theorem operatorType_seen (op : BinaryOp) (left right : Ty) :
    (operatorType op left right).seen view = operatorType op left right := by
  unfold operatorType
  repeat' split
  all_goals exact seen_prim ..

end Seen

end Ty

def Table.seen (t : Table) (view : Ty.View) (m : Mark) : Ty := (t.typeOf m).seen view

def Decl.struct? : Decl → Option StructDecl
  | .struct d => some d
  | _ => none

def Decl.function? : Decl → Option FunctionDecl
  | .function d => some d
  | _ => none

def Node.placeholder? : Node → Option String
  | .expression (.placeholder _ name _) => some name
  | _ => none

def Node.rule? : Node → Option RuleDecl
  | .statement (.rule d) => some d
  | _ => none

mutual

/-- The expressions whose value a statement returns; those of other functions in it are none of
them. -/
def Stmt.returned : Stmt → List Expr
  | .block ⟨_, body⟩ => Stmt.returnedOfList body
  | .cond _ _ yes none => yes.returned
  | .cond _ _ yes (some no) => yes.returned ++ no.returned
  | .loop _ _ body => body.returned
  | .ret _ (some e) => [e]
  | _ => []

def Stmt.returnedOfList : List Stmt → List Expr
  | [] => []
  | st :: rest => st.returned ++ Stmt.returnedOfList rest

end

def Expr.function? (t : Table) (e : Expr) : Option FunctionDecl :=
  match e.unwrap with
  | .reference r => (t.attributes r.mark.id).decl.bind Decl.function?
  | _ => none

/-- A literal of an array with nothing but nulls. It is fit for any array, as nothing else knows
it. -/
def Expr.isBlank (t : Table) (e : Expr) : Bool :=
  match e.unwrap with
  | .array _ elements => elements.all (t.typeOf ·.mark = .null)
  | _ => false

section Consistency

variable (p : Program) (t : Table) (view : Ty.View)

/-- Whether a slot of a type is fit for what an expression gives. -/
def Ty.Takes (slot : Ty) (e : Expr) : Prop := slot.isShared = true →
  t.seen view e.mark = slot ∨ t.seen view e.mark = .null ∨ slot.isArray = true ∧ e.isBlank t = true

theorem Ty.void_takes (e : Expr) : Ty.void.Takes t view e := by simp [Ty.Takes, Ty.isShared]

def Ty.TakesAll (slots : List Ty) (es : List Expr) : Prop :=
  ∀ q ∈ slots.zip es, q.1.Takes t view q.2

theorem Ty.takesAll_nil (es : List Expr) : Ty.TakesAll t view [] es := by simp [Ty.TakesAll]

/-- Whether the name of a placeholder is also used for one of another type. -/
def Decl.Reused (name : String) : Decl → Prop
  | .placeholder m _ => ∃ n ∈ p.nodes, n.placeholder? = some name ∧ t.seen view n.mark ≠ t.seen view m
  | _ => False

/-- The value of the expression comes from an object, from a function that is itself a value, or from
a placeholder whose name has several types. -/
def Expr.Indirect (e : Expr) : Prop :=
  match e.unwrap with
  | .index _ _ _ | .field _ _ _ => True
  | .call _ callee _ => callee.function? t = none
  | .reference r => ∃ d ∈ (t.attributes r.mark.id).decl, d.Reused p t view r.name
  | _ => False

/-- A placeholder is fit for the value that it may be bound to. -/
def Expr.Binds : Expr → Expr → Prop
  | .placeholder m _ _, e =>
    (t.typeOf e.mark).assignable (t.typeOf m) = true → (t.seen view m).Takes t view e
  | _, _ => True

/-- An expression stores values only where their type is expected. -/
def Expr.Consistent : Expr → Prop
  | .reference r => ∀ d ∈ (t.attributes r.mark.id).decl, d.Reused p t view r.name →
    (t.typeOf r.mark).isShared = false
  | .constructor m _ => ∀ d ∈ (t.attributes m.id).decl.bind Decl.struct?,
    t.seen view m = .function (d.fields.map (t.seen view ·.mark)) (.struct d)
  | .array m elements => ∀ e ∈ elements, ((elementOf (t.typeOf m)).seen view).Takes t view e
  | .field m stem name => ∀ f ∈ (t.typeOf stem.mark).fieldsOf, f.name = name →
    t.seen view m = t.seen view f.mark
  | .index _ stem _ => t.typeOf stem.mark = .array (elementOf (t.typeOf stem.mark))
  | .call _ callee arguments =>
    t.seen view callee.mark =
      .function (t.seen view callee.mark).paramsOf (resultOf (t.seen view callee.mark)) ∧
    Ty.TakesAll t view (t.seen view callee.mark).paramsOf arguments
  | .assign _ target value => (t.seen view target.mark).Takes t view value
  | .logic (.call _ functor arguments) => ∀ n ∈ p.nodes, ∀ d ∈ n.rule?, d.functor = functor →
    Eval.fits t arguments d.parameters = true →
    Ty.TakesAll t view (d.parameters.map (t.seen view ·.mark)) arguments
  | _ => True

/-- A statement stores values only where their type is expected. -/
def Stmt.Consistent : Stmt → Prop
  | .var d => ∀ e ∈ d.initializer, (t.seen view d.mark).Takes t view e
  | .function d =>
    t.seen view d.mark =
      .function (d.parameters.map (t.seen view ·.mark)) (resultOf (t.seen view d.mark)) ∧
    ∀ e ∈ (Stmt.block d.body).returned, (resultOf (t.seen view d.mark)).Takes t view e
  | .unify _ left right => ∀ q ∈ left.arguments.zip right.arguments,
    q.1.Binds t view q.2 ∧ q.2.Binds t view q.1
  | _ => True

def Node.Consistent : Node → Prop
  | .expression e => e.Consistent p t view
  | .statement st => st.Consistent t view
  | _ => True

/-- Arrays, structs and functions are stored only where their own type is expected, as far as it is
seen. -/
def Program.Consistent : Prop := ∀ n ∈ p.nodes, n.Consistent p t view

/-- What is no better known in a consistent program: a placeholder whose name has several types, and
where arrays of Floats are not told from arrays of Ints, an element of an array. -/
def Expr.Doubtful (e : Expr) : Prop :=
  match e.unwrap with
  | .index _ _ _ => view = .coarse
  | .reference r => ∃ d ∈ (t.attributes r.mark.id).decl, d.Reused p t view r.name
  | _ => False

/-- Whether the value of an expression is sure to be as its static type says. -/
def Expr.Certain (e : Expr) : Prop :=
  ¬ e.Indirect p t view ∨ p.Consistent t view ∧ (t.typeOf e.mark = .float → ¬ e.Doubtful p t view)

end Consistency

section Decidability

variable (p : Program) (t : Table) (view : Ty.View)

instance (slot : Ty) (e : Expr) : Decidable (slot.Takes t view e) :=
  inferInstanceAs (Decidable (slot.isShared = true →
    t.seen view e.mark = slot ∨ t.seen view e.mark = .null ∨ slot.isArray = true ∧ e.isBlank t = true))

instance (slots : List Ty) (es : List Expr) : Decidable (Ty.TakesAll t view slots es) :=
  inferInstanceAs (Decidable (∀ q ∈ slots.zip es, q.1.Takes t view q.2))

instance (name : String) (d : Decl) : Decidable (d.Reused p t view name) :=
  match d with
  | .placeholder m _ => inferInstanceAs (Decidable
      (∃ n ∈ p.nodes, n.placeholder? = some name ∧ t.seen view n.mark ≠ t.seen view m))
  | .builtinType _ | .builtinFunction _ | .var _ _ | .parameter _ _ | .function _ | .struct _
  | .atom _ _ | .fact _ _ | .rule _ _ => inferInstanceAs (Decidable False)

instance (slot e : Expr) : Decidable (slot.Binds t view e) :=
  match slot with
  | .int _ _ | .float _ _ | .string _ _ | .bool _ _ | .null _ | .reference _ | .constructor _ _
  | .array _ _ | .field _ _ _ | .index _ _ _ | .call _ _ _ | .not _ _ | .binary _ _ _ _
  | .assign _ _ _ | .paren _ _ | .query _ _ _ | .logic _ | .placeholder _ _ _ => by
    dsimp only [Expr.Binds]
    infer_instance

instance (e : Expr) : Decidable (e.Consistent p t view) :=
  match e with
  | .int _ _ | .float _ _ | .string _ _ | .bool _ _ | .null _ | .reference _ | .constructor _ _
  | .array _ _ | .field _ _ _ | .index _ _ _ | .call _ _ _ | .not _ _ | .binary _ _ _ _
  | .assign _ _ _ | .paren _ _ | .query _ _ _ | .placeholder _ _ _ | .logic (.atom _ _)
  | .logic (.call _ _ _) | .logic (.paren _ _) | .logic (.not _ _) | .logic (.binary _ _ _ _) => by
    dsimp only [Expr.Consistent]
    infer_instance

instance (st : Stmt) : Decidable (st.Consistent t view) :=
  match st with
  | .block _ | .expr _ _ | .var _ | .function _ | .struct _ | .cond _ _ _ _ | .loop _ _ _ | .ret _ _
  | .atom _ | .fact _ | .rule _ | .unify _ _ _ => by
    dsimp only [Stmt.Consistent]
    infer_instance

instance (n : Node) : Decidable (n.Consistent p t view) :=
  match n with
  | .expression e => inferInstanceAs (Decidable (e.Consistent p t view))
  | .statement st => inferInstanceAs (Decidable (st.Consistent t view))
  | .program _ | .type _ | .parameter _ | .field _ => inferInstanceAs (Decidable True)

instance : Decidable (p.Consistent t view) :=
  inferInstanceAs (Decidable (∀ n ∈ p.nodes, n.Consistent p t view))

end Decidability

end LogicScript
