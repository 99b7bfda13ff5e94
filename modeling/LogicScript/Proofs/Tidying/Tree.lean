import LogicScript.Proofs.Parts

/-! Programs from which something is taken out that makes no difference.

What is taken out are some of the parentheses around expressions that are used as values and, if so
wanted, the statements behind a return. Everything else stays, with its marks. -/
namespace LogicScript

/-- What is taken out of a program. -/
structure Tidying where
  /-- Expressions in parentheses that lose them, where they are used as values. -/
  drops : Expr → Bool
  /-- Whether the statements behind a return are cut off. -/
  cuts : Bool

def Stmt.isReturn : Stmt → Bool
  | .ret _ _ => true
  | _ => false

namespace Tidying

mutual

/-- An expression without what is taken out. The flag tells whether it is used as a value; then the
parentheses around it may be dropped. The target of an assignment, the question of a query and the
arguments of a unification are not used as values. -/
def expr (k : Tidying) : Bool → Expr → Expr
  | _, .array m elements => .array m (k.exprs true elements)
  | _, .field m stem name => .field m (k.expr true stem) name
  | _, .index m array index => .index m (k.expr true array) (k.expr true index)
  | _, .call m callee arguments => .call m (k.expr true callee) (k.exprs true arguments)
  | _, .not m operand => .not m (k.expr true operand)
  | _, .binary m op left right => .binary m op (k.expr true left) (k.expr true right)
  | _, .assign m target value => .assign m (k.expr false target) (k.expr true value)
  | value, .paren m inner =>
    if value && k.drops (.paren m inner) then k.expr true inner else .paren m (k.expr true inner)
  | _, .query m target question => .query m target (k.expr false question)
  | _, .logic goal => .logic (k.goal goal)
  | _, .int m i => .int m i
  | _, .float m x => .float m x
  | _, .string m s => .string m s
  | _, .bool m b => .bool m b
  | _, .null m => .null m
  | _, .reference r => .reference r
  | _, .constructor m name => .constructor m name
  | _, .placeholder m name type => .placeholder m name type

def exprs (k : Tidying) : Bool → List Expr → List Expr
  | _, [] => []
  | value, e :: es => k.expr value e :: k.exprs value es

def goal (k : Tidying) : Goal → Goal
  | .atom m name => .atom m name
  | .call m functor arguments => .call m functor (k.exprs true arguments)
  | .paren m inner => .paren m (k.goal inner)
  | .not m operand => .not m (k.goal operand)
  | .binary m op left right => .binary m op (k.goal left) (k.goal right)

end

/-- A side of a unification. -/
def call (k : Tidying) (c : PredicateCall) : PredicateCall :=
  { c with arguments := k.exprs false c.arguments }

def var (k : Tidying) (d : VarDecl) : VarDecl :=
  { d with initializer := d.initializer.map (k.expr true) }

def fact (k : Tidying) (d : FactDecl) : FactDecl := { d with arguments := k.exprs true d.arguments }

def rule (k : Tidying) (d : RuleDecl) : RuleDecl := { d with body := k.goal d.body }

mutual

def stmt (k : Tidying) : Stmt → Stmt
  | .block ⟨m, body⟩ => .block ⟨m, k.stmts body⟩
  | .expr m value => .expr m (k.expr true value)
  | .var d => .var (k.var d)
  | .function ⟨m, name, parameters, returnType, ⟨block, body⟩⟩ =>
    .function ⟨m, name, parameters, returnType, ⟨block, k.stmts body⟩⟩
  | .struct d => .struct d
  | .cond m condition yes none => .cond m (k.expr true condition) (k.stmt yes) none
  | .cond m condition yes (some no) =>
    .cond m (k.expr true condition) (k.stmt yes) (some (k.stmt no))
  | .loop m condition body => .loop m (k.expr true condition) (k.stmt body)
  | .ret m value => .ret m (value.map (k.expr true))
  | .atom d => .atom d
  | .fact d => .fact (k.fact d)
  | .rule d => .rule (k.rule d)
  | .unify m left right => .unify m (k.call left) (k.call right)

/-- The statements of a list, up to the first return if the others are cut off. -/
def stmts (k : Tidying) : List Stmt → List Stmt
  | [] => []
  | s :: rest => k.stmt s :: if k.cuts && s.isReturn then [] else k.stmts rest

end

def block (k : Tidying) (b : Block) : Block := ⟨b.mark, k.stmts b.statements⟩

def function (k : Tidying) (d : FunctionDecl) : FunctionDecl := { d with body := k.block d.body }

def program (k : Tidying) (p : Program) : Program := { p with statements := k.stmts p.statements }

variable {k : Tidying} {value : Bool} {e : Expr} {s : Stmt}

@[simp] theorem stmt_block (b : Block) : k.stmt (.block b) = .block (k.block b) := by
  obtain ⟨m, body⟩ := b
  rw [stmt]
  rfl

@[simp] theorem stmt_function (d : FunctionDecl) :
    k.stmt (.function d) = .function (k.function d) := by
  obtain ⟨m, name, parameters, returnType, ⟨block, body⟩⟩ := d
  rw [stmt]
  rfl

theorem exprs_eq_map (es : List Expr) : k.exprs value es = es.map (k.expr value) := by
  induction es with
  | nil => rw [exprs, List.map_nil]
  | cons e es ih => rw [exprs, List.map_cons, ih]

@[simp] theorem length_exprs (es : List Expr) : (k.exprs value es).length = es.length := by
  rw [exprs_eq_map, List.length_map]

theorem stmt_cond (m : Mark) (condition : Expr) (yes : Stmt) (no : Option Stmt) :
    k.stmt (.cond m condition yes no) =
      .cond m (k.expr true condition) (k.stmt yes) (no.map k.stmt) := by
  cases no <;> rw [stmt] <;> rfl

/-- An expression loses its parentheses, or it does not matter whether it is used as a value. -/
theorem expr_cases (k : Tidying) (value : Bool) (e : Expr) :
    k.expr value e = k.expr false e ∨ ∃ m inner, e = .paren m inner ∧ k.drops e = true ∧
      k.expr value e = k.expr true inner := by
  cases e with
  | paren m inner =>
    rw [expr, expr]
    cases h : value && k.drops (.paren m inner) with
    | false => exact .inl (by simp)
    | true => exact .inr ⟨m, inner, rfl, (Bool.and_eq_true_iff.mp h).2, rfl⟩
  | _ => exact .inl (by rw [expr, expr])

@[simp] theorem ref_expr_false (e : Expr) : (k.expr false e).ref = e.ref := by
  cases e with
  | logic goal => cases goal <;> simp only [expr, Tidying.goal, Expr.ref, Goal.ref]
  | _ => simp [expr, Expr.ref]

@[simp] theorem mark_expr_false (e : Expr) : (k.expr false e).mark = e.mark := by
  rw [Expr.mark, ref_expr_false, Expr.mark]

@[simp] theorem ref_stmt (s : Stmt) : (k.stmt s).ref = s.ref := by
  cases s with
  | cond m condition yes no => rw [stmt_cond]; rfl
  | block b => rw [stmt_block]; rfl
  | function d => rw [stmt_function]; rfl
  | _ => simp only [stmt, Stmt.ref, var, fact, rule]

theorem expr_ne_placeholder (h : ∀ m name type, e ≠ .placeholder m name type) :
    ∀ m name type, k.expr false e ≠ .placeholder m name type := by
  intro m name type heq
  cases e <;> simp only [expr] at heq <;> first | exact h _ _ _ rfl | cases heq

/-- Whatever stands in parentheses is of the same sort as before. -/
theorem unwrap_expr (e : Expr) (value : Bool) :
    (k.expr value e).unwrap = k.expr false e.unwrap := by
  match e with
  | .paren m inner =>
    have ih := unwrap_expr inner true
    rw [expr, Expr.unwrap]
    split
    · exact ih
    · rw [Expr.unwrap, ih]
  | .int _ _ | .float _ _ | .string _ _ | .bool _ _ | .null _ | .reference _ | .constructor _ _
  | .array _ _ | .field _ _ _ | .index _ _ _ | .call _ _ _ | .not _ _ | .binary _ _ _ _
  | .assign _ _ _ | .query _ _ _ | .placeholder _ _ _ | .logic _ => simp only [expr, Expr.unwrap]

end Tidying

end LogicScript
