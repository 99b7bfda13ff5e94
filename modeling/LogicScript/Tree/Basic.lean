import LogicScript.Number.Binary64
import LogicScript.Tree.Kind

/-! The tree of a program.

Statements and expressions are two families of nodes. Logic expressions are a family of their own,
embedded in the expressions. Every node carries a mark: the number that identifies it, by which
the analysis files what it finds out about the node, and its place in the source text. -/
namespace LogicScript

/-- A place in a source text; line 0, column 0 if it is not known. -/
structure Span where
  line : Int64 := 0
  column : Int64 := 0
  deriving DecidableEq, Repr, Inhabited

def Span.known (s : Span) : Bool := s != {}

/-- The identity of a node, with its place. -/
structure Mark where
  id : Nat := 0
  span : Span := {}
  deriving DecidableEq, Repr, Inhabited

/-- A node as a message refers to it. -/
structure NodeRef where
  kind : NodeKind
  mark : Mark
  deriving DecidableEq, Repr, Inhabited

inductive TypeExpr
  | simple (mark : Mark) (name : String)
  | array (mark : Mark) (element : TypeExpr)
  deriving Repr, DecidableEq, Inhabited

structure Parameter where
  mark : Mark
  name : String
  type : TypeExpr
  deriving Repr, DecidableEq, Inhabited

structure FieldDecl where
  mark : Mark
  name : String
  type : TypeExpr
  deriving Repr, DecidableEq, Inhabited

structure StructDecl where
  mark : Mark
  name : String
  fields : List FieldDecl
  deriving Repr, DecidableEq, Inhabited

def StructDecl.field? (d : StructDecl) (name : String) : Option FieldDecl :=
  d.fields.find? (·.name = name)

structure Reference where
  mark : Mark
  name : String
  deriving Repr, DecidableEq, Inhabited

mutual

inductive Expr
  | int (mark : Mark) (value : Int64)
  | float (mark : Mark) (value : Binary64)
  | string (mark : Mark) (value : String)
  | bool (mark : Mark) (value : Bool)
  | null (mark : Mark)
  | reference (ref : Reference)
  | constructor (mark : Mark) (name : String)
  | array (mark : Mark) (elements : List Expr)
  | field (mark : Mark) (stem : Expr) (name : String)
  | index (mark : Mark) (array : Expr) (index : Expr)
  | call (mark : Mark) (callee : Expr) (arguments : List Expr)
  | not (mark : Mark) (operand : Expr)
  | binary (mark : Mark) (op : BinaryOp) (left right : Expr)
  | assign (mark : Mark) (target value : Expr)
  | paren (mark : Mark) (inner : Expr)
  | query (mark : Mark) (target : Reference) (question : Expr)
  | placeholder (mark : Mark) (name : String) (type : TypeExpr)
  | logic (goal : Goal)

/-- A logic expression: what a rule body or a query asks. -/
inductive Goal
  | atom (mark : Mark) (name : String)
  | call (mark : Mark) (functor : String) (arguments : List Expr)
  | paren (mark : Mark) (inner : Goal)
  | not (mark : Mark) (operand : Goal)
  | binary (mark : Mark) (op : LogicOp) (left right : Goal)

end

instance : Inhabited Expr := ⟨.null {}⟩
instance : Inhabited Goal := ⟨.atom {} ""⟩

/-- A functor with arguments, as it stands on one side of a unification. -/
structure PredicateCall where
  mark : Mark
  functor : String
  arguments : List Expr
  deriving Inhabited

def PredicateCall.goal (c : PredicateCall) : Goal := .call c.mark c.functor c.arguments

structure VarDecl where
  mark : Mark
  name : String
  type : Option TypeExpr
  initializer : Option Expr
  deriving Inhabited

structure AtomDecl where
  mark : Mark
  name : String
  deriving Repr, DecidableEq, Inhabited

structure FactDecl where
  mark : Mark
  functor : String
  arguments : List Expr
  deriving Inhabited

structure RuleDecl where
  mark : Mark
  functor : String
  parameters : List Parameter
  body : Goal
  deriving Inhabited

mutual

inductive Stmt
  | block (block : Block)
  | expr (mark : Mark) (value : Expr)
  | var (decl : VarDecl)
  | function (decl : FunctionDecl)
  | struct (decl : StructDecl)
  | cond (mark : Mark) (condition : Expr) (yes : Stmt) (no : Option Stmt)
  | loop (mark : Mark) (condition : Expr) (body : Stmt)
  | ret (mark : Mark) (value : Option Expr)
  | atom (decl : AtomDecl)
  | fact (decl : FactDecl)
  | rule (decl : RuleDecl)
  | unify (mark : Mark) (left right : PredicateCall)

structure Block where
  mark : Mark
  statements : List Stmt

structure FunctionDecl where
  mark : Mark
  name : String
  parameters : List Parameter
  returnType : Option TypeExpr
  body : Block

end

instance : Inhabited Block := ⟨⟨{}, []⟩⟩
instance : Inhabited Stmt := ⟨.block default⟩
instance : Inhabited FunctionDecl := ⟨⟨{}, "", [], none, default⟩⟩

structure Program where
  mark : Mark
  statements : List Stmt
  deriving Inhabited

namespace TypeExpr

def ref : TypeExpr → NodeRef
  | .simple m _ => ⟨.simpleType, m⟩
  | .array m _ => ⟨.arrayType, m⟩

end TypeExpr

namespace Goal

def ref : Goal → NodeRef
  | .atom m _ => ⟨.atomLiteral, m⟩
  | .call m _ _ => ⟨.predicateCall, m⟩
  | .paren m _ => ⟨.logicParenthesized, m⟩
  | .not m _ => ⟨.logicNot, m⟩
  | .binary m _ _ _ => ⟨.logicBinary, m⟩

def mark (g : Goal) : Mark := g.ref.mark

/-- Induction over logic expressions; the arguments of predicates are taken as they are. -/
@[induction_eliminator] theorem induction {motive : Goal → Prop}
    (atom : ∀ mark name, motive (.atom mark name))
    (call : ∀ mark functor arguments, motive (.call mark functor arguments))
    (paren : ∀ mark inner, motive inner → motive (.paren mark inner))
    (not : ∀ mark operand, motive operand → motive (.not mark operand))
    (binary : ∀ mark op left right, motive left → motive right →
      motive (.binary mark op left right)) : ∀ goal, motive goal
  | .atom mark name => atom mark name
  | .call mark functor arguments => call mark functor arguments
  | .paren mark inner => paren mark inner (induction atom call paren not binary inner)
  | .not mark operand => not mark operand (induction atom call paren not binary operand)
  | .binary mark op left right => binary mark op left right
    (induction atom call paren not binary left) (induction atom call paren not binary right)

end Goal

namespace Expr

def ref : Expr → NodeRef
  | .int m _ => ⟨.intLiteral, m⟩
  | .float m _ => ⟨.floatLiteral, m⟩
  | .string m _ => ⟨.stringLiteral, m⟩
  | .bool m _ => ⟨.boolLiteral, m⟩
  | .null m => ⟨.nullLiteral, m⟩
  | .reference r => ⟨.reference, r.mark⟩
  | .constructor m _ => ⟨.constructor, m⟩
  | .array m _ => ⟨.arrayLiteral, m⟩
  | .field m _ _ => ⟨.fieldAccess, m⟩
  | .index m _ _ => ⟨.arrayAccess, m⟩
  | .call m _ _ => ⟨.functionCall, m⟩
  | .not m _ => ⟨.unaryExpression, m⟩
  | .binary m _ _ _ => ⟨.binaryExpression, m⟩
  | .assign m _ _ => ⟨.assignment, m⟩
  | .paren m _ => ⟨.parenthesized, m⟩
  | .query m _ _ => ⟨.boolQuery, m⟩
  | .placeholder m _ _ => ⟨.unboundParameter, m⟩
  | .logic g => g.ref

def mark (e : Expr) : Mark := e.ref.mark

def kind (e : Expr) : NodeKind := e.ref.kind

/-- The expression inside any number of parentheses. -/
def unwrap : Expr → Expr
  | .paren _ inner => inner.unwrap
  | e => e

end Expr

namespace Stmt

def ref : Stmt → NodeRef
  | .block b => ⟨.block, b.mark⟩
  | .expr m _ => ⟨.expressionStatement, m⟩
  | .var d => ⟨.varDeclaration, d.mark⟩
  | .function d => ⟨.functionDeclaration, d.mark⟩
  | .struct d => ⟨.structDeclaration, d.mark⟩
  | .cond m _ _ _ => ⟨.ifStatement, m⟩
  | .loop m _ _ => ⟨.whileStatement, m⟩
  | .ret m _ => ⟨.returnStatement, m⟩
  | .atom d => ⟨.atomDeclaration, d.mark⟩
  | .fact d => ⟨.factDeclaration, d.mark⟩
  | .rule d => ⟨.ruleDeclaration, d.mark⟩
  | .unify m _ _ => ⟨.unification, m⟩

end Stmt

end LogicScript
