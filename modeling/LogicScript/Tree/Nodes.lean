import LogicScript.Tree.Decode

/-! The nodes of a program in order: a node before its children, the children from left to
right. -/
namespace LogicScript

namespace TypeExpr

def nodes : TypeExpr → List Node
  | t@(.simple _ _) => [.type t]
  | t@(.array _ element) => .type t :: element.nodes

end TypeExpr

def Parameter.nodes (p : Parameter) : List Node := .parameter p :: p.type.nodes

def FieldDecl.nodes (f : FieldDecl) : List Node := .field f :: f.type.nodes

def StructDecl.nodes (d : StructDecl) : List Node :=
  .statement (.struct d) :: d.fields.flatMap FieldDecl.nodes

def Reference.node (r : Reference) : Node := .expression (.reference r)

mutual

def Expr.nodes : Expr → List Node
  | e@(.array _ elements) => .expression e :: Expr.nodesOfList elements
  | e@(.field _ stem _) => .expression e :: stem.nodes
  | e@(.index _ array index) => .expression e :: (array.nodes ++ index.nodes)
  | e@(.call _ callee arguments) =>
    .expression e :: (callee.nodes ++ Expr.nodesOfList arguments)
  | e@(.not _ operand) => .expression e :: operand.nodes
  | e@(.binary _ _ left right) => .expression e :: (left.nodes ++ right.nodes)
  | e@(.assign _ target value) => .expression e :: (target.nodes ++ value.nodes)
  | e@(.paren _ inner) => .expression e :: inner.nodes
  | e@(.query _ target question) => .expression e :: target.node :: question.nodes
  | e@(.placeholder _ _ type) => .expression e :: type.nodes
  | .logic goal => goal.nodes
  | e => [.expression e]

def Expr.nodesOfList : List Expr → List Node
  | [] => []
  | e :: es => e.nodes ++ Expr.nodesOfList es

def Goal.nodes : Goal → List Node
  | g@(.atom _ _) => [.expression (.logic g)]
  | g@(.call _ _ arguments) => .expression (.logic g) :: Expr.nodesOfList arguments
  | g@(.paren _ inner) => .expression (.logic g) :: inner.nodes
  | g@(.not _ operand) => .expression (.logic g) :: operand.nodes
  | g@(.binary _ _ left right) => .expression (.logic g) :: (left.nodes ++ right.nodes)

end

def VarDecl.nodes (d : VarDecl) : List Node :=
  .statement (.var d) ::
    ((d.type.map TypeExpr.nodes).getD [] ++ (d.initializer.map Expr.nodes).getD [])

def FactDecl.nodes (d : FactDecl) : List Node :=
  .statement (.fact d) :: Expr.nodesOfList d.arguments

def RuleDecl.nodes (d : RuleDecl) : List Node :=
  .statement (.rule d) :: (d.parameters.flatMap Parameter.nodes ++ d.body.nodes)

mutual

def Stmt.nodes : Stmt → List Node
  | s@(.block ⟨_, body⟩) => .statement s :: Stmt.nodesOfList body
  | s@(.expr _ value) => .statement s :: value.nodes
  | .var d => d.nodes
  | s@(.function ⟨_, _, parameters, returnType, ⟨m, body⟩⟩) =>
    .statement s :: (parameters.flatMap Parameter.nodes ++ (returnType.map TypeExpr.nodes).getD []
      ++ .statement (.block ⟨m, body⟩) :: Stmt.nodesOfList body)
  | .struct d => d.nodes
  | s@(.cond _ condition yes none) => .statement s :: (condition.nodes ++ yes.nodes)
  | s@(.cond _ condition yes (some no)) =>
    .statement s :: (condition.nodes ++ yes.nodes ++ no.nodes)
  | s@(.loop _ condition body) => .statement s :: (condition.nodes ++ body.nodes)
  | s@(.ret _ none) => [.statement s]
  | s@(.ret _ (some value)) => .statement s :: value.nodes
  | s@(.atom _) => [.statement s]
  | .fact d => d.nodes
  | .rule d => d.nodes
  | s@(.unify _ left right) => .statement s :: (left.goal.nodes ++ right.goal.nodes)

def Stmt.nodesOfList : List Stmt → List Node
  | [] => []
  | s :: rest => s.nodes ++ Stmt.nodesOfList rest

end

def Program.nodes (p : Program) : List Node := .program p :: Stmt.nodesOfList p.statements

def Node.mark : Node → Mark
  | .program p => p.mark
  | .statement s => s.ref.mark
  | .expression e => e.mark
  | .type t => t.ref.mark
  | .parameter p => p.mark
  | .field f => f.mark

/-- The name that a node declares. -/
def Node.declaredName? : Node → Option String
  | .statement (.var d) => some d.name
  | .statement (.function d) => some d.name
  | .statement (.struct d) => some d.name
  | .statement (.atom d) => some d.name
  | .statement (.fact d) => some d.functor
  | .statement (.rule d) => some d.functor
  | .expression (.placeholder _ name _) => some name
  | .parameter p => some p.name
  | .field f => some f.name
  | _ => none

/-- The expression of a number. -/
def Program.expression? (p : Program) (id : Nat) : Option Expr :=
  p.nodes.findSome? fun
    | .expression e => if e.mark.id = id then some e else none
    | _ => none

end LogicScript
