import LogicScript.Attributes
import LogicScript.Analysis.Issue

/-! The analysis of a program: it opens the scopes, resolves the names and types the expressions.

The functions and structs of a statement list are declared before the list is walked, so that they
can be used above their declaration. Atoms and predicate calls are resolved once the whole program
has been walked, so that a rule may name a functor that is declared further down. A program is not
rejected for being ill typed; only names and types that mean nothing are reported. -/
namespace LogicScript
namespace Analysis

/-- The two forms whose name is resolved at the end. -/
inductive Form
  | atom
  | predicate
  deriving DecidableEq, Repr

/-- A name to be resolved once everything is declared. -/
structure Pending where
  form : Form
  mark : Mark
  name : String
  scope : ScopeId
  deriving Repr

structure State where
  table : Table := {}
  issues : List Issue := []
  pending : List Pending := []

abbrev Pass := StateM State

def onTable (f : Table → Table) : Pass Unit := modify fun s => { s with table := f s.table }

def setScope (m : Mark) (scope : ScopeId) : Pass Unit := onTable (·.setScope m.id scope)

def setDecl (m : Mark) (d : Decl) : Pass Unit := onTable (·.setDecl m.id d)

def setType (m : Mark) (t : Ty) : Pass Unit := onTable (·.setType m.id t)

def setBodyScope (m : Mark) (scope : ScopeId) : Pass Unit := onTable (·.setBodyScope m.id scope)

def report (m : Mark) (problem : Problem) : Pass Unit :=
  modify fun s => { s with issues := s.issues ++ [⟨m.span, problem⟩] }

def postpone (p : Pending) : Pass Unit := modify fun s => { s with pending := s.pending ++ [p] }

def find (scope : ScopeId) (name : String) : Pass (Option (Decl × ScopeId)) := do
  return (← get).table.scopes.find scope name

def findLocal (scope : ScopeId) (name : String) : Pass (Option Decl) := do
  return (← get).table.scopes.findLocal scope name

def openScope (node : NodeRef) (parent : Option ScopeId) : Pass ScopeId :=
  modifyGet fun s =>
    let (scope, scopes) := s.table.scopes.push (some node) parent
    (scope, { s with table := { s.table with scopes } })

def enter (scope : ScopeId) (name : String) (d : Decl) : Pass Bool :=
  modifyGet fun s =>
    let (fresh, scopes) := s.table.scopes.declare scope name d
    (fresh, { s with table := { s.table with scopes } })

/-- Declares a name for a node, which belongs to the scope even if the name was taken. -/
def declare (scope : ScopeId) (name : String) (d : Decl) (m : Mark) : Pass Unit := do
  unless ← enter scope name d do report m (.alreadyDeclared name)
  setScope m scope

def typed (m : Mark) (pass : Pass Ty) : Pass Ty := do
  let t ← pass
  setType m t
  return t

def resolveType : TypeExpr → ScopeId → Pass Ty
  | .simple m name, scope => do
    match ← find scope name with
    | some (.builtinType p, _) => return .prim p
    | some (.struct d, _) => return .struct d
    | _ =>
      report m (.unknownType name)
      return .void
  | .array _ element, scope => return .array (← resolveType element scope)

def resolveTypes : List TypeExpr → ScopeId → Pass (List Ty)
  | [], _ => return []
  | t :: ts, scope => do
    let first ← resolveType t scope
    return first :: (← resolveTypes ts scope)

/-- The type of a function. It is resolved where the function is first mentioned, and filed. -/
def functionType (m : Mark) (parameters : List Parameter) (returnType : Option TypeExpr)
    (scope : ScopeId) : Pass Ty := do
  match ((← get).table.attributes m.id).type with
  | some (.function params result) => return .function params result
  | _ =>
    let params ← resolveTypes (parameters.map (·.type)) scope
    let result ← match returnType with
      | none => pure Ty.void
      | some t => resolveType t scope
    setType m (.function params result)
    return .function params result

/-- The type that a use of a declared name has. -/
def declType (d : Decl) (owner : ScopeId) : Pass Ty :=
  match d with
  | .builtinFunction _ => return .function [.string] .string
  | .builtinType _ | .struct _ => return .type
  | .function f => functionType f.mark f.parameters f.returnType owner
  | .atom _ _ => return .bool
  | .var m _ | .parameter m _ | .placeholder m _ | .fact m _ | .rule m _ => do
    return (← get).table.typeOf m

def reference (r : Reference) (scope : ScopeId) : Pass Ty := typed r.mark do
  match ← find scope r.name with
  | none =>
    report r.mark (.unresolved r.name)
    return .void
  | some (d, owner) =>
    setDecl r.mark d
    setScope r.mark owner
    declType d owner

def constructorType (m : Mark) (name : String) (scope : ScopeId) : Pass Ty := do
  match ← find scope name with
  | some (.struct d, owner) =>
    setDecl m (.struct d)
    setScope m owner
    return .function (← resolveTypes (d.fields.map (·.type)) owner) (.struct d)
  | _ =>
    report m (.notStruct name)
    return .void

/-- The element type of an array literal: that of the first element that is not null, widened to
Float if a Float follows Ints. -/
def elementType (types : List Ty) : Ty :=
  types.foldl (fun element t =>
    if element.isNull then t
    else if element.isInt && t.isFloat then .float
    else element) .null

/-- The type of a field. Its written type is resolved where the access stands. -/
def fieldType (m : Mark) (stem : Ty) (name : String) (scope : ScopeId) : Pass Ty := do
  let unknown : Pass Ty := do
    report m (.unknownField name stem.name)
    return .void
  match stem with
  | .array _ => if name = "length" then return .int else unknown
  | .struct d =>
    match d.field? name with
    | some field => resolveType field.type scope
    | none => unknown
  | _ => unknown

def operatorType (op : BinaryOp) (left right : Ty) : Ty :=
  if !op.isArithmetic then .bool
  else if op == .add && (left.isString || right.isString) then .string
  else if left.isFloat || right.isFloat then .float
  else .int

/-- A placeholder is declared in the outermost scope, where its value will be written. Using the
name again for a placeholder is no conflict. -/
def placeholder (m : Mark) (name : String) (type : TypeExpr) (scope : ScopeId) : Pass Ty := do
  let root := (← get).table.scopes.root scope
  let t ← resolveType type scope
  match ← findLocal root name with
  | none => discard (enter root name (.placeholder m name))
  | some existing => unless existing.isPlaceholder do report m (.alreadyDeclaredInRoot name)
  setScope m root
  setDecl m (.placeholder m name)
  return t

mutual

def expression : Expr → ScopeId → Pass Ty
  | .int m _, _ => typed m (pure .int)
  | .float m _, _ => typed m (pure .float)
  | .string m _, _ => typed m (pure .string)
  | .bool m _, _ => typed m (pure .bool)
  | .null m, _ => typed m (pure .null)
  | .reference r, scope => reference r scope
  | .constructor m name, scope => typed m (constructorType m name scope)
  | .array m elements, scope => typed m do
    return .array (elementType (← expressions elements scope))
  | .field m stem name, scope => typed m do
    fieldType m (← expression stem scope) name scope
  | .index m array index, scope => typed m do
    let t ← expression array scope
    discard (expression index scope)
    match t with
    | .array element => return element
    | _ => return .void
  | .call m callee arguments, scope => typed m do
    let t ← expression callee scope
    discard (expressions arguments scope)
    match t with
    | .function _ result => return result
    | _ => return .void
  | .not m operand, scope => typed m do
    discard (expression operand scope)
    return .bool
  | .binary m op left right, scope => typed m do
    let l ← expression left scope
    let r ← expression right scope
    return operatorType op l r
  | .assign m target value, scope => typed m do
    discard (expression value scope)
    expression target scope
  | .paren m inner, scope => typed m (expression inner scope)
  | .query m target question, scope => typed m do
    discard (reference target scope)
    discard (expression question scope)
    return .bool
  | .placeholder m name type, scope => typed m (placeholder m name type scope)
  | .logic goal, scope => logic goal scope

def expressions : List Expr → ScopeId → Pass (List Ty)
  | [], _ => return []
  | e :: es, scope => do
    let t ← expression e scope
    return t :: (← expressions es scope)

/-- Walks a logic expression. An atom is an Atom as a value; every other form is a Bool. -/
def logic : Goal → ScopeId → Pass Ty
  | .atom m name, scope => typed m do
    postpone ⟨.atom, m, name, scope⟩
    return .atom
  | .call m functor arguments, scope => typed m do
    discard (expressions arguments scope)
    postpone ⟨.predicate, m, functor, scope⟩
    return .bool
  | .paren m inner, scope => typed m do
    discard (logic inner scope)
    return .bool
  | .not m operand, scope => typed m do
    discard (logic operand scope)
    return .bool
  | .binary m _ left right, scope => typed m do
    discard (logic left scope)
    discard (logic right scope)
    return .bool

end

/-- A fact or rule belongs to the functor that is already visible, or else declares it. -/
def predicate (d : Decl) (m : Mark) (functor : String) (params : List Ty) (scope : ScopeId) :
    Pass Unit := do
  setType m (.predicate functor params)
  let visible := match ← find scope functor with
    | some (existing, owner) => if existing.isPredicate then some (existing, owner) else none
    | none => none
  match visible with
  | some (existing, owner) =>
    setScope m owner
    setDecl m existing
  | none =>
    declare scope functor d m
    setDecl m d

def parameter (p : Parameter) (scope : ScopeId) : Pass Ty := do
  let t ← resolveType p.type scope
  declare scope p.name (.parameter p.mark p.name) p.mark
  setType p.mark t
  return t

def parameters : List Parameter → ScopeId → Pass (List Ty)
  | [], _ => return []
  | p :: ps, scope => do
    let t ← parameter p scope
    return t :: (← parameters ps scope)

def fields : List FieldDecl → ScopeId → Pass Unit
  | [], _ => return
  | f :: fs, scope => do
    setType f.mark (← resolveType f.type scope)
    fields fs scope

def varDecl (d : VarDecl) (scope : ScopeId) : Pass Unit := do
  let initial ← match d.initializer with
    | none => pure Ty.void
    | some e => expression e scope
  let t ← match d.type with
    | none => pure initial
    | some type => resolveType type scope
  declare scope d.name (.var d.mark d.name) d.mark
  setType d.mark t

/-- Declaring an atom again is no conflict. -/
def atom (d : AtomDecl) (scope : ScopeId) : Pass Unit := do
  match ← findLocal scope d.name with
  | none => discard (enter scope d.name (.atom d.mark d.name))
  | some existing => unless existing.isAtom do report d.mark (.alreadyDeclared d.name)
  setScope d.mark scope
  setType d.mark .bool

def fact (d : FactDecl) (scope : ScopeId) : Pass Unit := do
  let params ← expressions d.arguments scope
  predicate (.fact d.mark d.functor) d.mark d.functor params scope

def rule (d : RuleDecl) (scope : ScopeId) : Pass Unit := do
  let body ← openScope ⟨.ruleDeclaration, d.mark⟩ (some scope)
  setBodyScope d.mark body
  let params ← parameters d.parameters body
  predicate (.rule d.mark d.functor) d.mark d.functor params scope
  discard (logic d.body body)

def openBlock (m : Mark) (scope : ScopeId) : Pass ScopeId := do
  let inner ← openScope ⟨.block, m⟩ (some scope)
  setScope m inner
  return inner

/-- Declares the functions and structs of a statement list. -/
def hoist : List Stmt → ScopeId → Pass Unit
  | [], _ => return
  | .struct d :: rest, scope => do
    declare scope d.name (.struct d) d.mark
    hoist rest scope
  | .function d :: rest, scope => do
    declare scope d.name (.function d) d.mark
    hoist rest scope
  | _ :: rest, scope => hoist rest scope

/-- The type, the scope and the parameters of a function. -/
def signature (m : Mark) (params : List Parameter) (returnType : Option TypeExpr)
    (scope : ScopeId) : Pass ScopeId := do
  setType m (← functionType m params returnType scope)
  let body ← openScope ⟨.functionDeclaration, m⟩ (some scope)
  setBodyScope m body
  discard (parameters params body)
  return body

mutual

def statement : Stmt → ScopeId → Pass Unit
  | .block ⟨m, body⟩, scope => do
    let inner ← openBlock m scope
    hoist body inner
    statements body inner
  | .expr _ value, scope => discard (expression value scope)
  | .var d, scope => varDecl d scope
  | .function ⟨m, _, params, returnType, ⟨block, body⟩⟩, scope => do
    let outer ← signature m params returnType scope
    let inner ← openBlock block outer
    hoist body inner
    statements body inner
  | .struct d, scope => do
    setType d.mark .type
    fields d.fields scope
  | .cond _ condition yes none, scope => do
    discard (expression condition scope)
    statement yes scope
  | .cond _ condition yes (some no), scope => do
    discard (expression condition scope)
    statement yes scope
    statement no scope
  | .loop _ condition body, scope => do
    discard (expression condition scope)
    statement body scope
  | .ret _ none, _ => return
  | .ret _ (some value), scope => discard (expression value scope)
  | .atom d, scope => atom d scope
  | .fact d, scope => fact d scope
  | .rule d, scope => rule d scope
  | .unify _ left right, scope => do
    discard (logic left.goal scope)
    discard (logic right.goal scope)

def statements : List Stmt → ScopeId → Pass Unit
  | [], _ => return
  | s :: rest, scope => do
    statement s scope
    statements rest scope

end

/-- Resolves a postponed name, if it is declared as what it is used for. -/
def settle (p : Pending) : Pass Unit := do
  match ← find p.scope p.name with
  | none => return
  | some (d, owner) =>
    let fits := match p.form with
      | .atom => d.isAtom
      | .predicate => d.isPredicate
    if fits then
      setDecl p.mark d
      setScope p.mark owner

def settleAll : List Pending → Pass Unit
  | [] => return
  | p :: rest => do
    settle p
    settleAll rest

def printName : String := "print"

def builtins : List Decl := Primitive.named.map .builtinType ++ [.builtinFunction printName]

def enterAll (scope : ScopeId) : List Decl → Pass Unit
  | [] => return
  | d :: rest => do
    discard (enter scope d.name d)
    enterAll scope rest

def program (p : Program) : Pass Unit := do
  let root ← openScope ⟨.root, p.mark⟩ none
  setScope p.mark root
  enterAll root builtins
  hoist p.statements root
  statements p.statements root
  settleAll (← get).pending

end Analysis

/-- Attributes the nodes of a program, and lists the issues found. -/
def analyze (p : Program) : Table × List Issue :=
  let s := (Analysis.program p |>.run {}).2
  (s.table, s.issues)

end LogicScript
