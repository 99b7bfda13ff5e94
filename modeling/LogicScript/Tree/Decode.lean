import LogicScript.Tree.Basic
import LogicScript.Tree.DecodeError

/-! From a document to the tree of a program.

Every node is a mapping with its kind under `type` and, if its place is known, a mapping with
`line` and `column` under `span`. Nodes are numbered in the order in which they are met: a node
before its children, the children from left to right. -/
namespace LogicScript

inductive Node
  | program (p : Program)
  | statement (s : Stmt)
  | expression (e : Expr)
  | type (t : TypeExpr)
  | parameter (p : Parameter)
  | field (f : FieldDecl)
  deriving Inhabited

def Node.kind : Node → NodeKind
  | .program _ => .root
  | .statement s => s.ref.kind
  | .expression e => e.kind
  | .type t => t.ref.kind
  | .parameter _ => .parameter
  | .field _ => .fieldDeclaration

namespace Decode

/-- A decoder counts the nodes it has met. -/
abbrev Decoder := StateT Nat (Except DecodeError)

abbrev Entries := List (String × Document)

def fresh : Decoder Nat := modifyGet fun n => (n, n + 1)

/-- The value of a key; an absent one counts as null. -/
def value (entries : Entries) (key : String) : Document :=
  (Document.lookup key entries).getD .null

def text (entries : Entries) (key : String) : String :=
  match value entries key with
  | .text s => s
  | _ => ""

def flag (entries : Entries) (key : String) : Bool :=
  match value entries key with
  | .bool b => b
  | _ => false

/-- The items of a key, none if its value is not a list. -/
def items (entries : Entries) (key : String) : List Document :=
  match value entries key with
  | .list ds => ds
  | _ => []

def isNull (entries : Entries) (key : String) : Bool :=
  match value entries key with
  | .null => true
  | _ => false

/-- The integer that a double converts to. What becomes of a double beyond the range is left to the
processor; on amd64 it is the least integer. -/
def integerOfFloat (x : Binary64) : Int64 :=
  ((Binary64.toInt? x).bind Word64.signed?).getD Int64.minValue

/-- Whether a double has no fraction; an infinity has none. -/
def isWhole (x : Binary64) : Bool :=
  match Binary64.classify x with
  | .nan => false
  | .infinite _ => true
  | .finite .. => (Binary64.toInt? x).isSome

def integer (entries : Entries) (key : String) : Except DecodeError Int64 :=
  match value entries key with
  | .number (.int i) => .ok i
  | .number (.uint u) =>
    match Word64.signed? u.toNat with
    | some i => .ok i
    | none => .error (.overflow key u)
  | .number (.float x) => if isWhole x then .ok (integerOfFloat x) else .error (.fractional key x)
  | .number (.text s) => (readInt64 s).mapError .badNumber
  | .text s => (readInt64 s).mapError .badNumber
  | d => .error (.notInteger key d.typeName)

def float (entries : Entries) (key : String) : Except DecodeError Binary64 :=
  match value entries key with
  | .number (.float x) => .ok x
  | .number (.int i) => .ok (Binary64.ofInt i.toInt)
  | .number (.uint u) => .ok (Binary64.ofInt u.toNat)
  | .number (.text s) => (readFloat64 s).mapError .badNumber
  | .text s => (readFloat64 s).mapError .badNumber
  | d => .error (.notNumber key d.typeName)

def span (entries : Entries) : Except DecodeError Span :=
  match value entries "span" with
  | .mapping place => do
    let line ← integer place "line"
    let column ← integer place "column"
    return ⟨line, column⟩
  | _ => return {}

/-- The place of a field; one that cannot be read counts as unknown. -/
def lenientSpan (entries : Entries) : Span := (span entries).toOption.getD {}

/-- The entries with the kind that their place in the tree implies. -/
def withType (entries : Entries) (kind : NodeKind) : Entries :=
  if (Document.lookup "type" entries).isSome then entries
  else ("type", .text kind.name) :: entries

section Children

/-! The children of a node, given how a nested node is decoded. -/

variable (decode : Entries → Decoder Node)

def child (entries : Entries) (key : String) : Decoder Node :=
  match value entries key with
  | .mapping inner => decode inner
  | _ => throw (.missingChild (text entries "type") key)

def childOf {α : Type} (wanted : Category) (select : Node → Option α) (entries : Entries)
    (key : String) : Decoder α := do
  let node ← child decode entries key
  match select node with
  | some a => return a
  | none => throw (.wrongChild (text entries "type") key node.kind wanted)

def asExpression? : Node → Option Expr
  | .expression e => some e
  | _ => none

def asStatement? : Node → Option Stmt
  | .statement s => some s
  | _ => none

def asBlock? : Node → Option Block
  | .statement (.block b) => some b
  | _ => none

def asGoal? : Node → Option Goal
  | .expression (.logic g) => some g
  | _ => none

def asPredicateCall? : Node → Option PredicateCall
  | .expression (.logic (.call m functor arguments)) => some ⟨m, functor, arguments⟩
  | _ => none

def asReference? : Node → Option Reference
  | .expression (.reference r) => some r
  | _ => none

def asType? : Node → Option TypeExpr
  | .type t => some t
  | _ => none

def expression : Entries → String → Decoder Expr := childOf decode .expression asExpression?

def statement : Entries → String → Decoder Stmt := childOf decode .statement asStatement?

def block : Entries → String → Decoder Block := childOf decode .block asBlock?

def goal : Entries → String → Decoder Goal := childOf decode .logic asGoal?

def predicateCall : Entries → String → Decoder PredicateCall :=
  childOf decode .predicateCall asPredicateCall?

/-- A reference may also be written as a bare name. -/
def reference (entries : Entries) (key : String) : Decoder Reference :=
  match value entries key with
  | .text name => return ⟨⟨← fresh, {}⟩, name⟩
  | _ => childOf decode .reference asReference? entries key

/-- A type may also be written as a bare name. -/
def type (entries : Entries) (key : String) : Decoder TypeExpr :=
  match value entries key with
  | .text name => return .simple ⟨← fresh, {}⟩ name
  | _ => childOf decode .type asType? entries key

def optional {α : Type} (get : Entries → String → Decoder α) (entries : Entries) (key : String) :
    Decoder (Option α) :=
  if isNull entries key then return none else return some (← get entries key)

def statements : List Document → Decoder (List Stmt)
  | [] => return []
  | .mapping inner :: rest => do
    let node ← decode inner
    match node with
    | .statement s => return s :: (← statements rest)
    | _ => throw (.wrongEntry node.kind .statement)
  | d :: _ => throw (.badEntry .statements d.typeName)

def expressions : List Document → Decoder (List Expr)
  | [] => return []
  | .mapping inner :: rest => do
    let node ← decode inner
    match node with
    | .expression e => return e :: (← expressions rest)
    | _ => throw (.wrongEntry node.kind .expression)
  | d :: _ => throw (.badEntry .expressions d.typeName)

def parameters : List Document → Decoder (List Parameter)
  | [] => return []
  | .mapping inner :: rest => do
    let node ← decode (withType inner .parameter)
    match node with
    | .parameter p => return p :: (← parameters rest)
    | _ => throw (.wrongParameter node.kind)
  | d :: _ => throw (.badEntry .parameters d.typeName)

/-- The fields of a struct, whatever kind they claim to be. -/
def fields : List Document → Decoder (List FieldDecl)
  | [] => return []
  | .mapping inner :: rest => do
    let id ← fresh
    let t ← type decode inner "annotation"
    return ⟨⟨id, lenientSpan inner⟩, text inner "name", t⟩ :: (← fields rest)
  | d :: _ => throw (.badEntry .fields d.typeName)

/-- What a node of a kind is made of, up to its mark. -/
def body (entries : Entries) : NodeKind → Decoder (Mark → Node)
  | .root => do
    let list ← statements decode (items entries "statements")
    return fun m => .program ⟨m, list⟩
  | .block => do
    let list ← statements decode (items entries "statements")
    return fun m => .statement (.block ⟨m, list⟩)
  | .expressionStatement => do
    let e ← expression decode entries "expression"
    return fun m => .statement (.expr m e)
  | .varDeclaration => do
    let t ← optional (type decode) entries "annotation"
    let e ← optional (expression decode) entries "initializer"
    return fun m => .statement (.var ⟨m, text entries "name", t, e⟩)
  | .parameter => do
    let t ← type decode entries "annotation"
    return fun m => .parameter ⟨m, text entries "name", t⟩
  | .functionDeclaration => do
    let params ← parameters decode (items entries "parameters")
    let t ← optional (type decode) entries "returnType"
    let b ← block decode entries "body"
    return fun m => .statement (.function ⟨m, text entries "name", params, t, b⟩)
  | .fieldDeclaration => do
    let t ← type decode entries "annotation"
    return fun m => .field ⟨m, text entries "name", t⟩
  | .structDeclaration => do
    let list ← fields decode (items entries "fields")
    return fun m => .statement (.struct ⟨m, text entries "name", list⟩)
  | .ifStatement => do
    let e ← expression decode entries "condition"
    let yes ← statement decode entries "then"
    let no ← optional (statement decode) entries "else"
    return fun m => .statement (.cond m e yes no)
  | .whileStatement => do
    let e ← expression decode entries "condition"
    let s ← statement decode entries "body"
    return fun m => .statement (.loop m e s)
  | .returnStatement => do
    let e ← optional (expression decode) entries "expression"
    return fun m => .statement (.ret m e)
  | .intLiteral => do
    let i ← integer entries "value"
    return fun m => .expression (.int m i)
  | .floatLiteral => do
    let x ← float entries "value"
    return fun m => .expression (.float m x)
  | .stringLiteral => return fun m => .expression (.string m (text entries "value"))
  | .boolLiteral => return fun m => .expression (.bool m (flag entries "value"))
  | .nullLiteral => return fun m => .expression (.null m)
  | .reference => return fun m => .expression (.reference ⟨m, text entries "name"⟩)
  | .constructor => return fun m => .expression (.constructor m (text entries "name"))
  | .arrayLiteral => do
    let es ← expressions decode (items entries "elements")
    return fun m => .expression (.array m es)
  | .fieldAccess => do
    let e ← expression decode entries "stem"
    return fun m => .expression (.field m e (text entries "field"))
  | .arrayAccess => do
    let a ← expression decode entries "array"
    let i ← expression decode entries "index"
    return fun m => .expression (.index m a i)
  | .functionCall => do
    let e ← expression decode entries "callee"
    let es ← expressions decode (items entries "arguments")
    return fun m => .expression (.call m e es)
  | .unaryExpression => do
    let e ← expression decode entries "operand"
    if text entries "operator" ≠ "!" then
      throw (.unknownOperator "unary" (text entries "operator"))
    return fun m => .expression (.not m e)
  | .binaryExpression => do
    let l ← expression decode entries "left"
    let r ← expression decode entries "right"
    match BinaryOp.ofText? (text entries "operator") with
    | some op => return fun m => .expression (.binary m op l r)
    | none => throw (.unknownOperator "binary" (text entries "operator"))
  | .assignment => do
    let l ← expression decode entries "left"
    let r ← expression decode entries "right"
    return fun m => .expression (.assign m l r)
  | .parenthesized => do
    let e ← expression decode entries "expression"
    return fun m => .expression (.paren m e)
  | .simpleType => return fun m => .type (.simple m (text entries "name"))
  | .arrayType => do
    let t ← type decode entries "element"
    return fun m => .type (.array m t)
  | .atomLiteral => return fun m => .expression (.logic (.atom m (text entries "name")))
  | .atomDeclaration => return fun m => .statement (.atom ⟨m, text entries "name"⟩)
  | .factDeclaration => do
    let es ← expressions decode (items entries "arguments")
    return fun m => .statement (.fact ⟨m, text entries "functor", es⟩)
  | .ruleDeclaration => do
    let params ← parameters decode (items entries "parameters")
    let g ← goal decode entries "body"
    return fun m => .statement (.rule ⟨m, text entries "functor", params, g⟩)
  | .predicateCall => do
    let es ← expressions decode (items entries "arguments")
    return fun m => .expression (.logic (.call m (text entries "functor") es))
  | .unification => do
    let l ← predicateCall decode entries "left"
    let r ← predicateCall decode entries "right"
    return fun m => .statement (.unify m l r)
  | .unboundParameter => do
    let t ← type decode entries "annotation"
    return fun m => .expression (.placeholder m (text entries "name") t)
  | .logicParenthesized => do
    let g ← goal decode entries "expression"
    return fun m => .expression (.logic (.paren m g))
  | .logicNot => do
    let g ← goal decode entries "operand"
    return fun m => .expression (.logic (.not m g))
  | .logicBinary => do
    let l ← goal decode entries "left"
    let r ← goal decode entries "right"
    match LogicOp.ofText? (text entries "operator") with
    | some op => return fun m => .expression (.logic (.binary m op l r))
    | none => throw (.unknownOperator "logic" (text entries "operator"))
  | .boolQuery => do
    let target ← reference decode entries "target"
    let question ← expression decode entries "query"
    return fun m => .expression (.query m target question)
  | .builtinDeclaration => throw (.unknownType NodeKind.builtinDeclaration.name)

end Children

/-- Decodes the node of a mapping that is nested no deeper than the first argument says; a mapping
of depth zero does not exist. -/
def node : Nat → Entries → Decoder Node
  | 0, _ => throw .missingType
  | depth + 1, entries => do
    let id ← fresh
    let typeName := text entries "type"
    match NodeKind.ofName? typeName with
    | some kind =>
      let build ← body (node depth) entries kind
      return build ⟨id, ← span entries⟩
    | none => throw (if typeName = "" then .missingType else .unknownType typeName)

end Decode

def Program.decode (entries : List (String × Document)) : Except DecodeError Program := do
  let (node, _) ← (Decode.node (Document.mapping entries).depth entries).run 0
  match node with
  | .program p => return p
  | node => throw (.wrongRoot node.kind)

end LogicScript
