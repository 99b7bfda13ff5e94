import LogicScript.Tree.Decode

/-! The document of a program.

A program is written as the mapping that decoding reads: every node with its kind under `type`, its
place under `span` if the place is known, and its children under the keys of its kind. An optional
child that is absent has no key. Some details are left to the style. -/
namespace LogicScript

/-- What a writer of documents may choose. -/
structure Style where
  /-- The text of a double. -/
  float : Binary64 → String
  /-- Whether a type name or the target of a query is written as the bare name. A bare name has no
  place, so this applies only to one whose place is not known. -/
  bare : Mark → Bool
  /-- Whether a parameter or a field leaves its kind to the list in which it stands. -/
  implied : Mark → Bool

namespace Style

open Decode (Entries)

def integer (i : Int64) : Document := .number (.text (toString i))

def place (s : Span) : Entries :=
  if s.known then [("span", .mapping [("line", integer s.line), ("column", integer s.column)])]
  else []

/-- The entries of a node, given those for its children. -/
def entries (kind : NodeKind) (m : Mark) (fields : Entries) : Entries :=
  ("type", .text kind.name) :: (place m.span ++ fields)

def node (kind : NodeKind) (m : Mark) (fields : Entries) : Document :=
  .mapping (entries kind m fields)

/-- The entry of a child that may be absent. -/
def optional (key : String) (child : Option Document) : Entries :=
  (child.map fun d => (key, d)).toList

variable (w : Style)

/-- A node in a list that holds nodes of one kind only. -/
def entry (kind : NodeKind) (m : Mark) (fields : Entries) : Document :=
  .mapping (if w.implied m then place m.span ++ fields else entries kind m fields)

/-- A node that is a name, in a place where the bare name is enough. -/
def named (kind : NodeKind) (m : Mark) (name : String) : Document :=
  if w.bare m ∧ ¬ m.span.known then .text name else node kind m [("name", .text name)]

def type : TypeExpr → Document
  | .simple m name => w.named .simpleType m name
  | .array m element => node .arrayType m [("element", type element)]

/-- The children of a node that declares a name with a type. -/
def annotated (name : String) (t : TypeExpr) : Entries :=
  [("name", .text name), ("annotation", w.type t)]

def parameter (p : Parameter) : Document := w.entry .parameter p.mark (w.annotated p.name p.type)

example : parameter ⟨toString ∘ Binary64.bits, fun _ => true, fun _ => true⟩
    ⟨⟨0, ⟨3, 9⟩⟩, "x", .simple ⟨1, {}⟩ "Int"⟩ =
    .mapping [("span", .mapping [("line", .number (.text "3")), ("column", .number (.text "9"))]),
      ("name", .text "x"), ("annotation", .text "Int")] := rfl

def field (f : FieldDecl) : Document := w.entry .fieldDeclaration f.mark (w.annotated f.name f.type)

mutual

def expression : Expr → Document
  | .int m i => node .intLiteral m [("value", integer i)]
  | .float m x => node .floatLiteral m [("value", .number (.text (w.float x)))]
  | .string m s => node .stringLiteral m [("value", .text s)]
  | .bool m b => node .boolLiteral m [("value", .bool b)]
  | .null m => node .nullLiteral m []
  | .reference ⟨m, name⟩ => node .reference m [("name", .text name)]
  | .constructor m name => node .constructor m [("name", .text name)]
  | .array m elements => node .arrayLiteral m [("elements", .list (expressions elements))]
  | .field m stem name =>
    node .fieldAccess m [("stem", expression stem), ("field", .text name)]
  | .index m array index =>
    node .arrayAccess m [("array", expression array), ("index", expression index)]
  | .call m callee arguments =>
    node .functionCall m
      [("callee", expression callee), ("arguments", .list (expressions arguments))]
  | .not m operand =>
    node .unaryExpression m [("operator", .text "!"), ("operand", expression operand)]
  | .binary m op left right =>
    node .binaryExpression m
      [("operator", .text op.text), ("left", expression left), ("right", expression right)]
  | .assign m target value =>
    node .assignment m [("left", expression target), ("right", expression value)]
  | .paren m inner => node .parenthesized m [("expression", expression inner)]
  | .query m target question =>
    node .boolQuery m
      [("target", w.named .reference target.mark target.name), ("query", expression question)]
  | .placeholder m name t => node .unboundParameter m (w.annotated name t)
  | .logic goal => logic goal

def expressions : List Expr → List Document
  | [] => []
  | e :: es => expression e :: expressions es

def logic : Goal → Document
  | .atom m name => node .atomLiteral m [("name", .text name)]
  | .call m functor arguments =>
    node .predicateCall m
      [("functor", .text functor), ("arguments", .list (expressions arguments))]
  | .paren m inner => node .logicParenthesized m [("expression", logic inner)]
  | .not m operand => node .logicNot m [("operand", logic operand)]
  | .binary m op left right =>
    node .logicBinary m
      [("operator", .text op.text), ("left", logic left), ("right", logic right)]

end

mutual

def statement : Stmt → Document
  | .block ⟨m, body⟩ => node .block m [("statements", .list (statements body))]
  | .expr m e => node .expressionStatement m [("expression", w.expression e)]
  | .var d =>
    node .varDeclaration d.mark (("name", .text d.name) ::
      (optional "annotation" (d.type.map w.type) ++
        optional "initializer" (d.initializer.map w.expression)))
  | .function ⟨m, name, parameters, returnType, ⟨bm, body⟩⟩ =>
    node .functionDeclaration m
      (("name", .text name) :: ("parameters", .list (parameters.map w.parameter)) ::
        ("body", node .block bm [("statements", .list (statements body))]) ::
        optional "returnType" (returnType.map w.type))
  | .struct d =>
    node .structDeclaration d.mark
      [("name", .text d.name), ("fields", .list (d.fields.map w.field))]
  | .cond m condition yes none =>
    node .ifStatement m [("condition", w.expression condition), ("then", statement yes)]
  | .cond m condition yes (some no) =>
    node .ifStatement m
      [("condition", w.expression condition), ("then", statement yes), ("else", statement no)]
  | .loop m condition body =>
    node .whileStatement m [("condition", w.expression condition), ("body", statement body)]
  | .ret m value => node .returnStatement m (optional "expression" (value.map w.expression))
  | .atom d => node .atomDeclaration d.mark [("name", .text d.name)]
  | .fact d =>
    node .factDeclaration d.mark
      [("functor", .text d.functor), ("arguments", .list (w.expressions d.arguments))]
  | .rule d =>
    node .ruleDeclaration d.mark
      [("functor", .text d.functor), ("parameters", .list (d.parameters.map w.parameter)),
       ("body", w.logic d.body)]
  | .unify m left right =>
    node .unification m [("left", w.logic left.goal), ("right", w.logic right.goal)]

def statements : List Stmt → List Document
  | [] => []
  | s :: rest => statement s :: statements rest

end

/-- The document of a whole program. -/
def program (p : Program) : Entries :=
  entries .root p.mark [("statements", .list (w.statements p.statements))]

end Style

end LogicScript
