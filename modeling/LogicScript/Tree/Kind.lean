/-! The kinds of node a program is made of, and the operators. -/
namespace LogicScript

/-- The kind of a node. The builtin declaration stands in no program: it declares the names that
exist before a program runs. -/
inductive NodeKind
  | root | block | varDeclaration | functionDeclaration | parameter | structDeclaration
  | fieldDeclaration | expressionStatement | ifStatement | whileStatement | returnStatement
  | intLiteral | floatLiteral | stringLiteral | boolLiteral | nullLiteral | reference
  | constructor | arrayLiteral | fieldAccess | arrayAccess | functionCall | unaryExpression
  | binaryExpression | assignment | parenthesized | simpleType | arrayType | atomLiteral
  | atomDeclaration | factDeclaration | ruleDeclaration | unification | unboundParameter
  | predicateCall | logicParenthesized | logicNot | logicBinary | boolQuery | builtinDeclaration
  deriving DecidableEq, Repr, Inhabited

namespace NodeKind

/-- The name of the kind, as a document and a message write it. -/
def name : NodeKind → String
  | .root => "Root"
  | .block => "Block"
  | .varDeclaration => "VarDeclaration"
  | .functionDeclaration => "FunctionDeclaration"
  | .parameter => "Parameter"
  | .structDeclaration => "StructDeclaration"
  | .fieldDeclaration => "FieldDeclaration"
  | .expressionStatement => "ExpressionStatement"
  | .ifStatement => "IfStatement"
  | .whileStatement => "WhileStatement"
  | .returnStatement => "ReturnStatement"
  | .intLiteral => "IntLiteral"
  | .floatLiteral => "FloatLiteral"
  | .stringLiteral => "StringLiteral"
  | .boolLiteral => "BoolLiteral"
  | .nullLiteral => "NullLiteral"
  | .reference => "Reference"
  | .constructor => "Constructor"
  | .arrayLiteral => "ArrayLiteral"
  | .fieldAccess => "FieldAccess"
  | .arrayAccess => "ArrayAccess"
  | .functionCall => "FunctionCall"
  | .unaryExpression => "UnaryExpression"
  | .binaryExpression => "BinaryExpression"
  | .assignment => "Assignment"
  | .parenthesized => "Parenthesized"
  | .simpleType => "SimpleType"
  | .arrayType => "ArrayType"
  | .atomLiteral => "AtomLiteral"
  | .atomDeclaration => "AtomDeclaration"
  | .factDeclaration => "FactDeclaration"
  | .ruleDeclaration => "RuleDeclaration"
  | .unification => "Unification"
  | .unboundParameter => "UnboundParameter"
  | .predicateCall => "PredicateCall"
  | .logicParenthesized => "LogicParenthesized"
  | .logicNot => "LogicNot"
  | .logicBinary => "LogicBinary"
  | .boolQuery => "BoolQuery"
  | .builtinDeclaration => "BuiltinDeclaration"

def all : List NodeKind :=
  [.root, .block, .varDeclaration, .functionDeclaration, .parameter, .structDeclaration,
   .fieldDeclaration, .expressionStatement, .ifStatement, .whileStatement, .returnStatement,
   .intLiteral, .floatLiteral, .stringLiteral, .boolLiteral, .nullLiteral, .reference,
   .constructor, .arrayLiteral, .fieldAccess, .arrayAccess, .functionCall, .unaryExpression,
   .binaryExpression, .assignment, .parenthesized, .simpleType, .arrayType, .atomLiteral,
   .atomDeclaration, .factDeclaration, .ruleDeclaration, .unification, .unboundParameter,
   .predicateCall, .logicParenthesized, .logicNot, .logicBinary, .boolQuery,
   .builtinDeclaration]

def ofName? (s : String) : Option NodeKind := all.find? (·.name = s)

theorem mem_all (k : NodeKind) : k ∈ all := by cases k <;> decide

theorem ofName?_name (k : NodeKind) : ofName? k.name = some k := by cases k <;> decide

end NodeKind

/-- The operators between two values. -/
inductive BinaryOp
  | add | subtract | multiply | divide | remain
  | equal | notEqual
  | less | lessEq | greater | greatEq
  | and | or
  deriving DecidableEq, Repr, Inhabited

namespace BinaryOp

def text : BinaryOp → String
  | .add => "+" | .subtract => "-" | .multiply => "*" | .divide => "/" | .remain => "%"
  | .equal => "==" | .notEqual => "!="
  | .less => "<" | .lessEq => "<=" | .greater => ">" | .greatEq => ">="
  | .and => "&&" | .or => "||"

def all : List BinaryOp :=
  [.add, .subtract, .multiply, .divide, .remain, .equal, .notEqual, .less, .lessEq, .greater,
   .greatEq, .and, .or]

def ofText? (s : String) : Option BinaryOp := all.find? (·.text = s)

theorem ofText?_text (op : BinaryOp) : ofText? op.text = some op := by cases op <;> decide

def isArithmetic : BinaryOp → Bool
  | .add | .subtract | .multiply | .divide | .remain => true
  | _ => false

def isComparison : BinaryOp → Bool
  | .less | .lessEq | .greater | .greatEq => true
  | _ => false

end BinaryOp

/-- The connectives of logic expressions. -/
inductive LogicOp
  | and | or
  deriving DecidableEq, Repr, Inhabited

namespace LogicOp

def text : LogicOp → String
  | .and => "&&"
  | .or => "||"

def ofText? (s : String) : Option LogicOp :=
  if s = "&&" then some .and else if s = "||" then some .or else none

def apply : LogicOp → Bool → Bool → Bool
  | .and, a, b => a && b
  | .or, a, b => a || b

end LogicOp

end LogicScript
