import LogicScript.Tree.Basic

/-! The problems that the analysis of a program reports. -/
namespace LogicScript

inductive Problem
  | alreadyDeclared (name : String)
  | alreadyDeclaredInRoot (name : String)
  | unknownType (name : String)
  | unresolved (name : String)
  | notStruct (name : String)
  | unknownField (field : String) (type : String)
  deriving DecidableEq, Repr

def Problem.message : Problem → String
  | .alreadyDeclared name => name ++ " is already declared in this scope"
  | .alreadyDeclaredInRoot name => name ++ " is already declared in the root scope"
  | .unknownType name => "unknown type " ++ name
  | .unresolved name => "could not resolve: " ++ name
  | .notStruct name => name ++ " is not a struct"
  | .unknownField field type => "unknown field " ++ field ++ " on " ++ type

/-- A problem with the place of the node that has it. -/
structure Issue where
  span : Span
  problem : Problem
  deriving DecidableEq, Repr

/-- A known place goes in front of the problem. -/
def Issue.text (i : Issue) : String :=
  if i.span.known then
    "line " ++ toString i.span.line ++ ", column " ++ toString i.span.column ++ ": "
      ++ i.problem.message
  else i.problem.message

def Issue.report (issues : List Issue) : String :=
  "semantic analysis failed:" ++ String.join (issues.map fun i => "\n- " ++ i.text)

end LogicScript
