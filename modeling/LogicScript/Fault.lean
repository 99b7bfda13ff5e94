import LogicScript.Text.Quoted
import LogicScript.Value

/-! Faults: the failures of a running program. -/
namespace LogicScript

inductive FaultKind
  | nullReference | indexOutOfRange | arithmetic | arityMismatch | unificationMismatch
  | ambiguousUnification | typeMismatch | conflictingPredicateKind | duplicateFact
  | nonGroundFact | invalidQuery | evaluation
  | other (name : String)
  deriving DecidableEq, Repr, Inhabited

namespace FaultKind

def name : FaultKind → String
  | .nullReference => "NullReference"
  | .indexOutOfRange => "IndexOutOfRange"
  | .arithmetic => "ArithmeticFault"
  | .arityMismatch => "ArityMismatch"
  | .unificationMismatch => "UnificationMismatch"
  | .ambiguousUnification => "AmbiguousUnification"
  | .typeMismatch => "TypeMismatch"
  | .conflictingPredicateKind => "ConflictingPredicateKind"
  | .duplicateFact => "DuplicateFactError"
  | .nonGroundFact => "NonGroundFact"
  | .invalidQuery => "InvalidQuery"
  | .evaluation => "EvaluationFault"
  | .other name => name

/-- The kinds with a name of their own. -/
def named : List FaultKind :=
  [.nullReference, .indexOutOfRange, .arithmetic, .arityMismatch, .unificationMismatch,
   .ambiguousUnification, .typeMismatch, .conflictingPredicateKind, .duplicateFact,
   .nonGroundFact, .invalidQuery, .evaluation]

def ofName (s : String) : FaultKind := (named.find? (·.name = s)).getD (.other s)

@[simp] theorem name_ofName (s : String) : (ofName s).name = s := by
  unfold ofName
  cases h : named.find? (·.name = s) with
  | none => rfl
  | some k => simpa using List.find?_some h

end FaultKind

inductive Cause
  | noFrame (scope : String)
  | noFrameToRead (scope : String) (name : String)
  | noFrameToWrite (scope : String) (name : String)
  | readBeforeAssignment (name : String)
  | rootWithoutScope
  | nodeWithoutScope (kind : NodeKind)
  | functionWithoutScope (name : String)
  | ruleWithoutScope (functor : String)
  | unresolvedReference (name : String)
  | notStruct (name : String)
  | notAssignable (what : String)
  | strayPlaceholder (name : String)
  | depthExceeded
  | voidInitializer (name : String)
  | conditionNotBool (found : ValueKind)
  | negationOf (found : ValueKind)
  | operandNotBool (found : ValueKind)
  | notNumeric (op : BinaryOp) (left right : ValueKind)
  | divisionByZero
  | remainderByZero
  | callOfNull
  | notCallable (found : ValueKind)
  | wrongArity (name : String) (wanted got : Nat)
  | fieldOfNull (field : String)
  | noField (found : ValueKind) (field : String)
  | indexOfNull
  | notIndexable (found : ValueKind)
  | indexNotInt (found : ValueKind)
  | indexOutOfRange (index : Int64) (length : Nat)
  | assignmentToFieldOfNull (field : String)
  | noAssignableField (found : ValueKind) (field : String)
  | definedByRule (functor : String)
  | definedByFacts (functor : String)
  | duplicateFact (functor : String)
  | placeholderInFact (functor : String) (name : String)
  | voidInFact (functor : String)
  | notAQuery (found : NodeKind)
  | queryTarget (name : String) (type : String)
  | functorsDiffer (left right : String)
  | aritiesDiffer (functor : String) (left right : Nat)
  | bothUnbound (left right : String)
  | incomparable (left right : String)
  | valuesDiffer (left right : String)
  | notBindable (name : String) (wanted : String) (found : String)
  | foreign (text : String)
  | stated (kind : FaultKind) (message : String)
  deriving Repr

namespace Cause

def kind : Cause → FaultKind
  | .noFrame _ | .noFrameToRead _ _ | .noFrameToWrite _ _ | .readBeforeAssignment _
  | .rootWithoutScope | .nodeWithoutScope _ | .functionWithoutScope _ | .ruleWithoutScope _
  | .unresolvedReference _ | .notStruct _ | .notAssignable _ | .strayPlaceholder _
  | .depthExceeded | .foreign _ => .evaluation
  | .voidInitializer _ | .conditionNotBool _ | .negationOf _ | .operandNotBool _
  | .notNumeric _ _ _ | .notCallable _ | .noField _ _ | .notIndexable _ | .indexNotInt _
  | .noAssignableField _ _ | .queryTarget _ _ | .notBindable _ _ _ => .typeMismatch
  | .divisionByZero | .remainderByZero => .arithmetic
  | .callOfNull | .fieldOfNull _ | .indexOfNull | .assignmentToFieldOfNull _ => .nullReference
  | .wrongArity _ _ _ | .aritiesDiffer _ _ _ => .arityMismatch
  | .indexOutOfRange _ _ => .indexOutOfRange
  | .definedByRule _ | .definedByFacts _ => .conflictingPredicateKind
  | .duplicateFact _ => .duplicateFact
  | .placeholderInFact _ _ | .voidInFact _ => .nonGroundFact
  | .notAQuery _ => .invalidQuery
  | .functorsDiffer _ _ | .incomparable _ _ | .valuesDiffer _ _ => .unificationMismatch
  | .bothUnbound _ _ => .ambiguousUnification
  | .stated kind _ => kind

def message : Cause → String
  | .noFrame scope => "no active frame for " ++ scope
  | .noFrameToRead scope name => "no active frame for " ++ scope ++ " while reading " ++ name
  | .noFrameToWrite scope name => "no active frame for " ++ scope ++ " while writing " ++ name
  | .readBeforeAssignment name => name ++ " read before assignment"
  | .rootWithoutScope => "root has no scope attribute"
  | .nodeWithoutScope kind => kind.name ++ " has no scope attribute"
  | .functionWithoutScope name => "function " ++ name ++ " has no body scope"
  | .ruleWithoutScope functor => "rule " ++ functor ++ " has no body scope"
  | .unresolvedReference name => "unresolved reference " ++ name
  | .notStruct name => name ++ " does not name a struct"
  | .notAssignable what => "cannot assign to " ++ what
  | .strayPlaceholder name => "unbound parameter " ++ name ++ " can only appear in a unification"
  | .depthExceeded => "logic resolution exceeded maximum depth"
  | .voidInitializer name => name ++ " initialized with a call that returned no value"
  | .conditionNotBool found => "condition must be a Bool, got " ++ found.name
  | .negationOf found => "! requires a Bool, got " ++ found.name
  | .operandNotBool found => "expected a Bool operand, got " ++ found.name
  | .notNumeric op left right =>
    op.text ++ " requires numeric operands, got " ++ left.name ++ " and " ++ right.name
  | .divisionByZero => "integer division by zero"
  | .remainderByZero => "integer remainder by zero"
  | .callOfNull => "calling a null function"
  | .notCallable found => found.name ++ " is not callable"
  | .wrongArity name wanted got =>
    name ++ " expects " ++ toString wanted ++ " arguments, got " ++ toString got
  | .fieldOfNull field => "accessing field " ++ field ++ " on null"
  | .noField found field => found.name ++ " has no field " ++ field
  | .indexOfNull => "indexing null array"
  | .notIndexable found => "cannot index " ++ found.name
  | .indexNotInt found => "array index must be an Int, got " ++ found.name
  | .indexOutOfRange index length =>
    "index " ++ toString index ++ " out of bounds for length " ++ toString length
  | .assignmentToFieldOfNull field => "assigning field " ++ field ++ " on null"
  | .noAssignableField found field => found.name ++ " has no assignable field " ++ field
  | .definedByRule functor => functor ++ " is already defined by a rule"
  | .definedByFacts functor => functor ++ " already holds facts"
  | .duplicateFact functor => functor ++ " already holds this fact"
  | .placeholderInFact functor name =>
    "fact " ++ functor ++ " cannot hold unbound parameter " ++ name
  | .voidInFact functor => "fact " ++ functor ++ " argument has no value"
  | .notAQuery found => "cannot query " ++ found.name
  | .queryTarget name type => "query target " ++ name ++ " has type " ++ type
  | .functorsDiffer left right | .incomparable left right =>
    "cannot unify " ++ left ++ " with " ++ right
  | .aritiesDiffer functor left right =>
    functor ++ " has " ++ toString left ++ " arguments on the left and " ++ toString right
      ++ " on the right"
  | .bothUnbound left right => left ++ " and " ++ right ++ " are both unbound"
  | .valuesDiffer left right => left ++ " does not unify with " ++ right
  | .notBindable name wanted found =>
    "cannot bind " ++ name ++ " of type " ++ wanted ++ " to " ++ found
  | .foreign text => text
  | .stated _ message => message

end Cause

/-- A failure, with the node that was evaluated when it happened. -/
structure Fault where
  cause : Cause
  node : Option NodeRef := none
  deriving Repr

namespace Fault

def kind (f : Fault) : FaultKind := f.cause.kind

def message (f : Fault) : String := f.cause.message

/-- Names the node, unless a node was named before. -/
def attach (f : Fault) (node : NodeRef) : Fault := { f with node := f.node.or (some node) }

def text (f : Fault) : String :=
  if f.message = "" then f.kind.name else f.kind.name ++ ": " ++ f.message

/-- The report of a fault, with the place of its node or at least the node's kind. -/
def describe (f : Fault) : String :=
  match f.node with
  | none => "runtime: " ++ f.text
  | some node =>
    let span := node.mark.span
    if span.known then
      "runtime: line " ++ toString span.line ++ ", column " ++ toString span.column ++ " " ++ f.text
    else "runtime: " ++ node.kind.name ++ " " ++ f.text

@[simp] theorem attach_attach (f : Fault) (a b : NodeRef) :
    (f.attach a).attach b = f.attach a := by
  cases f with
  | mk cause node => cases node <;> rfl

end Fault

inductive Failure
  | plain (text : String)
  | fault (f : Fault)
  | remark (label : String) (inner : Failure)
  deriving Repr

namespace Failure

def text : Failure → String
  | .plain text => text
  | .fault f => f.text
  | .remark label inner => label ++ ": " ++ inner.text

def fault? : Failure → Option Fault
  | .plain _ => none
  | .fault f => some f
  | .remark _ inner => inner.fault?

/-- The report of a failure. Only that of a fault drops the remarks. -/
def describe (e : Failure) : String :=
  match e.fault? with
  | some f => f.describe
  | none => "runtime: " ++ Text.trim e.text

end Failure

end LogicScript
