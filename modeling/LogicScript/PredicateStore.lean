import LogicScript.Fault
import LogicScript.Scope

/-! The facts and rules of a frame, filed under their functors. -/
namespace LogicScript

/-- A frame is known by its position among the frames of a machine. -/
abbrev FrameId := Nat

/-- The active frames, from the innermost to the root frame. -/
abbrev Env := List FrameId

/-- A registered rule: its declaration, the scope of its parameters, and the frames that were
active where it was declared. -/
structure Rule where
  decl : RuleDecl
  scope : ScopeId
  env : Env
  deriving Inhabited

/-- All that is known about one functor: ground facts in the order of their declaration, or one
rule. -/
inductive Entry
  | facts (tuples : List (List Value))
  | rule (r : Rule)
  deriving Inhabited

def equalTuples : List Value → List Value → Bool
  | [], [] => true
  | a :: as, b :: bs => a.equal b && equalTuples as bs
  | _, _ => false

namespace Entry

def tuples : Entry → List (List Value)
  | .facts tuples => tuples
  | .rule _ => []

/-- Whether the value stands anywhere in the facts. -/
def mentions (e : Entry) (v : Value) : Bool := e.tuples.any fun tuple => tuple.any (·.equal v)

/-- Whether each argument stands anywhere in the facts. Neither position nor arity counts. -/
def contains (e : Entry) (args : List Value) : Bool := args.all e.mentions

end Entry

structure PredicateStore where
  entries : Bindings Entry := ∅
  deriving Inhabited

namespace PredicateStore

def get? (s : PredicateStore) (functor : String) : Option Entry := s.entries.get? functor

def isEmpty (s : PredicateStore) : Bool := s.entries.toList.isEmpty

def size (s : PredicateStore) : Nat := s.entries.size

def functors (s : PredicateStore) : List String := s.entries.sortedNames

/-- Adds a ground fact. A functor with a rule takes none, and no fact is held twice. -/
def addFact (s : PredicateStore) (functor : String) (tuple : List Value) :
    Except Cause PredicateStore :=
  match s.get? functor with
  | none => .ok ⟨s.entries.set functor (.facts [tuple])⟩
  | some (.rule _) => .error (.definedByRule functor)
  | some (.facts tuples) =>
    if tuples.any (equalTuples · tuple) then .error (.duplicateFact functor)
    else .ok ⟨s.entries.set functor (.facts (tuples ++ [tuple]))⟩

/-- Registers a rule, in place of an earlier one. A functor with facts takes none. -/
def setRule (s : PredicateStore) (functor : String) (r : Rule) : Except Cause PredicateStore :=
  match s.get? functor with
  | some (.facts _) => .error (.definedByFacts functor)
  | _ => .ok ⟨s.entries.set functor (.rule r)⟩

end PredicateStore

end LogicScript
