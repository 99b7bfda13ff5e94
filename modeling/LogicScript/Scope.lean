import LogicScript.Bindings
import LogicScript.StaticType

/-! Lexical scopes and the declarations in them. -/
namespace LogicScript

inductive Decl
  | builtinType (builtin : Primitive)
  | builtinFunction (name : String)
  | var (mark : Mark) (name : String)
  | parameter (mark : Mark) (name : String)
  | placeholder (mark : Mark) (name : String)
  | function (decl : FunctionDecl)
  | struct (decl : StructDecl)
  | atom (mark : Mark) (name : String)
  | fact (mark : Mark) (functor : String)
  | rule (mark : Mark) (functor : String)
  deriving Inhabited

namespace Decl

def name : Decl → String
  | .builtinType t => t.name
  | .builtinFunction name => name
  | .var _ name | .parameter _ name | .placeholder _ name | .atom _ name => name
  | .function d => d.name
  | .struct d => d.name
  | .fact _ functor | .rule _ functor => functor

/-- The mark of the declaring node; a builtin has none. -/
def mark? : Decl → Option Mark
  | .builtinType _ | .builtinFunction _ => none
  | .var m _ | .parameter m _ | .placeholder m _ | .atom m _ | .fact m _ | .rule m _ => some m
  | .function d => some d.mark
  | .struct d => some d.mark

def isBuiltin (d : Decl) : Bool := d.mark?.isNone

def isAtom : Decl → Bool
  | .atom _ _ => true
  | _ => false

def isPlaceholder : Decl → Bool
  | .placeholder _ _ => true
  | _ => false

/-- Whether the declaration is a fact or a rule, so that its name is a functor. -/
def isPredicate : Decl → Bool
  | .fact _ _ | .rule _ _ => true
  | _ => false

def isAssignable : Decl → Bool
  | .var _ _ | .parameter _ _ | .placeholder _ _ => true
  | _ => false

end Decl

/-- A scope is known by its position among the scopes of a program. -/
abbrev ScopeId := Nat

/-- A lexical scope: the node that opened it, the scopes around it from the nearest to the
outermost, and the names declared in it. -/
structure Scope where
  opener : Option NodeRef
  outer : List ScopeId
  declared : Bindings Decl := ∅
  deriving Inhabited

namespace Scope

def parent? (s : Scope) : Option ScopeId := s.outer.head?

def isRoot (s : Scope) : Bool := s.outer.isEmpty

def text (s : Scope) : String :=
  match s.opener with
  | none => "<scope>"
  | some node => "scope(" ++ node.kind.name ++ ")"

end Scope

structure Scopes where
  all : Array Scope := #[]
  deriving Inhabited

namespace Scopes

def get (s : Scopes) (i : ScopeId) : Scope := s.all.getD i default

/-- The scope with those around it, the nearest first. -/
def chain (s : Scopes) (i : ScopeId) : List ScopeId := i :: (s.get i).outer

def root (s : Scopes) (i : ScopeId) : ScopeId := (s.chain i).getLastD i

def push (s : Scopes) (opener : Option NodeRef) (parent : Option ScopeId) : ScopeId × Scopes :=
  (s.all.size, ⟨s.all.push ⟨opener, (parent.map s.chain).getD [], ∅⟩⟩)

def findLocal (s : Scopes) (i : ScopeId) (name : String) : Option Decl :=
  (s.get i).declared.get? name

def findIn (s : Scopes) (name : String) : List ScopeId → Option (Decl × ScopeId)
  | [] => none
  | i :: rest =>
    match s.findLocal i name with
    | some d => some (d, i)
    | none => findIn s name rest

/-- The nearest declaration of a name around the scope, with the scope that has it. -/
def find (s : Scopes) (i : ScopeId) (name : String) : Option (Decl × ScopeId) :=
  s.findIn name (s.chain i)

/-- Declares a name. A name that the scope already declares keeps its first declaration, and the
flag is false. -/
def declare (s : Scopes) (i : ScopeId) (name : String) (d : Decl) : Bool × Scopes :=
  match s.findLocal i name with
  | some _ => (false, s)
  | none =>
    (true, ⟨s.all.modify i fun scope => { scope with declared := scope.declared.set name d }⟩)

end Scopes

end LogicScript
