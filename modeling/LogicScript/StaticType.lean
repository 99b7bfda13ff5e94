import LogicScript.Tree.Basic

/-! Static types: what the analysis knows about the value of a node. -/
namespace LogicScript

inductive Primitive
  | int | float | bool | string | atom | null | void | type
  deriving DecidableEq, Repr, Inhabited

namespace Primitive

def name : Primitive → String
  | .int => "Int"
  | .float => "Float"
  | .bool => "Bool"
  | .string => "String"
  | .atom => "Atom"
  | .null => "Null"
  | .void => "Void"
  | .type => "Type"

def all : List Primitive := [.int, .float, .bool, .string, .atom, .null, .void, .type]

def ofName? (s : String) : Option Primitive := all.find? (·.name = s)

/-- The types that a program can name: all primitives but the type of null. -/
def named : List Primitive := [.int, .float, .bool, .string, .atom, .void, .type]

end Primitive

/-- A type. A struct type is the declaration itself: two declarations of one name differ. -/
inductive Ty
  | prim (p : Primitive)
  | array (element : Ty)
  | struct (decl : StructDecl)
  | function (params : List Ty) (result : Ty)
  | predicate (functor : String) (params : List Ty)
  deriving Inhabited

namespace Ty

@[match_pattern] abbrev int : Ty := .prim .int
@[match_pattern] abbrev float : Ty := .prim .float
@[match_pattern] abbrev bool : Ty := .prim .bool
@[match_pattern] abbrev string : Ty := .prim .string
@[match_pattern] abbrev atom : Ty := .prim .atom
@[match_pattern] abbrev null : Ty := .prim .null
@[match_pattern] abbrev void : Ty := .prim .void
@[match_pattern] abbrev type : Ty := .prim .type

mutual

def name : Ty → String
  | .prim p => p.name
  | .array t => t.name ++ "[]"
  | .struct d => d.name
  | .function params result => "(" ++ ",".intercalate (names params) ++ ") -> " ++ result.name
  | .predicate functor params => functor ++ "(" ++ ",".intercalate (names params) ++ ")"

def names : List Ty → List String
  | [] => []
  | t :: ts => t.name :: names ts

end

def isInt : Ty → Bool
  | .int => true
  | _ => false

def isFloat : Ty → Bool
  | .float => true
  | _ => false

def isBool : Ty → Bool
  | .bool => true
  | _ => false

def isString : Ty → Bool
  | .string => true
  | _ => false

def isNull : Ty → Bool
  | .null => true
  | _ => false

def isVoid : Ty → Bool
  | .void => true
  | _ => false

def isNumeric (t : Ty) : Bool := t.isInt || t.isFloat

/-- Whether values of the type compare by value and not by identity. -/
def isPrimitive : Ty → Bool
  | .prim .void | .prim .type => false
  | .prim _ => true
  | _ => false

/-- Whether null can stand in for a value of the type. -/
def isReference : Ty → Bool
  | .array _ | .struct _ | .function _ _ => true
  | t => t.isString || t.isNull

mutual

/-- Whether two types are the same. Arrays, structs, functions and predicates on the left want
their like on the right; a primitive on the left wants its name there. -/
def same : Ty → Ty → Bool
  | .array s, .array t => same s t
  | .struct d, .struct e => d.mark.id == e.mark.id
  | .function ps r, .function qs q => ps.length == qs.length && same r q && sameAll ps qs
  | .predicate f ps, .predicate g qs => f == g && ps.length == qs.length
  | .prim p, t => p.name == t.name
  | _, _ => false

def sameAll : List Ty → List Ty → Bool
  | [], [] => true
  | s :: ss, t :: ts => same s t && sameAll ss ts
  | _, _ => false

end

/-- Whether a value of the first type can be stored in a slot of the second. An Int widens to a
Float, and null fits every reference type. -/
def assignable : Ty → Ty → Bool
  | .void, _ => false
  | .array s, .array t => same (.array s) (.array t) || assignable s t
  | s, t => same s t || (s.isInt && t.isFloat) || (s.isNull && t.isReference)

/-- Whether two values of these types may be compared in a unification. -/
def comparable (s t : Ty) : Bool := same s t || (s.isNumeric && t.isNumeric)

@[simp] theorem not_assignable_void (t : Ty) : assignable .void t = false := by
  simp [assignable]

end Ty

/-! A type may also be missing. A missing type is the same as a missing one only, and takes part in
no assignment. -/

namespace Ty

def same? : Option Ty → Option Ty → Bool
  | some s, some t => same s t
  | none, none => true
  | _, _ => false

def assignable? : Option Ty → Option Ty → Bool
  | some s, some t => assignable s t
  | _, _ => false

def comparable? : Option Ty → Option Ty → Bool
  | some s, some t => comparable s t
  | none, none => true
  | _, _ => false

def test (p : Ty → Bool) (t : Option Ty) : Bool := t.any p

end Ty

end LogicScript
