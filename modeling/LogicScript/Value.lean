import LogicScript.Bindings
import LogicScript.Number.Format
import LogicScript.StaticType

/-! The values that a program computes with, and the objects that values refer to. -/
namespace LogicScript

inductive ValueKind
  | void | int | float | bool | string | null | atom | array | struct | function
  | nativeFunction | type | constructor
  deriving DecidableEq, Repr, Inhabited

def ValueKind.name : ValueKind → String
  | .void => "void"
  | .int => "int"
  | .float => "float"
  | .bool => "bool"
  | .string => "string"
  | .null => "null"
  | .atom => "atom"
  | .array => "array"
  | .struct => "struct"
  | .function => "function"
  | .nativeFunction => "native_function"
  | .type => "type"
  | .constructor => "constructor"

/-- An object is known by its position among the objects of a machine. -/
abbrev ObjectId := Nat

/-- A value. Arrays and structs are references to objects; `void` is what a call gives that does
not return; `absent` is what a slot holds that was never filled. -/
inductive Value
  | absent
  | void
  | int (value : Int64)
  | float (value : Binary64)
  | bool (value : Bool)
  | string (value : String)
  | null
  | atom (name : String)
  | array (object : ObjectId)
  | struct (object : ObjectId)
  | function (decl : FunctionDecl)
  | native (name : String)
  | type (name : String) (decl : Option StructDecl)
  | constructor (decl : StructDecl)
  deriving Inhabited

namespace Value

def kind : Value → ValueKind
  | .absent | .void => .void
  | .int _ => .int
  | .float _ => .float
  | .bool _ => .bool
  | .string _ => .string
  | .null => .null
  | .atom _ => .atom
  | .array _ => .array
  | .struct _ => .struct
  | .function _ => .function
  | .native _ => .nativeFunction
  | .type _ _ => .type
  | .constructor _ => .constructor

def isPrimitive : Value → Bool
  | .int _ | .float _ | .bool _ | .string _ | .null | .atom _ => true
  | _ => false

/-- Primitives are equal by value, all else by identity. Values of different kinds are never
equal, and NaN is not equal to itself. -/
def equal : Value → Value → Bool
  | .absent, .absent | .void, .void | .null, .null => true
  | .int a, .int b => a == b
  | .float a, .float b => a.equal b
  | .bool a, .bool b => a == b
  | .string a, .string b => a == b
  | .atom a, .atom b => a == b
  | .array a, .array b => a == b
  | .struct a, .struct b => a == b
  | .function a, .function b => a.mark.id == b.mark.id
  | .native a, .native b => a == b
  | .type a d, .type b e => a == b && d.map (·.mark.id) == e.map (·.mark.id)
  | .constructor a, .constructor b => a.mark.id == b.mark.id
  | _, _ => false

def asFloat? : Value → Option Binary64
  | .int i => some (Binary64.ofInt i.toInt)
  | .float x => some x
  | _ => none

/-- Equality with Ints taken as Floats where a Float is compared with an Int. -/
def numericEqual : Value → Value → Bool
  | .int a, .float b => (Binary64.ofInt a.toInt).equal b
  | .float a, .int b => a.equal (Binary64.ofInt b.toInt)
  | a, b => equal a b

def widen : Value → Ty → Value
  | .int i, .float => .float (Binary64.ofInt i.toInt)
  | v, _ => v

end Value

inductive Object
  | array (elements : Array Value)
  | struct (decl : StructDecl) (fields : Bindings Value)
  deriving Inhabited

namespace Object

/-- Replaces an element of an array that it has; all else stays. -/
def setElement (i : Nat) (v : Value) : Object → Object
  | .array elements => .array (elements.setIfInBounds i v)
  | other => other

def setField (name : String) (v : Value) : Object → Object
  | .struct d fields => .struct d (fields.set name v)
  | other => other

def contents : Object → List Value
  | .array elements => elements.toList
  | .struct d fields => d.fields.map fun f => (fields.get? f.name).getD .absent

def written (object : Object) (texts : List String) : String :=
  match object with
  | .array _ => "[" ++ ", ".intercalate texts ++ "]"
  | .struct d _ =>
    "\x7b" ++ ", ".intercalate (d.fields.zipWith (fun f text => f.name ++ "=" ++ text) texts) ++ "\x7d"

end Object

namespace Value

/-- The text of a value that lies in some objects. An object inside itself has none: to write it
out would never end. Objects are followed as many levels deep as the number says. -/
def textIn (objects : Array Object) : Nat → List ObjectId → Value → Option String
  | _, _, .absent | _, _, .null => some "null"
  | _, _, .void => some "void"
  | _, _, .int i => some (toString i)
  | _, _, .float x => some (FloatFormat.display.write x)
  | _, _, .bool b => some (if b then "true" else "false")
  | _, _, .string s => some s
  | _, _, .atom name => some name
  | _, _, .function d => some d.name
  | _, _, .native name => some name
  | _, _, .type name _ => some name
  | _, _, .constructor d => some ("$" ++ d.name)
  | 0, _, .array _ | 0, _, .struct _ => none
  | depth + 1, around, .array o | depth + 1, around, .struct o =>
    if o ∈ around then none else
      match objects[o]? with
      | none => some ""
      | some object =>
        (object.contents.mapM (textIn objects depth (o :: around))).map object.written

/-- The text of a value, as printing and concatenation use it. Objects that are not inside
themselves are nested less deeply than there are objects. -/
def text? (objects : Array Object) (v : Value) : Option String :=
  textIn objects (objects.size + 1) [] v

/-- The text of a value that has one. -/
def display (objects : Array Object) (v : Value) : String := (v.text? objects).getD ""

end Value

end LogicScript
