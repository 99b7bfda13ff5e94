import LogicScript.Machine

/-! The facts of a frame as Datalog. -/
namespace LogicScript
namespace Datalog

inductive Constant
  | number (value : Int64)
  | float (value : Binary64)
  | string (value : String)
  | name (path : String)
  deriving Repr, DecidableEq

def hashStart : UInt64 := 14695981039346656037
def hashFactor : UInt64 := 1099511628211

/-- One step of the hash: multiply, then mix in a byte. -/
def hashByte (h : UInt64) (b : UInt8) : UInt64 := (h * hashFactor) ^^^ b.toUInt64

def hashBytes (h : UInt64) (bytes : List UInt8) : UInt64 := bytes.foldl hashByte h

def hashText (s : String) : UInt64 := hashBytes hashStart s.toUTF8.toList

def wordBytes (w : UInt64) : List UInt8 :=
  (List.range 8).map fun i => (w >>> (8 * i).toUInt64).toUInt8

/-- Whether no part between slashes is empty, if the current part already has a character or not. -/
def partsFilled : Bool → List Char → Bool
  | begun, [] => begun
  | begun, '/' :: rest => begun && partsFilled false rest
  | _, _ :: rest => partsFilled true rest

/-- The path of a name: parts that are not empty, each after a slash, without quotes. -/
def isName (path : String) : Bool :=
  match path.toList with
  | '/' :: rest => !rest.contains '"' && partsFilled false rest
  | _ => false

/-- The constant of a value. Arrays, structs, functions, types and null have none. -/
def Constant.ofValue? : Value → Option Constant
  | .int i => some (.number i)
  | .float x => some (.float x)
  | .string s => some (.string s)
  | .bool b => some (.name (if b then "/true" else "/false"))
  | .atom a => if isName ("/" ++ a) then some (.name ("/" ++ a)) else none
  | _ => none

/-- The characters of a text in quotes. Characters outside ASCII are written by number. -/
def escape (c : Char) : List Char :=
  if c = '\x27' then ['\\', '\x27']
  else if c = '"' then ['\\', '"']
  else if c = '\n' then ['\\', 'n']
  else if c = '\t' then ['\\', 't']
  else if c = '\\' then ['\\', '\\']
  else if c.toNat < 0x80 then [c]
  else "\\u\x7b".toList ++ Text.hex 6 c.toNat ++ ['\x7d']

def Constant.text : Constant → String
  | .number i => toString i
  | .float x => FloatFormat.datalog.write x
  | .string s => String.ofList ('"' :: (s.toList.flatMap escape ++ ['"']))
  | .name path => path

def Constant.word : Constant → UInt64
  | .number i => i.toUInt64
  | .float x => x.bits
  | .string s => hashText s
  | .name path => hashText path

structure Atom where
  functor : String
  arguments : List Constant
  deriving Repr, DecidableEq

namespace Atom

def arity (a : Atom) : Nat := a.arguments.length

def signature (a : Atom) : String × Nat := (a.functor, a.arity)

def text (a : Atom) : String :=
  a.functor ++ "(" ++ ",".intercalate (a.arguments.map Constant.text) ++ ")"

def hash (a : Atom) : UInt64 :=
  a.arguments.foldl (fun h c => hashBytes h (wordBytes c.word)) (hashText a.functor)

/-- The atom of a fact, if all its values have constants. -/
def ofFact? (functor : String) (tuple : List Value) : Option Atom :=
  (tuple.mapM Constant.ofValue?).map fun cs => ⟨functor, cs⟩

/-- Whether two atoms are of one predicate and have one hash. -/
def clashes (a b : Atom) : Bool := a.signature == b.signature && a.hash == b.hash

end Atom

/-- A store of atoms. It lists the predicates that it has atoms of, and the atoms of a predicate, in
an order of its own. -/
structure FactStore where
  State : Type
  empty : State
  /-- Whether the atom is new, and the store with it. -/
  add : State → Atom → Bool × State
  predicates : State → List (String × Nat)
  facts : State → String × Nat → List Atom

/-- A store that files the atoms of a predicate under their hash, a word of 64 bits, and keeps the
first atom of each hash. -/
def FactStore.hashed : FactStore where
  State := List Atom
  empty := []
  add atoms a := if atoms.any (·.clashes a) then (false, atoms) else (true, atoms ++ [a])
  predicates atoms := (atoms.map Atom.signature).eraseDups
  facts atoms signature := atoms.filter (·.signature == signature)

/-- A store of atoms, and how many facts were added to it and how many have no Datalog form. -/
structure Export (S : FactStore) where
  store : S.State := S.empty
  exported : Nat := 0
  skipped : Nat := 0

namespace Export

variable {S : FactStore}

def add (x : Export S) (functor : String) (tuple : List Value) : Export S :=
  match Atom.ofFact? functor tuple with
  | none => { x with skipped := x.skipped + 1 }
  | some a =>
    match S.add x.store a with
    | (true, store) => { x with store, exported := x.exported + 1 }
    | (false, store) => { x with store }

/-- The facts of a frame's predicates, by functor, in a store of any kind. Rules are left out. -/
def into (S : FactStore) (s : PredicateStore) : Export S :=
  s.functors.foldl (fun x functor =>
    ((s.get? functor).map (·.tuples)).getD [] |>.foldl (·.add functor ·) x) {}

def ofStore (s : PredicateStore) : Export .hashed := into .hashed s

def sorted (texts : List String) : List String := texts.mergeSort (fun a b => decide (a ≤ b))

def facts (x : Export S) (functor : String) (arity : Nat) : List String :=
  (S.facts x.store (functor, arity)).map Atom.text

/-- The functors with their arities, in ascending order, each once. -/
def signatures (x : Export S) : List (String × Nat) :=
  (S.predicates x.store).mergeSort fun a b => decide (a.1 < b.1 ∨ a.1 = b.1 ∧ a.2 ≤ b.2)

/-- The lines of the Datalog text: by functor, then by arity, in ascending order within these. -/
def lines (x : Export S) : List String :=
  x.signatures.flatMap fun (functor, arity) =>
    sorted ((x.facts functor arity).map (· ++ "."))

end Export
end Datalog
end LogicScript
