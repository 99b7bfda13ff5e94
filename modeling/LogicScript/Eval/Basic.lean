import LogicScript.Attributes
import LogicScript.Machine

/-! The steps that evaluation is made of. -/
namespace LogicScript

/-- What stays fixed during a run. -/
structure Context where
  table : Table
  maxDepth : Nat

/-- How deeply rules may call rules if nothing else is asked for. -/
def defaultMaxDepth : Nat := 256

/-- The limit that a request for a limit sets; only a positive one counts. -/
def effectiveDepth (requested : Int) : Nat :=
  if 0 < requested then requested.toNat else defaultMaxDepth

inductive Halt
  | fault (f : Fault)
  | outOfFuel
  deriving Repr

def Halt.describe : Halt → String
  | .fault f => f.describe
  | .outOfFuel => "runtime: out of fuel"

/-- An evaluation changes a machine, also if it fails. -/
abbrev Eval := EStateM Halt Machine

inductive Completion
  | normal
  | returned (v : Value)
  deriving Inhabited

namespace Eval

variable {α : Type}

def raise (c : Cause) : Eval α := throw (.fault ⟨c, none⟩)

def raiseAt (c : Cause) (node : NodeRef) : Eval α := throw (.fault ⟨c, some node⟩)

/-- Names the node in a fault that names none. -/
def attach (node : NodeRef) (step : Eval α) : Eval α := fun m =>
  match step m with
  | .error (.fault f) m' => .error (.fault (f.attach node)) m'
  | result => result

def lift : Except Cause α → Eval α
  | .ok a => pure a
  | .error c => raise c

/-- The text of a value. No fuel suffices to write out an object inside itself. -/
def display (v : Value) : Eval String := do
  match (← get).text? v with
  | some text => return text
  | none => throw Halt.outOfFuel

def log (e : Event) : Eval Unit := modify (·.log e)

def push (scope : ScopeId) : Eval FrameId := modifyGet (·.push scope)

def alloc (o : Object) : Eval ObjectId := modifyGet (·.alloc o)

def scopeOf (ctx : Context) (node : NodeRef) : Eval ScopeId :=
  match (ctx.table.attributes node.mark.id).scope with
  | some scope => return scope
  | none => raise (.nodeWithoutScope node.kind)

def read (ctx : Context) (env : Env) (scope : ScopeId) (name : String) : Eval Value := do
  lift ((← get).read ctx.table.scopes env scope name)

def write (ctx : Context) (env : Env) (scope : ScopeId) (name : String) (v : Value)
    (target : Ty) : Eval Unit := do
  let f ← lift ((← get).slot ctx.table.scopes env scope name)
  modify (·.define f name (v.widen target))

theorem write_apply (ctx : Context) (env : Env) (scope : ScopeId) (name : String) (v : Value)
    (target : Ty) (m : Machine) :
    write ctx env scope name v target m =
      match m.write ctx.table.scopes env scope name v target with
      | .ok m' => .ok () m'
      | .error c => .error (.fault ⟨c, none⟩) m := by
  have step : write ctx env scope name v target m =
      (lift (m.slot ctx.table.scopes env scope name) >>=
        fun f => modify (·.define f name (v.widen target))) m := rfl
  rw [step, Machine.write]
  cases m.slot ctx.table.scopes env scope name <;> rfl

def writeAt (ctx : Context) (env : Env) (node : NodeRef) (name : String) (v : Value)
    (target : Ty) : Eval Unit := do
  write ctx env (← scopeOf ctx node) name v target

/-- The active frame whose predicates a declaration adds to. -/
def storeFrame (ctx : Context) (env : Env) (node : NodeRef) : Eval FrameId := do
  let scope ← scopeOf ctx node
  match (← get).frameOf? env scope with
  | some f => return f
  | none => raise (.noFrame (ctx.table.scopes.get scope).text)

def changeStore (f : FrameId) (change : PredicateStore → Except Cause PredicateStore) :
    Eval Unit := do
  let store ← lift (change ((← get).frame f).predicates)
  modify (·.setStore f store)

def arity (name : String) (wanted got : Nat) : Eval Unit :=
  if wanted = got then return else raise (.wrongArity name wanted got)

def reference (ctx : Context) (env : Env) (r : Reference) : Eval Value := do
  match (ctx.table.attributes r.mark.id).decl with
  | none => raise (.unresolvedReference r.name)
  | some (.builtinFunction name) => return .native name
  | some (.builtinType p) => return .type p.name none
  | some (.function d) => return .function d
  | some (.struct d) => return .type d.name (some d)
  | some _ => read ctx env (← scopeOf ctx ⟨.reference, r.mark⟩) r.name

def constructor (ctx : Context) (m : Mark) (name : String) : Eval Value :=
  match (ctx.table.attributes m.id).decl with
  | some (.struct d) => return .constructor d
  | _ => raise (.notStruct name)

def fieldOf (stem : Value) (name : String) : Eval Value := do
  let objects := (← get).objects
  let missing : Eval Value := raise (.noField stem.kind name)
  match stem with
  | .null => raise (.fieldOfNull name)
  | .array o =>
    match objects[o]? with
    | some (.array elements) =>
      if name = "length" then return .int (Int64.ofNat elements.size) else missing
    | _ => missing
  | .struct o =>
    match objects[o]? with
    | some (.struct _ fields) =>
      match fields.get? name with
      | some v => return v
      | none => missing
    | _ => missing
  | _ => missing

def element (array index : Value) : Eval (ObjectId × Nat) := do
  match array with
  | .null => raise .indexOfNull
  | .array o =>
    let length := (← get).arrayLength o
    match index with
    | .int i =>
      if 0 ≤ i ∧ i.toInt < (length : Int) then return (o, i.toInt.toNat)
      else raise (.indexOutOfRange i length)
    | v => raise (.indexNotInt v.kind)
  | v => raise (.notIndexable v.kind)

def getElement (o : ObjectId) (i : Nat) : Eval Value := do
  match (← get).objects[o]? with
  | some (.array elements) => return elements.getD i .absent
  | _ => return .absent

def setElement (o : ObjectId) (i : Nat) (v : Value) : Eval Unit :=
  modify (·.updateObject o (.setElement i v))

/-- Writes a field that the object has. -/
def setField (stem : Value) (name : String) (v : Value) : Eval Unit := do
  let missing : Eval Unit := raise (.noAssignableField stem.kind name)
  match stem with
  | .null => raise (.assignmentToFieldOfNull name)
  | .struct o =>
    match (← get).objects[o]? with
    | some (.struct _ fields) =>
      if fields.contains name then modify (·.updateObject o (.setField name v)) else missing
    | _ => missing
  | _ => missing

def fillFields (ctx : Context) : List FieldDecl → List Value → Bindings Value → Bindings Value
  | f :: fs, v :: vs, filled =>
    fillFields ctx fs vs (filled.set f.name (v.widen (ctx.table.typeOf f.mark)))
  | _, _, filled => filled

def construct (ctx : Context) (d : StructDecl) (args : List Value) : Eval Value := do
  arity ("$" ++ d.name) d.fields.length args.length
  return .struct (← alloc (.struct d (fillFields ctx d.fields args ∅)))

/-- The builtin functions; there is one, which prints its argument and returns the text. -/
def native (name : String) (args : List Value) : Eval Value := do
  arity name 1 args.length
  let text ← display (args.headD .absent)
  modify (·.print text)
  return .string text

def bindParameters (ctx : Context) (env : Env) (scope : ScopeId) :
    List Parameter → List Value → Eval Unit
  | p :: ps, v :: vs => do
    write ctx env scope p.name v (ctx.table.typeOf p.mark)
    bindParameters ctx env scope ps vs
  | _, _ => return

/-- A new frame outside the active ones but for the root frame. -/
def callEnv (env : Env) (f : FrameId) : Env := f :: env.getLast?.toList

def fits (table : Table) : List Expr → List Parameter → Bool
  | [], [] => true
  | e :: es, p :: ps => (table.typeOf e.mark).assignable (table.typeOf p.mark) && fits table es ps
  | _, _ => false

def declareAtom (ctx : Context) (env : Env) (d : AtomDecl) : Eval Unit := do
  let scope ← scopeOf ctx ⟨.atomDeclaration, d.mark⟩
  log (.atomDeclared d.name)
  write ctx env scope d.name (.bool true) .bool

def declareRule (ctx : Context) (env : Env) (d : RuleDecl) : Eval Unit := do
  match (ctx.table.attributes d.mark.id).bodyScope with
  | none => raise (.ruleWithoutScope d.functor)
  | some scope =>
    let f ← storeFrame ctx env ⟨.ruleDeclaration, d.mark⟩
    changeStore f (·.setRule d.functor ⟨d, scope, env⟩)
    log (.ruleRegistered d.functor d.parameters.length)

end Eval
end LogicScript
