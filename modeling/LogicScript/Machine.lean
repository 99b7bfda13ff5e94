import LogicScript.PredicateStore

/-! The state of a running program: frames, objects, output and trace. -/
namespace LogicScript

/-- The bindings and predicates of one activation of a scope. -/
structure Frame where
  scope : ScopeId
  bindings : Bindings Value := ∅
  predicates : PredicateStore := {}
  deriving Inhabited

/-- What a run reports while it goes on. -/
inductive Event
  | atomDeclared (name : String)
  | factDeclared (functor : String) (arity : Nat)
  | ruleRegistered (functor : String) (arity : Nat)
  | queryResolved (target : String) (result : Bool)
  | bound (name : String) (value : String)
  | called (function : String) (args : Nat)
  | finished (returned : Bool) (value : String)
  deriving Repr, DecidableEq

structure Machine where
  frames : Array Frame := #[]
  objects : Array Object := #[]
  output : String := ""
  events : Array Event := #[]
  deriving Inhabited

namespace Machine

def frame (m : Machine) (f : FrameId) : Frame := m.frames.getD f default

/-- The active frame of a scope. -/
def frameOf? (m : Machine) (env : Env) (scope : ScopeId) : Option FrameId :=
  env.find? fun f => (m.frame f).scope == scope

def updateFrame (m : Machine) (f : FrameId) (change : Frame → Frame) : Machine :=
  { m with frames := m.frames.modify f change }

def define (m : Machine) (f : FrameId) (name : String) (v : Value) : Machine :=
  m.updateFrame f fun frame => { frame with bindings := frame.bindings.set name v }

def setStore (m : Machine) (f : FrameId) (store : PredicateStore) : Machine :=
  m.updateFrame f fun frame => { frame with predicates := store }

def read (m : Machine) (scopes : Scopes) (env : Env) (scope : ScopeId) (name : String) :
    Except Cause Value :=
  match m.frameOf? env scope with
  | none => .error (.noFrameToRead (scopes.get scope).text name)
  | some f =>
    match (m.frame f).bindings.get? name with
    | none => .error (.readBeforeAssignment name)
    | some v => .ok v

/-- The active frame of a scope in which a name is to be bound. -/
def slot (m : Machine) (scopes : Scopes) (env : Env) (scope : ScopeId) (name : String) :
    Except Cause FrameId :=
  match m.frameOf? env scope with
  | none => .error (.noFrameToWrite (scopes.get scope).text name)
  | some f => .ok f

/-- Binds a name in the active frame of a scope, widened to the type of the slot. -/
def write (m : Machine) (scopes : Scopes) (env : Env) (scope : ScopeId) (name : String)
    (v : Value) (target : Ty) : Except Cause Machine :=
  (m.slot scopes env scope name).map fun f => m.define f name (v.widen target)

def push (m : Machine) (scope : ScopeId) : FrameId × Machine :=
  (m.frames.size, { m with frames := m.frames.push { scope } })

def alloc (m : Machine) (o : Object) : ObjectId × Machine :=
  (m.objects.size, { m with objects := m.objects.push o })

/-- The length of an array; nothing else has one. -/
def arrayLength (m : Machine) (o : ObjectId) : Nat :=
  match m.objects[o]? with
  | some (.array elements) => elements.size
  | _ => 0

def updateObject (m : Machine) (o : ObjectId) (change : Object → Object) : Machine :=
  { m with objects := m.objects.modify o change }

def print (m : Machine) (line : String) : Machine :=
  { m with output := m.output ++ line ++ "\n" }

def log (m : Machine) (e : Event) : Machine := { m with events := m.events.push e }

def text? (m : Machine) (v : Value) : Option String := v.text? m.objects

def display (m : Machine) (v : Value) : String := v.display m.objects

theorem frameOf?_cons_self (m : Machine) (f : FrameId) (env : Env) :
    m.frameOf? (f :: env) (m.frame f).scope = some f := by simp [frameOf?]

@[simp] theorem size_updateFrame (m : Machine) (f : FrameId) (change : Frame → Frame) :
    (m.updateFrame f change).frames.size = m.frames.size := by simp [updateFrame]

theorem frame_updateFrame (m : Machine) (f i : FrameId) (change : Frame → Frame) :
    (m.updateFrame f change).frame i =
      if f = i ∧ i < m.frames.size then change (m.frame i) else m.frame i := by
  unfold updateFrame frame
  simp only [Array.getD_eq_getD_getElem?, Array.getElem?_modify]
  by_cases hi : i < m.frames.size
  · by_cases hf : f = i <;> simp [hi, hf]
  · simp [hi]

@[simp] theorem size_push (m : Machine) (scope : ScopeId) :
    (m.push scope).2.frames.size = m.frames.size + 1 := by simp [push]

@[simp] theorem size_define (m : Machine) (f : FrameId) (name : String) (v : Value) :
    (m.define f name v).frames.size = m.frames.size := by simp [define]

@[simp] theorem scope_define (m : Machine) (f i : FrameId) (name : String) (v : Value) :
    ((m.define f name v).frame i).scope = (m.frame i).scope := by
  rw [define, frame_updateFrame]
  split <;> rfl

@[simp] theorem predicates_define (m : Machine) (f i : FrameId) (name : String) (v : Value) :
    ((m.define f name v).frame i).predicates = (m.frame i).predicates := by
  rw [define, frame_updateFrame]
  split <;> rfl

@[simp] theorem size_setStore (m : Machine) (f : FrameId) (store : PredicateStore) :
    (m.setStore f store).frames.size = m.frames.size := by simp [setStore]

@[simp] theorem scope_setStore (m : Machine) (f i : FrameId) (store : PredicateStore) :
    ((m.setStore f store).frame i).scope = (m.frame i).scope := by
  rw [setStore, frame_updateFrame]
  split <;> rfl

@[simp] theorem bindings_setStore (m : Machine) (f i : FrameId) (store : PredicateStore) :
    ((m.setStore f store).frame i).bindings = (m.frame i).bindings := by
  rw [setStore, frame_updateFrame]
  split <;> rfl

theorem frame_push (m : Machine) (scope : ScopeId) (i : FrameId) :
    (m.push scope).2.frame i = if i = m.frames.size then { scope } else m.frame i := by
  unfold push frame
  simp only [Array.getD_eq_getD_getElem?, Array.getElem?_push]
  split <;> rfl

end Machine

end LogicScript
