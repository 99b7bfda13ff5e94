import LogicScript.Eval.Basic
import LogicScript.Eval.Operator

/-! Evaluation of a program.

An expression may hold logic expressions, and a predicate may have any expressions as arguments. So
evaluation is made of steps. A step evaluates one expression, one statement, one logic expression
or one round of a loop, and asks an evaluator for all that lies inside or comes after. Repeated as
often as the fuel allows, the step is its own evaluator. -/
namespace LogicScript
namespace Eval

/-- The body of a loop. A block has one frame for all rounds. -/
inductive LoopBody
  | block (env : Env) (b : Block)
  | statement (s : Stmt)

/-- What a step may ask for. A logic expression is resolved inside so many rule bodies. -/
structure Evaluator where
  expression : Env → Expr → Eval Value
  statement : Env → Stmt → Eval Completion
  rounds : Env → Expr → LoopBody → Eval Completion
  resolve : Env → Nat → Goal → Eval Bool

def operate (op : BinaryOp) (leftType rightType : Ty) (left right : Value) : Eval Value := do
  if Operator.joins op leftType rightType then
    return .string ((← display left) ++ (← display right))
  else lift (Operator.apply op leftType rightType left right)

section Step

variable (ctx : Context) (sub : Evaluator)

def expressions (env : Env) : List Expr → Eval (List Value)
  | [] => return []
  | e :: es => do
    let v ← sub.expression env e
    return v :: (← expressions env es)

def access (env : Env) (array index : Expr) : Eval (ObjectId × Nat) := do
  let a ← sub.expression env array
  let i ← sub.expression env index
  element a i

/-- A call of a declared function. Its body sees its parameters and the root frame only. -/
def callFunction (env : Env) (d : FunctionDecl) (args : List Value) : Eval Value := do
  arity d.name d.parameters.length args.length
  match (ctx.table.attributes d.mark.id).bodyScope with
  | none => raise (.functionWithoutScope d.name)
  | some scope =>
    let inner := callEnv env (← push scope)
    bindParameters ctx inner scope d.parameters args
    log (.called d.name args.length)
    match ← sub.statement inner (.block d.body) with
    | .normal => return .void
    | .returned v =>
      match ctx.table.typeOf d.mark with
      | .function _ result => return v.widen result
      | _ => return v

def call (env : Env) (callee : Value) (args : List Value) : Eval Value :=
  match callee with
  | .null => raise .callOfNull
  | .native name => native name args
  | .constructor d => construct ctx d args
  | .function d => callFunction ctx sub env d args
  | v => raise (.notCallable v.kind)

def truth (env : Env) (e : Expr) : Eval Bool := do
  match ← sub.expression env e with
  | .bool b => return b
  | v => raise (.operandNotBool v.kind)

/-- An operator. Conjunction and disjunction evaluate the right operand only if the left one does
not decide. -/
def binary (env : Env) (op : BinaryOp) (left right : Expr) : Eval Value :=
  match op with
  | .and => do
    if ← truth sub env left then return .bool (← truth sub env right)
    else return .bool false
  | .or => do
    if ← truth sub env left then return .bool true
    else return .bool (← truth sub env right)
  | op => do
    let l ← sub.expression env left
    let r ← sub.expression env right
    operate op (ctx.table.typeOf left.mark) (ctx.table.typeOf right.mark) l r

def assign (env : Env) (target value : Expr) : Eval Value :=
  match target with
  | .reference r => do
    let v ← sub.expression env value
    unless (ctx.table.attributes r.mark.id).decl.any (·.isAssignable) do
      raise (.notAssignable r.name)
    let type := ctx.table.typeOf r.mark
    writeAt ctx env ⟨.reference, r.mark⟩ r.name v type
    return v.widen type
  | .index m array index => do
    let (o, i) ← access sub env array index
    let v ← sub.expression env value
    let v := v.widen (ctx.table.typeOf m)
    setElement o i v
    return v
  | .field m stem name => do
    let s ← sub.expression env stem
    let v ← sub.expression env value
    let v := v.widen (ctx.table.typeOf m)
    setField s name v
    return v
  | e => raise (.notAssignable e.kind.name)

/-- Resolves a logic expression and stores the answer in a name. -/
def query (env : Env) (m : Mark) (target : Reference) (question : Expr) : Eval Value :=
  match question with
  | .logic goal => do
    let type := ctx.table.typeOf target.mark
    unless Ty.assignable .bool type do
      raiseAt (.queryTarget target.name type.name) ⟨.reference, target.mark⟩
    let answer ← sub.resolve env 0 goal
    writeAt ctx env ⟨.reference, target.mark⟩ target.name (.bool answer) type
    log (.queryResolved target.name answer)
    return .bool answer
  | e => raiseAt (.notAQuery e.kind) ⟨.boolQuery, m⟩

def elementTypeOf (m : Mark) : Ty :=
  match ctx.table.typeOf m with
  | .array t => t
  | _ => .void

def expression (env : Env) (e : Expr) : Eval Value := attach e.ref <| match e with
  | .int _ i => return .int i
  | .float _ x => return .float x
  | .string _ s => return .string s
  | .bool _ b => return .bool b
  | .null _ => return .null
  | .reference r => reference ctx env r
  | .constructor m name => constructor ctx m name
  | .array m elements => do
    let values ← expressions sub env elements
    return .array (← alloc (.array (values.map (·.widen (elementTypeOf ctx m))).toArray))
  | .field _ stem name => do fieldOf (← sub.expression env stem) name
  | .index _ array index => do
    let (o, i) ← access sub env array index
    getElement o i
  | .call _ callee arguments => do
    let f ← sub.expression env callee
    let args ← expressions sub env arguments
    call ctx sub env f args
  | .not _ operand => do
    match ← sub.expression env operand with
    | .bool b => return .bool (!b)
    | v => raise (.negationOf v.kind)
  | .binary _ op left right => binary ctx sub env op left right
  | .assign _ target value => assign ctx sub env target value
  | .paren _ inner => sub.expression env inner
  | .query m target question => query ctx sub env m target question
  | .placeholder _ name _ => raise (.strayPlaceholder name)
  | .logic (.atom _ name) => return .atom name
  | .logic goal => return .bool (← sub.resolve env 0 goal)

/-- The body of a rule, in a new frame under the frames the rule was declared in. -/
def resolveRule (env : Env) (depth : Nat) (r : Rule) (arguments : List Expr) : Eval Bool := do
  if fits ctx.table arguments r.decl.parameters then
    let args ← expressions sub env arguments
    let inner := (← push r.scope) :: r.env
    bindParameters ctx inner r.scope r.decl.parameters args
    sub.resolve inner (depth + 1) r.decl.body
  else return false

/-- The truth of a predicate. Facts are asked for each argument, and those count that the arguments
themselves have declared; a rule is asked for its body. A functor that means nothing is false. -/
def resolveCall (env : Env) (depth : Nat) (m : Mark) (functor : String) (arguments : List Expr) :
    Eval Bool := do
  let attributes := ctx.table.attributes m.id
  match attributes.decl, attributes.scope with
  | some _, some scope =>
    let machine ← get
    match machine.frameOf? env scope with
    | none => return false
    | some f =>
      match (machine.frame f).predicates.get? functor with
      | none => return false
      | some (.facts _) =>
        let args ← expressions sub env arguments
        return (((← get).frame f).predicates.get? functor).any (·.contains args)
      | some (.rule r) => resolveRule ctx sub env depth r arguments
  | _, _ => return false

def resolve (env : Env) (depth : Nat) (goal : Goal) : Eval Bool :=
  if ctx.maxDepth < depth then raiseAt .depthExceeded goal.ref
  else match goal with
  | .atom m _ => return (ctx.table.attributes m.id).decl.any (·.isAtom)
  | .call m functor arguments => resolveCall ctx sub env depth m functor arguments
  | .paren _ inner => sub.resolve env depth inner
  | .not _ operand => return !(← sub.resolve env depth operand)
  | .binary _ op left right => do
    let l ← sub.resolve env depth left
    let r ← sub.resolve env depth right
    return op.apply l r

def ground (env : Env) (functor : String) : List Expr → Eval (List Value)
  | [] => return []
  | e :: es => do
    if let .placeholder _ name _ := e.unwrap then
      raiseAt (.placeholderInFact functor name) e.ref
    let v ← sub.expression env e
    if v.kind = .void then raiseAt (.voidInFact functor) e.ref
    return v :: (← ground env functor es)

def declareFact (env : Env) (d : FactDecl) : Eval Unit := do
  let tuple ← ground sub env d.functor d.arguments
  let f ← storeFrame ctx env ⟨.factDeclaration, d.mark⟩
  changeStore f (·.addFact d.functor tuple)
  log (.factDeclared d.functor tuple.length)

def bindPlaceholder (env : Env) (m : Mark) (name : String) (e : Expr) : Eval Unit := do
  let node : NodeRef := ⟨.unboundParameter, m⟩
  let valueType := ctx.table.typeOf e.mark
  let slotType := ctx.table.typeOf m
  unless valueType.assignable slotType do
    raiseAt (.notBindable name slotType.name valueType.name) node
  let v ← sub.expression env e
  writeAt ctx env node name v slotType
  log (.bound name (← display v))

def matchValues (env : Env) (left right : Expr) : Eval Unit := do
  let leftType := ctx.table.typeOf left.mark
  let rightType := ctx.table.typeOf right.mark
  unless leftType.comparable rightType do
    raiseAt (.incomparable leftType.name rightType.name) right.ref
  let l ← sub.expression env left
  let r ← sub.expression env right
  unless l.numericEqual r do
    raiseAt (.valuesDiffer (← display l) (← display r)) right.ref

def unifyPosition (env : Env) (left right : Expr) : Eval Unit :=
  match left, right with
  | .placeholder m l _, .placeholder _ r _ => raiseAt (.bothUnbound l r) ⟨.unboundParameter, m⟩
  | .placeholder m name _, e => bindPlaceholder ctx sub env m name e
  | e, .placeholder m name _ => bindPlaceholder ctx sub env m name e
  | left, right => matchValues ctx sub env left right

def unifyAll (env : Env) : List Expr → List Expr → Eval Unit
  | l :: ls, r :: rs => do
    unifyPosition ctx sub env l r
    unifyAll env ls rs
  | _, _ => return

def unify (env : Env) (m : Mark) (left right : PredicateCall) : Eval Unit := do
  if left.functor ≠ right.functor then
    raiseAt (.functorsDiffer left.functor right.functor) ⟨.unification, m⟩
  if left.arguments.length ≠ right.arguments.length then
    raiseAt (.aritiesDiffer left.functor left.arguments.length right.arguments.length)
      ⟨.unification, m⟩
  unifyAll ctx sub env left.arguments right.arguments

/-- A variable without an initializer starts as null. -/
def initialValue (env : Env) : Option Expr → Eval Value
  | none => return .null
  | some e => sub.expression env e

def declareVar (env : Env) (d : VarDecl) : Eval Unit := do
  let v ← initialValue sub env d.initializer
  if v.kind = .void then raise (.voidInitializer d.name)
  writeAt ctx env ⟨.varDeclaration, d.mark⟩ d.name v (ctx.table.typeOf d.mark)

def holds (env : Env) (e : Expr) : Eval Bool := do
  match ← sub.expression env e with
  | .bool b => return b
  | v => raiseAt (.conditionNotBool v.kind) e.ref

/-- Statements one after the other, up to one that returns. -/
def statements (env : Env) : List Stmt → Eval Completion
  | [] => return .normal
  | s :: rest => do
    match ← sub.statement env s with
    | .normal => statements env rest
    | .returned v => return .returned v

def statement (env : Env) (s : Stmt) : Eval Completion := attach s.ref <| match s with
  | .block b => do
    let scope ← scopeOf ctx ⟨.block, b.mark⟩
    statements sub ((← push scope) :: env) b.statements
  | .expr _ e => do
    let _ ← sub.expression env e
    return .normal
  | .var d => do
    declareVar ctx sub env d
    return .normal
  | .function d => do
    writeAt ctx env ⟨.functionDeclaration, d.mark⟩ d.name (.function d) .void
    return .normal
  | .struct d => do
    writeAt ctx env ⟨.structDeclaration, d.mark⟩ d.name (.type d.name (some d)) .void
    return .normal
  | .cond _ condition yes no => do
    if ← holds sub env condition then sub.statement env yes
    else match no with
      | some s => sub.statement env s
      | none => return .normal
  | .loop _ condition (.block b) => do
    let scope ← scopeOf ctx ⟨.block, b.mark⟩
    let f ← push scope
    sub.rounds env condition (.block (f :: env) b)
  | .loop _ condition body => sub.rounds env condition (.statement body)
  | .ret _ none => return .returned .void
  | .ret _ (some e) => return .returned (← sub.expression env e)
  | .atom d => do
    declareAtom ctx env d
    return .normal
  | .fact d => do
    declareFact ctx sub env d
    return .normal
  | .rule d => do
    declareRule ctx env d
    return .normal
  | .unify m left right => do
    unify ctx sub env m left right
    return .normal

def round (env : Env) : LoopBody → Eval Completion
  | .block inner b => attach ⟨.block, b.mark⟩ (statements sub inner b.statements)
  | .statement s => sub.statement env s

def rounds (env : Env) (condition : Expr) (body : LoopBody) : Eval Completion := do
  if ← holds sub env condition then
    match ← round sub env body with
    | .normal => sub.rounds env condition body
    | .returned v => return .returned v
  else return .normal

/-- One step of evaluation, given how all else is evaluated. -/
def step : Evaluator where
  expression := expression ctx sub
  statement := statement ctx sub
  rounds := rounds sub
  resolve := resolve ctx sub

end Step

def exhausted : Evaluator where
  expression _ _ := throw .outOfFuel
  statement _ _ := throw .outOfFuel
  rounds _ _ _ := throw .outOfFuel
  resolve _ _ _ := throw .outOfFuel

/-- Steps nested no deeper than the fuel says. The steps inside a step are built when they are asked
for. -/
def evaluator (ctx : Context) : Nat → Evaluator
  | 0 => exhausted
  | fuel + 1 =>
    { expression := fun env e => (step ctx (evaluator ctx fuel)).expression env e
      statement := fun env s => (step ctx (evaluator ctx fuel)).statement env s
      rounds := fun env condition body =>
        (step ctx (evaluator ctx fuel)).rounds env condition body
      resolve := fun env depth goal => (step ctx (evaluator ctx fuel)).resolve env depth goal }

@[simp] theorem evaluator_zero (ctx : Context) : evaluator ctx 0 = exhausted := rfl

@[simp] theorem evaluator_succ (ctx : Context) (fuel : Nat) :
    evaluator ctx (fuel + 1) = step ctx (evaluator ctx fuel) := rfl

end Eval
end LogicScript
