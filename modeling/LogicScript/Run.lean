import LogicScript.Eval

/-! Runs of whole programs. -/
namespace LogicScript

/-- How a run ended, and what it left behind. A run that could not even begin has no root
frame. -/
structure Run where
  outcome : Except Halt Completion
  machine : Machine
  root : Option FrameId

/-- The value of a program that ended as told: what it returned, or nothing. -/
def Completion.value : Completion → Value
  | .normal => .void
  | .returned v => v

def Completion.isReturn : Completion → Bool
  | .normal => false
  | .returned _ => true

/-- The statements of a program in the root frame, and the report of the end. -/
def Program.execute (p : Program) (sub : Eval.Evaluator) (root : FrameId) : Eval Completion := do
  let done ← Eval.statements sub [root] p.statements
  Eval.log (.finished done.isReturn (← Eval.display done.value))
  return done

def Program.runBy (p : Program) (ctx : Context) (sub : Eval.Evaluator) : Run :=
  match (ctx.table.attributes p.mark.id).scope with
  | none => ⟨.error (.fault ⟨.rootWithoutScope, none⟩), {}, none⟩
  | some scope =>
    let (root, machine) := ({} : Machine).push scope
    match p.execute sub root machine with
    | .ok done machine => ⟨.ok done, machine, some root⟩
    | .error halt machine => ⟨.error halt, machine, some root⟩

def Program.run (p : Program) (ctx : Context) (fuel : Nat) : Run :=
  p.runBy ctx (Eval.evaluator ctx fuel)

def Run.evaluate (r : Run) (ctx : Context) (fuel : Nat) (root : FrameId) (e : Expr) :
    Except Halt Value × Run :=
  match (Eval.evaluator ctx fuel).expression [root] e r.machine with
  | .ok v machine => (.ok v, { r with machine })
  | .error halt machine => (.error halt, { r with machine })

end LogicScript
