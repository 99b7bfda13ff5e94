import LogicScript.Proofs.Termination

/-! What the limit on nested rule bodies changes.

Only a resolution looks at the limit. So two runs with different limits go on in lockstep until one
of them is cut off, and the one with the smaller limit is cut off first. -/
namespace LogicScript

open Eval

/-- Whether an evaluation was cut off by the limit on nested rule bodies or for want of fuel. -/
def Halt.isCut : Halt → Bool
  | .outOfFuel => true
  | .fault ⟨.depthExceeded, _⟩ => true
  | .fault _ => false

@[simp] theorem Halt.isCut_attach (f : Fault) (node : NodeRef) :
    (Halt.fault (f.attach node)).isCut = (Halt.fault f).isCut := by
  obtain ⟨cause, place⟩ := f
  cases cause <;> rfl

namespace Eval

section Table

variable (table : Table) (limit limit' : Nat)

theorem fillFields_limit : fillFields ⟨table, limit⟩ = fillFields ⟨table, limit'⟩ := by
  funext fields values filled
  induction fields generalizing values filled with
  | nil => rfl
  | cons field fields ih =>
    cases values with
    | nil => rfl
    | cons v values => exact ih values _

theorem bindParameters_limit : bindParameters ⟨table, limit⟩ = bindParameters ⟨table, limit'⟩ := by
  funext env scope parameters values
  induction parameters generalizing values with
  | nil => rfl
  | cons p parameters ih =>
    cases values with
    | nil => rfl
    | cons v values => simp only [bindParameters, ih values]; rfl

theorem unifyAll_limit : unifyAll ⟨table, limit⟩ = unifyAll ⟨table, limit'⟩ := by
  funext sub env left right
  induction left generalizing right with
  | nil => rfl
  | cons l left ih =>
    cases right with
    | nil => rfl
    | cons r right => simp only [unifyAll, ih right]; rfl

theorem call_limit : call ⟨table, limit⟩ = call ⟨table, limit'⟩ := by
  funext sub env callee values
  cases callee with
  | constructor d => simp only [call, construct, fillFields_limit table limit limit']
  | function d => simp only [call, callFunction, bindParameters_limit table limit limit']
  | _ => rfl

theorem expression_limit : expression ⟨table, limit⟩ = expression ⟨table, limit'⟩ := by
  funext sub env e
  cases e with
  | call mark callee arguments => simp only [expression, call_limit table limit limit']
  | logic goal => cases goal <;> rfl
  | _ => rfl

theorem statement_limit : statement ⟨table, limit⟩ = statement ⟨table, limit'⟩ := by
  funext sub env s
  cases s with
  | unify mark left right => simp only [statement, unify, unifyAll_limit table limit limit']
  | loop mark condition body => cases body <;> rfl
  | ret mark value => cases value <;> rfl
  | _ => rfl

theorem resolveCall_limit : resolveCall ⟨table, limit⟩ = resolveCall ⟨table, limit'⟩ := by
  funext sub env depth mark functor arguments
  simp only [resolveCall, resolveRule, bindParameters_limit table limit limit']

theorem resolve_limit {depth : Nat} (h : depth ≤ limit) (h' : depth ≤ limit') (sub : Evaluator)
    (env : Env) (goal : Goal) :
    resolve ⟨table, limit⟩ sub env depth goal = resolve ⟨table, limit'⟩ sub env depth goal := by
  simp only [resolve, Nat.not_lt.mpr h, Nat.not_lt.mpr h', if_false,
    resolveCall_limit table limit limit']

end Table

end Eval

/-- Only the limit may cut a run off, or fuel run out. -/
def limitContract : Contract :=
  .stopping (·.isCut = true) fun h => by rwa [Halt.isCut_attach]

theorem limitContract_permits : limitContract.Permits :=
  Contract.stopping_permits _ fun h => by rwa [Halt.isCut_attach]

namespace Contract

variable {table : Table} {limit limit' : Nat} {sub sub' : Evaluator}

/-- Of two steps with different limits, the one with the smaller limit is stopped by it, or else
does what the other one does as long as it is not stopped inside. -/
theorem Keeps.step_limit (hle : limit ≤ limit')
    (h : limitContract.Keeps (fun _ => True) sub sub') :
    limitContract.Keeps (fun _ => True) (Eval.step ⟨table, limit⟩ sub)
      (Eval.step ⟨table, limit'⟩ sub') := by
  have hstep : limitContract.Keeps (fun _ => True) (Eval.step ⟨table, limit'⟩ sub)
      (Eval.step ⟨table, limit'⟩ sub') := .step limitContract_permits h
  refine ⟨?_, ?_, hstep.rounds, fun m env depth goal => ?_⟩
  · rw [Eval.step, expression_limit table limit limit']
    exact hstep.expression
  · rw [Eval.step, statement_limit table limit limit']
    exact hstep.statement
  · have hgoal := hstep.resolve m env depth goal
    by_cases hdepth : depth ≤ limit
    · have hsame := resolve_limit table limit limit' hdepth (Nat.le_trans hdepth hle) sub env goal
      simp only [Eval.step, hsame]
      exact hgoal
    · have hcut : (Eval.step ⟨table, limit⟩ sub).resolve env depth goal =
          raiseAt .depthExceeded goal.ref := if_pos (Nat.lt_of_not_le hdepth)
      rw [hcut]
      exact hgoal.stopped rfl

/-- With a greater limit and more fuel, the evaluator does the same unless it was cut off. -/
theorem limitContract_evaluator (hle : limit ≤ limit') {fuel fuel' : Nat} (hfuel : fuel ≤ fuel') :
    limitContract.Keeps (fun _ => True) (evaluator ⟨table, limit⟩ fuel)
      (evaluator ⟨table, limit'⟩ fuel') := by
  induction fuel generalizing fuel' with
  | zero =>
    exact Keeps.exhausted rfl (limitContract_permits.keeps_evaluator (fun _ => trivial) _ fuel')
  | succ fuel ih =>
    obtain ⟨fuel', rfl⟩ : ∃ n, fuel' = n + 1 := ⟨fuel' - 1, by omega⟩
    exact .step_limit hle (ih (by omega))

end Contract

namespace Program

variable {p : Program} {table : Table}

/-- A run is the same with a greater limit and more fuel, or else it was cut off. -/
theorem run_limit {limit limit' fuel fuel' : Nat} (hle : limit ≤ limit') (hfuel : fuel ≤ fuel') :
    p.run ⟨table, limit⟩ fuel = p.run ⟨table, limit'⟩ fuel' ∨
      ∃ halt, (p.run ⟨table, limit⟩ fuel).outcome = .error halt ∧ halt.isCut = true := by
  have hkeeps : limitContract.Keeps (fun _ => True) (evaluator ⟨table, limit⟩ fuel)
      (evaluator ⟨table, limit'⟩ fuel') := Contract.limitContract_evaluator hle hfuel
  have hempty : limitContract.Compares (p.runBy ⟨table, limit⟩ (evaluator ⟨table, limit⟩ fuel))
      (p.runBy ⟨table, limit⟩ (evaluator ⟨table, limit'⟩ fuel')) :=
    hkeeps.runBy limitContract_permits trivial p
  rcases hempty.stopped with hsame | ⟨-, -, hcut⟩
  · exact .inl hsame
  · exact .inr hcut

/-- Raising the limit never changes a run that did not need it: a run with the smaller limit that
came to an end, with a value or with a fault that is not about the limit, is the run with the
greater one, in its outcome, its output and trace, its frames and its objects. -/
theorem run_of_greater_limit {limit limit' : Int} {fuel fuel' : Nat} (hpos : 0 < limit)
    (hle : limit ≤ limit') (hfuel : fuel ≤ fuel')
    (hends : ∀ halt, (p.run ⟨table, effectiveDepth limit⟩ fuel).outcome = .error halt →
      halt.isCut = false) :
    p.run ⟨table, effectiveDepth limit'⟩ fuel' = p.run ⟨table, effectiveDepth limit⟩ fuel := by
  have hdepth : effectiveDepth limit ≤ effectiveDepth limit' := by
    rw [effectiveDepth, effectiveDepth, if_pos hpos, if_pos (Int.lt_of_lt_of_le hpos hle)]
    exact Int.toNat_le_toNat hle
  have hruns : p.run ⟨table, effectiveDepth limit⟩ fuel = p.run ⟨table, effectiveDepth limit'⟩ fuel' ∨
      ∃ halt, (p.run ⟨table, effectiveDepth limit⟩ fuel).outcome = .error halt ∧ halt.isCut = true :=
    run_limit hdepth hfuel
  rcases hruns with hsame | ⟨halt, houtcome, hcut⟩
  · exact hsame.symm
  · rw [hends halt houtcome] at hcut
    cases hcut

theorem descending_with_greater_limit :
    descending.run ⟨(analyze descending).1, effectiveDepth 7⟩ 30 =
      descending.run ⟨(analyze descending).1, effectiveDepth 1⟩ 20 := by
  refine run_of_greater_limit (by decide) (by decide) (by decide) fun halt houtcome => ?_
  have hreturns : (descending.run ⟨(analyze descending).1, effectiveDepth 1⟩ 20).outcome.toOption.map
      Completion.isReturn = some true := by decide +kernel
  rw [houtcome] at hreturns
  cases hreturns

end Program

end LogicScript
