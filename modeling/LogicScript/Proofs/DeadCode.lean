import LogicScript.Proofs.Tidying.Lockstep

/-! Code behind a return is dead.

A return ends the statement list that it stands in, and every list, branch, loop and call around it
passes the value on. So the statements that follow a return in the same list can be cut off, in all
blocks and function bodies at once, and no run notices. -/
namespace LogicScript

open Eval

namespace Tidying

/-- What stands behind a return is cut off; all parentheses stay. -/
def pruning : Tidying := ⟨fun _ => false, true⟩

/-! Expressions hold no statements, so they stay as they are. -/

mutual

theorem expr_pruning (value : Bool) (e : Expr) : pruning.expr value e = e := by
  match e with
  | .array _ elements => rw [expr, exprs_pruning]
  | .field _ stem _ => rw [expr, expr_pruning]
  | .index _ array index => rw [expr, expr_pruning, expr_pruning]
  | .call _ callee arguments => rw [expr, expr_pruning, exprs_pruning]
  | .not _ operand => rw [expr, expr_pruning]
  | .binary _ _ left right => rw [expr, expr_pruning, expr_pruning]
  | .assign _ target value => rw [expr, expr_pruning, expr_pruning]
  | .paren _ inner =>
    rw [expr, expr_pruning]
    simp [pruning]
  | .query _ _ question => rw [expr, expr_pruning]
  | .logic goal => rw [expr, goal_pruning]
  | .int _ _ | .float _ _ | .string _ _ | .bool _ _ | .null _ | .reference _ | .constructor _ _
  | .placeholder _ _ _ => rw [expr]

theorem exprs_pruning (value : Bool) (es : List Expr) : pruning.exprs value es = es := by
  match es with
  | [] => rw [exprs]
  | e :: es => rw [exprs, expr_pruning, exprs_pruning]

theorem goal_pruning (g : Goal) : pruning.goal g = g := by
  match g with
  | .atom _ _ => rw [goal]
  | .call _ _ arguments => rw [goal, exprs_pruning]
  | .paren _ inner => rw [goal, goal_pruning]
  | .not _ operand => rw [goal, goal_pruning]
  | .binary _ _ left right => rw [goal, goal_pruning, goal_pruning]

end

theorem var_pruning (d : VarDecl) : pruning.var d = d := by
  obtain ⟨m, name, type, initializer⟩ := d
  cases initializer <;> simp [var, expr_pruning]

theorem fact_pruning (d : FactDecl) : pruning.fact d = d := by rw [fact, exprs_pruning]

theorem rule_pruning (d : RuleDecl) : pruning.rule d = d := by rw [rule, goal_pruning]

theorem call_pruning (p : PredicateCall) : pruning.call p = p := by rw [call, exprs_pruning]

theorem isReturn_stmt (k : Tidying) (s : Stmt) : (k.stmt s).isReturn = s.isReturn := by
  cases s with
  | cond m condition yes no => rw [stmt_cond]; rfl
  | block b => rw [stmt_block]; rfl
  | function d => rw [stmt_function]; rfl
  | _ => simp only [stmt, Stmt.isReturn]

theorem stmts_behind_return {before rest : List Stmt} {s : Stmt} (hs : s.isReturn = true)
    (hbefore : ∀ s' ∈ before, s'.isReturn = false) :
    pruning.stmts (before ++ s :: rest) = before.map pruning.stmt ++ [pruning.stmt s] := by
  induction before with
  | nil =>
    rw [List.nil_append, stmts, hs]
    rfl
  | cons s' before ih =>
    simp only [List.forall_mem_cons] at hbefore
    rw [List.cons_append, stmts, hbefore.1, ih hbefore.2]
    rfl

theorem stmts_without_return {ss : List Stmt} (hss : ∀ s ∈ ss, s.isReturn = false) :
    pruning.stmts ss = ss.map pruning.stmt := by
  induction ss with
  | nil => rw [stmts, List.map_nil]
  | cons s ss ih =>
    simp only [List.forall_mem_cons] at hss
    rw [stmts, hss.1, ih hss.2]
    rfl

mutual

theorem stmt_pruning (s : Stmt) : pruning.stmt (pruning.stmt s) = pruning.stmt s := by
  match s with
  | .block ⟨m, body⟩ => rw [stmt, stmt, stmts_pruning]
  | .expr _ e => rw [stmt, stmt, expr_pruning, expr_pruning]
  | .var d => rw [stmt, stmt, var_pruning, var_pruning]
  | .function ⟨m, name, parameters, returnType, ⟨block, body⟩⟩ => rw [stmt, stmt, stmts_pruning]
  | .struct d => rw [stmt, stmt]
  | .cond _ condition yes none =>
    rw [stmt, stmt, expr_pruning, expr_pruning, stmt_pruning]
  | .cond _ condition yes (some no) =>
    rw [stmt, stmt, expr_pruning, expr_pruning, stmt_pruning, stmt_pruning]
  | .loop _ condition body => rw [stmt, stmt, expr_pruning, expr_pruning, stmt_pruning]
  | .ret m value => cases value <;> simp [stmt, expr_pruning]
  | .atom d => rw [stmt, stmt]
  | .fact d => rw [stmt, stmt, fact_pruning, fact_pruning]
  | .rule d => rw [stmt, stmt, rule_pruning, rule_pruning]
  | .unify _ left right => rw [stmt, stmt, call_pruning, call_pruning, call_pruning, call_pruning]

theorem stmts_pruning (ss : List Stmt) :
    pruning.stmts (pruning.stmts ss) = pruning.stmts ss := by
  match ss with
  | [] => rw [stmts, stmts]
  | s :: rest =>
    rw [stmts, stmts, isReturn_stmt, stmt_pruning]
    cases s.isReturn with
    | true => rfl
    | false => exact congrArg _ (stmts_pruning rest)

end

/-- Two runs that print the same, end the same way and leave the same machine behind, whatever stands
behind a return in the functions that they hold. -/
structure Same (k : Tidying) (r r' : Run) : Prop where
  output : r'.machine.output = r.machine.output
  ending : r'.ending.map k.completion = r.ending.map k.completion
  machine : k.machine r'.machine = k.machine r.machine
  root : r'.root = r.root

theorem Turns.same {k : Tidying} {r r' s : Run} (h : k.Turns r s) (h' : k.Turns r' s) :
    k.Same r r' where
  output := h'.output.symm.trans h.output
  ending := h'.ending.symm.trans h.ending
  machine := h'.machine.symm.trans h.machine
  root := h'.root.symm.trans h.root

end Tidying

namespace Program

/-- The program without the statements that follow a return in the same list. -/
def pruned (p : Program) : Program := Tidying.pruning.program p

theorem pruned_pruned (p : Program) : p.pruned.pruned = p.pruned := by
  unfold pruned Tidying.program
  rw [Tidying.stmts_pruning]

/-- A run of the program with dead code goes on like a run without. Functions are known from the
tables, too, so the tables are pruned with the program. -/
theorem pruned_turns (p : Program) (t : Table) (limit fuel : Nat) :
    Tidying.pruning.Turns (p.run ⟨t, limit⟩ fuel)
      (p.pruned.run ⟨Tidying.pruning.table t, limit⟩ fuel) := by
  let c : Comparison := { Tidying.pruning with stays := fun _ => True, early := False, late := False }
  have hstays : ∀ nodes, c.Stays nodes := fun _ _ _ => trivial
  have hfits : c.Fits ⟨t, limit⟩ ⟨Tidying.pruning.table t, limit⟩ := {
    limit := rfl
    attributes := fun id _ => Tidying.attributes_table t id
    text := fun i => by
      show (Tidying.pruning.scopes t.scopes |>.get i).text = _
      rw [Tidying.get_scopes]
      rfl
    dropped := fun _ _ hdrops => nomatch hdrops
    known := fun _ d _ _ => by
      cases d <;> first | exact hstays _ | exact fun _ _ => trivial }
  have hmirrored := Comparison.Mirrored.evaluator hfits (fun _ => rfl) fuel
  rcases hmirrored.run hfits (hstays _) with ⟨hnot, -⟩ | ⟨hnot, -⟩ | hturns
  · exact hnot.elim
  · exact hnot.elim
  · exact hturns

/-- Code behind a return is dead: with the statements cut off that follow a return in the same list,
in all blocks and function bodies, a program prints the same, returns the same value or fails with the
same fault, and leaves the same frames behind. This is so with the tables of the whole program, by
which whole functions may be called, and with its tables pruned. -/
theorem dead_behind_return (p : Program) (t : Table) (limit fuel : Nat) :
    Tidying.pruning.Same (p.run ⟨t, limit⟩ fuel) (p.pruned.run ⟨t, limit⟩ fuel) ∧
      Tidying.pruning.Turns (p.run ⟨t, limit⟩ fuel)
        (p.pruned.run ⟨Tidying.pruning.table t, limit⟩ fuel) := by
  have hpruned := p.pruned.pruned_turns t limit fuel
  rw [pruned_pruned] at hpruned
  exact ⟨(p.pruned_turns t limit fuel).same hpruned, p.pruned_turns t limit fuel⟩

end Program

end LogicScript
