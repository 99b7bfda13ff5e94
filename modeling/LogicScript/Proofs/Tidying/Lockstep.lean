import LogicScript.Proofs.Completeness
import LogicScript.Proofs.Tidying.Agreement

/-! A program and the same program tidied run in lockstep.

Where parentheses are taken away, the first run makes one step more. All other steps agree as long as
what they ask for agrees. So the two runs agree with the same fuel if no parentheses are taken away;
otherwise it is told how much fuel the one run needs for what the other one does. -/
namespace LogicScript

open Eval

def Tidying.loopBody (k : Tidying) : LoopBody → LoopBody
  | .block env b => .block env (k.block b)
  | .statement s => .statement (k.stmt s)

/-- The number of parentheses around an expression. -/
def Expr.wraps : Expr → Nat
  | .paren _ inner => inner.wraps + 1
  | _ => 0

namespace Comparison

variable {c : Comparison} {sub sub' : Evaluator} {ctx ctx' : Context} {env : Env}

/-- What a statement returns; one that returns does so whenever it comes to an end. -/
structure Finishes (c : Comparison) (s : Stmt) (done : Completion) : Prop where
  owned : done.All c.Owns
  returns : s.isReturn = true → done.isReturn = true

/-- Two evaluators agree on whatever is asked of the one, and tidied of the other. -/
structure Mirrored (c : Comparison) (sub sub' : Evaluator) : Prop where
  expression : ∀ env {e value}, c.Stays (c.expr value e).nodes →
    c.Agrees c.value c.Owns (sub.expression env e) (sub'.expression env (c.expr value e))
  statement : ∀ env {s}, c.Stays (c.stmt s).nodes →
    c.Agrees c.completion (c.Finishes s) (sub.statement env s) (sub'.statement env (c.stmt s))
  rounds : ∀ env {condition body}, c.Stays (c.expr true condition).nodes →
    c.Stays (c.loopBody body).nodes →
    c.Agrees c.completion (·.All c.Owns) (sub.rounds env condition body)
      (sub'.rounds env (c.expr true condition) (c.loopBody body))
  resolve : ∀ env depth {g}, c.Stays (c.goal g).nodes →
    c.Agrees id (fun _ => True) (sub.resolve env depth g) (sub'.resolve env depth (c.goal g))

section Positions

variable {m : Mark} {name : String} {type : TypeExpr} {e left right : Expr}

theorem unifyPosition_left (he : ∀ m name type, e ≠ .placeholder m name type) :
    unifyPosition ctx sub env (.placeholder m name type) e =
      bindPlaceholder ctx sub env m name e := by
  cases e <;> first | rfl | exact absurd rfl (he _ _ _)

theorem unifyPosition_right (he : ∀ m name type, e ≠ .placeholder m name type) :
    unifyPosition ctx sub env e (.placeholder m name type) =
      bindPlaceholder ctx sub env m name e := by
  cases e <;> first | rfl | exact absurd rfl (he _ _ _)

theorem unifyPosition_values (hl : ∀ m name type, left ≠ .placeholder m name type)
    (hr : ∀ m name type, right ≠ .placeholder m name type) :
    unifyPosition ctx sub env left right = matchValues ctx sub env left right := by
  unfold unifyPosition
  split
  · exact absurd rfl (hl _ _ _)
  · exact absurd rfl (hl _ _ _)
  · exact absurd rfl (hr _ _ _)
  · rfl

end Positions

namespace Mirrored

section Expressions

variable (h : c.Mirrored sub sub') (fit : c.Fits ctx ctx')
include h

theorem expressions {es : List Expr} {value : Bool}
    (hes : c.Stays (Expr.nodesOfList (c.exprs value es))) :
    c.Agrees (List.map c.value) (fun vs => ∀ v ∈ vs, c.Owns v) (expressions sub env es)
      (expressions sub' env (c.exprs value es)) := by
  induction es with
  | nil =>
    rw [Tidying.exprs]
    exact .pure (by simp) rfl
  | cons e es ih =>
    rw [Tidying.exprs, Expr.nodesOfList, stays_append] at hes
    rw [Tidying.exprs]
    refine (h.expression env hes.1).bind fun v hv => (ih hes.2).bind fun vs hvs => ?_
    exact .pure (by simpa using ⟨hv, hvs⟩) rfl

theorem access {array index : Expr} (ha : c.Stays (c.expr true array).nodes)
    (hi : c.Stays (c.expr true index).nodes) :
    c.Agrees id (fun _ => True) (access sub env array index)
      (access sub' env (c.expr true array) (c.expr true index)) :=
  (h.expression env ha).bind fun _ _ => (h.expression env hi).bind fun _ _ => .element

theorem truth {e : Expr} (he : c.Stays (c.expr true e).nodes) :
    c.Agrees id (fun _ => True) (truth sub env e) (truth sub' env (c.expr true e)) := by
  refine (h.expression env he).bind fun v _ => ?_
  cases v <;> first | exact .pure trivial rfl | exact .raise

theorem holds {e : Expr} (he : c.Stays (c.expr true e).nodes) :
    c.Agrees id (fun _ => True) (holds sub env e) (holds sub' env (c.expr true e)) := by
  refine (h.expression env he).bind fun v _ => ?_
  cases v <;> first | exact .pure trivial rfl | exact .raiseAt

include fit

theorem callFunction {d : FunctionDecl} {args : List Value} (hd : c.Knows (.function d))
    (hargs : ∀ v ∈ args, c.Owns v) :
    c.Agrees c.value c.Owns (callFunction ctx sub env d args)
      (callFunction ctx' sub' env (c.function d) (args.map c.value)) := by
  obtain ⟨hmark, hparameters, hbody⟩ := hd.function
  have hscope : (ctx'.table.attributes (c.function d).mark.id).bodyScope =
      (ctx.table.attributes d.mark.id).bodyScope := fit.bodyScope hmark
  have htype : ctx'.table.typeOf (c.function d).mark = ctx.table.typeOf d.mark := fit.typeOf hmark
  unfold Eval.callFunction
  rw [hscope, htype, List.length_map]
  refine Agrees.arity.bind fun _ _ => ?_
  cases (ctx.table.attributes d.mark.id).bodyScope with
  | none => exact .raise
  | some scope =>
    refine Agrees.push.bind fun f _ => (Agrees.bindParameters fit hparameters hargs).bind
      fun _ _ => Agrees.log.bind fun _ _ => ?_
    have hrun := h.statement (callEnv env f) hbody
    rw [Tidying.stmt_block] at hrun
    refine hrun.bind fun done hdone => ?_
    cases done with
    | normal => exact .pure trivial rfl
    | returned v =>
      simp only [Tidying.completion]
      split
      · exact .pure (Owns.widen hdone.owned _) (Tidying.widen_value v _).symm
      · exact .pure hdone.owned rfl

theorem call {callee : Value} {args : List Value} (hcallee : c.Owns callee)
    (hargs : ∀ v ∈ args, c.Owns v) :
    c.Agrees c.value c.Owns (call ctx sub env callee args)
      (call ctx' sub' env (c.value callee) (args.map c.value)) := by
  cases callee with
  | native name => exact .native
  | constructor d => exact .construct fit hcallee hargs
  | function d => exact h.callFunction fit hcallee hargs
  | _ => exact .raise

theorem binary {op : BinaryOp} {left right : Expr} (hl : c.Stays (c.expr true left).nodes)
    (hr : c.Stays (c.expr true right).nodes) :
    c.Agrees c.value c.Owns (binary ctx sub env op left right)
      (binary ctx' sub' env op (c.expr true left) (c.expr true right)) := by
  have hstrict : ∀ op : BinaryOp, c.Agrees c.value c.Owns
      (do
        let l ← sub.expression env left
        let r ← sub.expression env right
        operate op (ctx.table.typeOf left.mark) (ctx.table.typeOf right.mark) l r)
      (do
        let l ← sub'.expression env (c.expr true left)
        let r ← sub'.expression env (c.expr true right)
        operate op (ctx'.table.typeOf (c.expr true left).mark)
          (ctx'.table.typeOf (c.expr true right).mark) l r) := by
    intro op
    rw [fit.typeOf_expr hl, fit.typeOf_expr hr]
    exact (h.expression env hl).bind fun l _ => (h.expression env hr).bind fun r _ => .operate
  cases op with
  | and =>
    refine (h.truth hl).bind fun b _ => ?_
    cases b with
    | true => exact (h.truth hr).bind fun b _ => .pure trivial rfl
    | false => exact .pure trivial rfl
  | or =>
    refine (h.truth hl).bind fun b _ => ?_
    cases b with
    | true => exact .pure trivial rfl
    | false => exact (h.truth hr).bind fun b _ => .pure trivial rfl
  | _ => exact hstrict _

theorem assign {target value : Expr} (ht : c.Stays (c.expr false target).nodes)
    (hv : c.Stays (c.expr true value).nodes) :
    c.Agrees c.value c.Owns (assign ctx sub env target value)
      (assign ctx' sub' env (c.expr false target) (c.expr true value)) := by
  cases target with
  | reference r =>
    rw [Tidying.expr] at ht ⊢
    have hmark : c.stays r.mark.id := ht.expr
    have hassignable : ((ctx'.table.attributes r.mark.id).decl.any (·.isAssignable)) =
        ((ctx.table.attributes r.mark.id).decl.any (·.isAssignable)) := by
      rw [fit.decl hmark]
      cases (ctx.table.attributes r.mark.id).decl with
      | none => rfl
      | some d => cases d <;> rfl
    unfold Eval.assign
    dsimp only
    rw [hassignable, fit.typeOf hmark]
    refine (h.expression env hv).bind fun v hv => ?_
    split
    · have hnode : c.stays (⟨.reference, r.mark⟩ : NodeRef).mark.id := hmark
      exact (Agrees.writeAt fit hnode hv).bind fun _ _ =>
        .pure (hv.widen _) (Tidying.widen_value v _).symm
    · exact .raise_bind
  | index m array index =>
    rw [Tidying.expr] at ht ⊢
    have hmark : c.stays m.id := ht.expr
    simp only [Expr.nodes, stays_cons, stays_append] at ht
    unfold Eval.assign
    dsimp only
    rw [fit.typeOf hmark]
    refine (h.access ht.2.1 ht.2.2).bind fun q _ => (h.expression env hv).bind fun v hv => ?_
    rw [Tidying.widen_value]
    exact (Agrees.setElement (hv.widen _)).bind fun _ _ => .pure (hv.widen _) rfl
  | field m stem name =>
    rw [Tidying.expr] at ht ⊢
    have hmark : c.stays m.id := ht.expr
    simp only [Expr.nodes, stays_cons] at ht
    unfold Eval.assign
    dsimp only
    rw [fit.typeOf hmark]
    refine (h.expression env ht.2).bind fun s _ => (h.expression env hv).bind fun v hv => ?_
    rw [Tidying.widen_value]
    exact (Agrees.setField (hv.widen _)).bind fun _ _ => .pure (hv.widen _) rfl
  | paren m inner =>
    rw [Tidying.expr]
    exact .raise
  | logic goal =>
    rw [Tidying.expr]
    cases goal <;> rw [Tidying.goal] <;> exact .raise
  | _ =>
    rw [Tidying.expr]
    exact .raise

theorem query {m : Mark} {target : Reference} {question : Expr} (ht : c.stays target.mark.id)
    (hq : c.Stays (c.expr false question).nodes) :
    c.Agrees c.value c.Owns (query ctx sub env m target question)
      (query ctx' sub' env m target (c.expr false question)) := by
  cases question with
  | logic goal =>
    rw [Tidying.expr] at hq ⊢
    rw [Expr.nodes] at hq
    unfold Eval.query
    dsimp only
    rw [fit.typeOf ht]
    split
    · have hnode : c.stays (⟨.reference, target.mark⟩ : NodeRef).mark.id := ht
      refine (h.resolve env 0 hq).bind fun answer _ => ?_
      refine (Agrees.writeAt (v := .bool answer) fit hnode trivial).bind fun _ _ => ?_
      exact Agrees.log.bind fun _ _ => .pure trivial rfl
    · exact .raiseAt_bind
  | _ =>
    rw [Tidying.expr]
    exact .raiseAt

theorem kept_expression {e : Expr} (he : c.Stays (c.expr false e).nodes) :
    c.Agrees c.value c.Owns (Eval.expression ctx sub env e)
      (Eval.expression ctx' sub' env (c.expr false e)) := by
  have hmark := he.expr
  rw [Tidying.mark_expr_false] at hmark
  cases e with
  | reference r =>
    rw [Tidying.expr]
    exact .attach (.reference fit hmark)
  | constructor m name =>
    rw [Tidying.expr]
    exact .attach (.constructor fit hmark)
  | array m elements =>
    rw [Tidying.expr] at he ⊢
    simp only [Expr.nodes, stays_cons] at he
    refine .attach ((h.expressions he.2).bind fun values hvalues => ?_)
    have helement : elementTypeOf ctx' m = elementTypeOf ctx m := by
      have htype : ctx'.table.typeOf m = ctx.table.typeOf m := fit.typeOf hmark
      unfold elementTypeOf
      rw [htype]
    have hobject : c.object (.array (values.map (·.widen (elementTypeOf ctx m))).toArray) =
        .array ((values.map c.value).map (·.widen (elementTypeOf ctx' m))).toArray := by
      simp [Tidying.object, helement, Function.comp_def]
    rw [← hobject]
    refine (Agrees.alloc ?_).bind fun o _ => .pure trivial rfl
    intro v hv
    simp only [List.mem_toArray, List.mem_map] at hv
    obtain ⟨w, hw, rfl⟩ := hv
    exact (hvalues w hw).widen _
  | field m stem name =>
    rw [Tidying.expr] at he ⊢
    simp only [Expr.nodes, stays_cons] at he
    exact .attach ((h.expression env he.2).bind fun _ _ => .fieldOf)
  | index m array index =>
    rw [Tidying.expr] at he ⊢
    simp only [Expr.nodes, stays_cons, stays_append] at he
    exact .attach ((h.access he.2.1 he.2.2).bind fun _ _ => .getElement)
  | call m callee arguments =>
    rw [Tidying.expr] at he ⊢
    simp only [Expr.nodes, stays_cons, stays_append] at he
    exact .attach ((h.expression env he.2.1).bind fun f hf =>
      (h.expressions he.2.2).bind fun args hargs => h.call fit hf hargs)
  | not m operand =>
    rw [Tidying.expr] at he ⊢
    simp only [Expr.nodes, stays_cons] at he
    refine .attach ((h.expression env he.2).bind fun v _ => ?_)
    cases v <;> first | exact .pure trivial rfl | exact .raise
  | binary m op left right =>
    rw [Tidying.expr] at he ⊢
    simp only [Expr.nodes, stays_cons, stays_append] at he
    exact .attach (h.binary fit he.2.1 he.2.2)
  | assign m target value =>
    rw [Tidying.expr] at he ⊢
    simp only [Expr.nodes, stays_cons, stays_append] at he
    exact .attach (h.assign fit he.2.1 he.2.2)
  | paren m inner =>
    rw [Tidying.expr] at he ⊢
    simp only [Bool.false_and, Bool.false_eq_true, if_false, Expr.nodes, stays_cons] at he ⊢
    exact .attach (h.expression env he.2)
  | query m target question =>
    rw [Tidying.expr] at he ⊢
    simp only [Expr.nodes, stays_cons] at he
    exact .attach (h.query fit he.2.1 he.2.2)
  | logic goal =>
    rw [Tidying.expr] at he ⊢
    rw [Expr.nodes] at he
    refine .attach ?_
    have hanswer : c.Agrees c.value c.Owns (sub.resolve env 0 goal >>= fun b => pure (.bool b))
        (sub'.resolve env 0 (c.goal goal) >>= fun b => pure (.bool b)) :=
      (h.resolve env 0 he).bind fun b _ => .pure trivial rfl
    cases goal with
    | atom m name =>
      rw [Tidying.goal]
      exact .pure trivial rfl
    | _ =>
      rw [Tidying.goal] at hanswer ⊢
      exact hanswer
  | placeholder m name type =>
    rw [Tidying.expr]
    exact .attach .raise
  | _ =>
    rw [Tidying.expr]
    exact .attach (.pure trivial rfl)

end Expressions

section Goals

variable (h : c.Mirrored sub sub') (fit : c.Fits ctx ctx')
include fit

theorem fits {arguments : List Expr} {parameters : List Parameter}
    (harguments : c.Stays (Expr.nodesOfList (c.exprs true arguments)))
    (hparameters : ∀ p ∈ parameters, c.stays p.mark.id) :
    Eval.fits ctx'.table (c.exprs true arguments) parameters =
      Eval.fits ctx.table arguments parameters := by
  induction arguments generalizing parameters with
  | nil =>
    rw [Tidying.exprs]
    cases parameters <;> rfl
  | cons e es ih =>
    rw [Tidying.exprs, Expr.nodesOfList, stays_append] at harguments
    rw [Tidying.exprs]
    cases parameters with
    | nil => rfl
    | cons p ps =>
      simp only [List.forall_mem_cons] at hparameters
      rw [Eval.fits, Eval.fits, fit.typeOf_expr harguments.1, fit.typeOf hparameters.1,
        ih harguments.2 hparameters.2]

include h

theorem resolveRule {depth : Nat} {r : Rule} {arguments : List Expr}
    (hr : c.Stays (Stmt.rule (c.rule r.decl)).nodes)
    (harguments : c.Stays (Expr.nodesOfList (c.exprs true arguments))) :
    c.Agrees id (fun _ => True) (resolveRule ctx sub env depth r arguments)
      (resolveRule ctx' sub' env depth (c.registered r) (c.exprs true arguments)) := by
  obtain ⟨hparameters, hbody⟩ := hr.rule
  have hfits : Eval.fits ctx'.table (c.exprs true arguments) (c.registered r).decl.parameters =
      Eval.fits ctx.table arguments r.decl.parameters := fits fit harguments hparameters
  unfold Eval.resolveRule
  rw [hfits]
  split
  · refine (h.expressions harguments).bind fun args hargs => Agrees.push.bind fun f _ => ?_
    exact (Agrees.bindParameters fit hparameters hargs).bind fun _ _ => h.resolve _ _ hbody
  · exact .pure trivial rfl

theorem resolveCall {depth : Nat} {m : Mark} {functor : String} {arguments : List Expr}
    (hm : c.stays m.id) (harguments : c.Stays (Expr.nodesOfList (c.exprs true arguments))) :
    c.Agrees id (fun _ => True) (resolveCall ctx sub env depth m functor arguments)
      (resolveCall ctx' sub' env depth m functor (c.exprs true arguments)) := by
  unfold Eval.resolveCall
  dsimp only
  rw [fit.decl hm, fit.scope hm]
  cases (ctx.table.attributes m.id).decl with
  | none => exact .pure trivial rfl
  | some d =>
    cases (ctx.table.attributes m.id).scope with
    | none => exact .pure trivial rfl
    | some scope =>
      refine .get_bind fun machine howned => ?_
      rw [Tidying.frameOf?_machine]
      cases machine.frameOf? env scope with
      | none => exact .pure trivial rfl
      | some f =>
        dsimp only
        rw [Tidying.frame_machine, Tidying.frame, Tidying.get?_store]
        cases hentry : (machine.frame f).predicates.get? functor with
        | none => exact .pure trivial rfl
        | some e =>
          cases e with
          | facts tuples =>
            refine (h.expressions harguments).bind fun args _ => .get_bind fun machine _ => ?_
            refine .pure trivial ?_
            rw [Tidying.frame_machine, Tidying.frame, Tidying.get?_store]
            cases (machine.frame f).predicates.get? functor with
            | none => rfl
            | some e => exact (Tidying.contains_entry e args).symm
          | rule r => exact h.resolveRule fit (howned.rules f functor r hentry) harguments

theorem kept_goal {depth : Nat} {g : Goal} (hg : c.Stays (c.goal g).nodes) :
    c.Agrees id (fun _ => True) (Eval.resolve ctx sub env depth g)
      (Eval.resolve ctx' sub' env depth (c.goal g)) := by
  unfold Eval.resolve
  rw [fit.limit]
  split
  · exact .raiseAt
  · cases g with
    | atom m name =>
      rw [Tidying.goal] at hg ⊢
      refine .pure trivial ?_
      have hm : c.stays m.id := hg _ (Goal.self_mem_nodes _)
      rw [fit.decl hm]
      cases (ctx.table.attributes m.id).decl with
      | none => rfl
      | some d => cases d <;> rfl
    | call m functor arguments =>
      rw [Tidying.goal] at hg ⊢
      simp only [Goal.nodes, stays_cons] at hg
      exact h.resolveCall fit hg.1 hg.2
    | paren m inner =>
      rw [Tidying.goal] at hg ⊢
      simp only [Goal.nodes, stays_cons] at hg
      exact h.resolve _ _ hg.2
    | not m operand =>
      rw [Tidying.goal] at hg ⊢
      simp only [Goal.nodes, stays_cons] at hg
      exact (h.resolve _ _ hg.2).bind fun _ _ => .pure trivial rfl
    | binary m op left right =>
      rw [Tidying.goal] at hg ⊢
      simp only [Goal.nodes, stays_cons, stays_append] at hg
      exact (h.resolve _ _ hg.2.1).bind fun _ _ => (h.resolve _ _ hg.2.2).bind fun _ _ =>
        .pure trivial rfl

end Goals

section Statements

variable (h : c.Mirrored sub sub') (fit : c.Fits ctx ctx')
include h

theorem ground {functor : String} {es : List Expr}
    (hes : c.Stays (Expr.nodesOfList (c.exprs true es))) :
    c.Agrees (List.map c.value) (fun vs => ∀ v ∈ vs, c.Owns v) (ground sub env functor es)
      (ground sub' env functor (c.exprs true es)) := by
  induction es with
  | nil =>
    rw [Tidying.exprs]
    exact .pure (by simp) rfl
  | cons e es ih =>
    rw [Tidying.exprs, Expr.nodesOfList, stays_append] at hes
    rw [Tidying.exprs, Eval.ground, Eval.ground, Tidying.unwrap_expr]
    have hvalues : c.Agrees (List.map c.value) (fun vs => ∀ v ∈ vs, c.Owns v)
        (do
          let v ← sub.expression env e
          if v.kind = .void then raiseAt (.voidInFact functor) e.ref
          return v :: (← Eval.ground sub env functor es))
        (do
          let v ← sub'.expression env (c.expr true e)
          if v.kind = .void then raiseAt (.voidInFact functor) (c.expr true e).ref
          return v :: (← Eval.ground sub' env functor (c.exprs true es))) := by
      refine (h.expression env hes.1).bind fun v hv => ?_
      dsimp only
      rw [Tidying.kind_value]
      split
      · exact .raiseAt_bind
      · exact (ih hes.2).bind fun vs hvs => .pure (by simpa using ⟨hv, hvs⟩) rfl
    cases e.unwrap with
    | placeholder m name type =>
      rw [Tidying.expr]
      exact .raiseAt_bind
    | _ =>
      rw [Tidying.expr]
      exact hvalues

include fit

theorem declareFact {d : FactDecl} (hd : c.Stays (Stmt.fact (c.fact d)).nodes) :
    c.Agrees id (fun _ => True) (declareFact ctx sub env d)
      (declareFact ctx' sub' env (c.fact d)) := by
  have hnode : c.stays (⟨.factDeclaration, d.mark⟩ : NodeRef).mark.id := hd.stmt
  simp only [Stmt.nodes, FactDecl.nodes, stays_cons] at hd
  refine (h.ground hd.2).bind fun tuple _ => (Agrees.storeFrame fit hnode).bind fun f _ => ?_
  refine (Agrees.changeStore (fun s => Tidying.addFact_store s d.functor tuple)
    fun m store hm hs => hm.rules.addFact hs).bind fun _ _ => ?_
  rw [List.length_map]
  exact .log

theorem bindPlaceholder {m : Mark} {name : String} {e : Expr} (hm : c.stays m.id)
    (he : c.Stays (c.expr false e).nodes) :
    c.Agrees id (fun _ => True) (bindPlaceholder ctx sub env m name e)
      (bindPlaceholder ctx' sub' env m name (c.expr false e)) := by
  have hnode : c.stays (⟨.unboundParameter, m⟩ : NodeRef).mark.id := hm
  unfold Eval.bindPlaceholder
  dsimp only
  rw [fit.typeOf_expr he, fit.typeOf hm]
  split
  · refine (h.expression env he).bind fun v hv => (Agrees.writeAt fit hnode hv).bind fun _ _ => ?_
    exact Agrees.display.bind fun text _ => .log
  · exact .raiseAt_bind

theorem matchValues {left right : Expr} (hl : c.Stays (c.expr false left).nodes)
    (hr : c.Stays (c.expr false right).nodes) :
    c.Agrees id (fun _ => True) (matchValues ctx sub env left right)
      (matchValues ctx' sub' env (c.expr false left) (c.expr false right)) := by
  unfold Eval.matchValues
  dsimp only
  rw [fit.typeOf_expr hl, fit.typeOf_expr hr]
  split
  · refine (h.expression env hl).bind fun l _ => (h.expression env hr).bind fun r _ => ?_
    rw [Tidying.numericEqual_value]
    split
    · exact .pure trivial rfl
    · exact Agrees.display.bind fun s _ => Agrees.display.bind fun t _ => .raiseAt
  · exact .raiseAt_bind

theorem unifyPosition {left right : Expr} (hl : c.Stays (c.expr false left).nodes)
    (hr : c.Stays (c.expr false right).nodes) :
    c.Agrees id (fun _ => True) (unifyPosition ctx sub env left right)
      (unifyPosition ctx' sub' env (c.expr false left) (c.expr false right)) := by
  by_cases hleft : ∃ m name type, left = .placeholder m name type
  · obtain ⟨m, name, type, rfl⟩ := hleft
    have hmark : c.stays m.id := by
      rw [Tidying.expr] at hl
      exact hl.expr
    rw [Tidying.expr]
    by_cases hright : ∃ m name type, right = .placeholder m name type
    · obtain ⟨m', name', type', rfl⟩ := hright
      rw [Tidying.expr]
      exact .raiseAt
    · simp only [not_exists] at hright
      rw [unifyPosition_left hright, unifyPosition_left (Tidying.expr_ne_placeholder hright)]
      exact h.bindPlaceholder fit hmark hr
  · simp only [not_exists] at hleft
    by_cases hright : ∃ m name type, right = .placeholder m name type
    · obtain ⟨m, name, type, rfl⟩ := hright
      have hmark : c.stays m.id := by
        rw [Tidying.expr] at hr
        exact hr.expr
      rw [Tidying.expr, unifyPosition_right hleft,
        unifyPosition_right (Tidying.expr_ne_placeholder hleft)]
      exact h.bindPlaceholder fit hmark hl
    · simp only [not_exists] at hright
      rw [unifyPosition_values hleft hright, unifyPosition_values
        (Tidying.expr_ne_placeholder hleft) (Tidying.expr_ne_placeholder hright)]
      exact h.matchValues fit hl hr

theorem unifyAll {ls rs : List Expr} (hl : c.Stays (Expr.nodesOfList (c.exprs false ls)))
    (hr : c.Stays (Expr.nodesOfList (c.exprs false rs))) :
    c.Agrees id (fun _ => True) (unifyAll ctx sub env ls rs)
      (unifyAll ctx' sub' env (c.exprs false ls) (c.exprs false rs)) := by
  induction ls generalizing rs with
  | nil =>
    rw [Tidying.exprs]
    exact .pure trivial rfl
  | cons l ls ih =>
    cases rs with
    | nil =>
      rw [Tidying.exprs, Tidying.exprs]
      exact .pure trivial rfl
    | cons r rs =>
      rw [Tidying.exprs, Expr.nodesOfList, stays_append] at hl hr
      rw [Tidying.exprs, Tidying.exprs]
      exact (h.unifyPosition fit hl.1 hr.1).bind fun _ _ => ih hl.2 hr.2

theorem unify {m : Mark} {left right : PredicateCall}
    (hs : c.Stays (c.stmt (.unify m left right)).nodes) :
    c.Agrees id (fun _ => True) (unify ctx sub env m left right)
      (unify ctx' sub' env m (c.call left) (c.call right)) := by
  rw [Tidying.stmt] at hs
  simp only [Stmt.nodes, PredicateCall.goal, Goal.nodes, stays_cons, stays_append] at hs
  have hfunctor : ∀ p, (c.call p).functor = p.functor := fun _ => rfl
  have hlength : ∀ p, (c.call p).arguments.length = p.arguments.length := fun p =>
    Tidying.length_exprs p.arguments
  unfold Eval.unify
  simp only [hfunctor, hlength]
  split
  · exact .raiseAt_bind
  · split
    · exact .raiseAt_bind
    · exact h.unifyAll fit hs.2.1.2 hs.2.2.2

theorem declareVar {d : VarDecl} (hd : c.Stays (Stmt.var (c.var d)).nodes) :
    c.Agrees id (fun _ => True) (declareVar ctx sub env d) (declareVar ctx' sub' env (c.var d)) := by
  have hnode : c.stays (⟨.varDeclaration, d.mark⟩ : NodeRef).mark.id := hd.stmt
  have htype : ctx'.table.typeOf (c.var d).mark = ctx.table.typeOf d.mark := fit.typeOf hd.stmt
  have hinitial : c.Agrees c.value c.Owns (initialValue sub env d.initializer)
      (initialValue sub' env (c.var d).initializer) := by
    obtain ⟨m, name, type, initializer⟩ := d
    cases initializer with
    | none => exact .pure trivial rfl
    | some e =>
      simp only [Stmt.nodes, VarDecl.nodes, stays_cons, stays_append] at hd
      exact h.expression env hd.2.2
  refine hinitial.bind fun v hv => ?_
  dsimp only
  rw [Tidying.kind_value, htype]
  split
  · exact .raise_bind
  · exact .writeAt fit hnode hv

omit fit in
theorem statements {ss : List Stmt} (hss : c.Stays (Stmt.nodesOfList (c.stmts ss))) :
    c.Agrees c.completion (·.All c.Owns) (statements sub env ss)
      (statements sub' env (c.stmts ss)) := by
  induction ss with
  | nil =>
    rw [Tidying.stmts]
    exact .pure trivial rfl
  | cons s ss ih =>
    rw [Tidying.stmts, Stmt.nodesOfList, stays_append] at hss
    rw [Tidying.stmts]
    refine (h.statement env hss.1).bind fun done hdone => ?_
    cases done with
    | returned v => exact .pure hdone.owned rfl
    | normal =>
      have hreturn : s.isReturn = false := by
        cases hs : s.isReturn with
        | false => rfl
        | true => exact absurd (hdone.returns hs) (by simp [Completion.isReturn])
      simp only [hreturn, Bool.and_false, Bool.false_eq_true, if_false] at hss ⊢
      exact ih hss.2

theorem kept_statement {s : Stmt} (hs : c.Stays (c.stmt s).nodes) :
    c.Agrees c.completion (c.Finishes s) (Eval.statement ctx sub env s)
      (Eval.statement ctx' sub' env (c.stmt s)) := by
  have hmark := hs.stmt
  rw [Tidying.ref_stmt] at hmark
  have owned : ∀ {x y : Eval Completion}, s.isReturn = false →
      c.Agrees c.completion (·.All c.Owns) x y → c.Agrees c.completion (c.Finishes s) x y :=
    fun hreturn h => h.weaken fun done hdone => ⟨hdone, fun h => by simp [hreturn] at h⟩
  have ending : ∀ {x y : Eval Unit}, s.isReturn = false → c.Agrees id (fun _ => True) x y →
      c.Agrees c.completion (c.Finishes s) (x >>= fun _ => Pure.pure Completion.normal)
        (y >>= fun _ => Pure.pure Completion.normal) := fun hreturn h =>
    owned hreturn (h.bind fun _ _ => .pure trivial rfl)
  cases s with
  | block b =>
    rw [Tidying.stmt_block] at hs ⊢
    simp only [Tidying.block, Stmt.nodes, stays_cons] at hs
    refine .attach (owned rfl ((Agrees.scopeOf fit hmark).bind fun scope _ =>
      Agrees.push.bind fun f _ => h.statements hs.2))
  | expr m e =>
    rw [Tidying.stmt] at hs ⊢
    simp only [Stmt.nodes, stays_cons] at hs
    exact .attach (owned rfl ((h.expression env hs.2).bind fun _ _ => .pure trivial rfl))
  | var d =>
    rw [Tidying.stmt] at hs ⊢
    exact .attach (ending rfl (h.declareVar fit hs))
  | function d =>
    rw [Tidying.stmt_function] at hs ⊢
    have hd : c.Owns (.function d) := hs
    exact .attach (ending rfl (Agrees.writeAt fit hmark hd))
  | struct d =>
    rw [Tidying.stmt]
    exact .attach (ending rfl (Agrees.writeAt (v := .type d.name (some d)) fit hmark trivial))
  | cond m condition yes no =>
    rw [Tidying.stmt_cond] at hs ⊢
    have hcondition : c.Stays (c.expr true condition).nodes :=
      hs.mono (Stmt.nodes_parts (by simp [Stmt.parts]))
    have hyes : c.Stays (c.stmt yes).nodes := hs.mono (Stmt.nodes_branches (by simp [Stmt.branches]))
    refine .attach (owned rfl ((h.holds hcondition).bind fun b _ => ?_))
    cases b with
    | true => exact (h.statement env hyes).weaken fun _ h => h.owned
    | false =>
      cases no with
      | none => exact .pure trivial rfl
      | some no =>
        have hno : c.Stays (c.stmt no).nodes :=
          hs.mono (Stmt.nodes_branches (by simp [Stmt.branches]))
        exact (h.statement env hno).weaken fun _ h => h.owned
  | loop m condition body =>
    rw [Tidying.stmt] at hs ⊢
    simp only [Stmt.nodes, stays_cons, stays_append] at hs
    refine .attach (owned rfl ?_)
    have hbare : c.Agrees c.completion (·.All c.Owns)
        (sub.rounds env condition (.statement body))
        (sub'.rounds env (c.expr true condition) (.statement (c.stmt body))) :=
      h.rounds env hs.2.1 hs.2.2
    cases body with
    | block b =>
      have hb := hs.2.2
      rw [Tidying.stmt_block] at hb ⊢
      have hblock : c.stays (⟨.block, b.mark⟩ : NodeRef).mark.id := hb.stmt
      simp only [Tidying.block, Stmt.nodes, stays_cons] at hb
      exact (Agrees.scopeOf fit hblock).bind fun scope _ => Agrees.push.bind fun f _ =>
        h.rounds env hs.2.1 hb.2
    | function d =>
      rw [Tidying.stmt_function] at hbare ⊢
      exact hbare
    | cond m' condition' yes no =>
      rw [Tidying.stmt_cond] at hbare ⊢
      exact hbare
    | _ =>
      rw [Tidying.stmt] at hbare ⊢
      exact hbare
  | ret m value =>
    rw [Tidying.stmt] at hs ⊢
    refine .attach ?_
    cases value with
    | none => exact .pure ⟨trivial, fun _ => rfl⟩ rfl
    | some e =>
      simp only [Option.map_some, Stmt.nodes, stays_cons] at hs
      exact (h.expression env hs.2).bind fun v hv => .pure ⟨hv, fun _ => rfl⟩ rfl
  | atom d =>
    rw [Tidying.stmt]
    exact .attach (ending rfl (Agrees.declareAtom fit hmark))
  | fact d =>
    rw [Tidying.stmt] at hs ⊢
    exact .attach (ending rfl (h.declareFact fit hs))
  | rule d =>
    rw [Tidying.stmt] at hs ⊢
    exact .attach (ending rfl (Agrees.declareRule fit hs))
  | unify m left right =>
    have hunify : c.Agrees id (fun _ => True) (Eval.unify ctx sub env m left right)
        (Eval.unify ctx' sub' env m (c.call left) (c.call right)) := h.unify fit hs
    rw [Tidying.stmt]
    exact .attach (ending rfl hunify)

omit fit in
theorem kept_rounds {condition : Expr} {body : LoopBody}
    (hcondition : c.Stays (c.expr true condition).nodes) (hbody : c.Stays (c.loopBody body).nodes) :
    c.Agrees c.completion (·.All c.Owns) (Eval.rounds sub env condition body)
      (Eval.rounds sub' env (c.expr true condition) (c.loopBody body)) := by
  have hround : c.Agrees c.completion (·.All c.Owns) (round sub env body)
      (round sub' env (c.loopBody body)) := by
    cases body with
    | block inner b => exact .attach (h.statements hbody)
    | statement s => exact (h.statement env hbody).weaken fun _ h => h.owned
  refine (h.holds hcondition).bind fun b _ => ?_
  cases b with
  | false => exact .pure trivial rfl
  | true =>
    refine hround.bind fun done hdone => ?_
    cases done with
    | normal => exact h.rounds env hcondition hbody
    | returned v => exact .pure hdone rfl

end Statements

variable (fit : c.Fits ctx ctx')
include fit

/-- A step of two evaluators that agree, given what becomes of an expression that loses its
parentheses. -/
theorem step (h : c.Mirrored sub sub')
    (hdropped : ∀ env m inner, c.drops (.paren m inner) = true →
      c.Stays (c.expr true inner).nodes →
      c.Agrees c.value c.Owns ((Eval.step ctx sub).expression env (.paren m inner))
        ((Eval.step ctx' sub').expression env (c.expr true inner))) :
    c.Mirrored (Eval.step ctx sub) (Eval.step ctx' sub') where
  expression env e value he := by
    rcases c.expr_cases value e with hsame | ⟨m, inner, rfl, hdrops, hinner⟩
    · rw [hsame] at he ⊢
      exact h.kept_expression fit he
    · rw [hinner] at he ⊢
      exact hdropped env m inner hdrops he
  statement _ _ hs := h.kept_statement fit hs
  rounds _ _ _ hcondition hbody := h.kept_rounds hcondition hbody
  resolve _ _ _ hg := h.kept_goal fit hg

theorem evaluator (hnone : ∀ e, c.drops e = false) (fuel : Nat) :
    c.Mirrored (Eval.evaluator ctx fuel) (Eval.evaluator ctx' fuel) := by
  induction fuel with
  | zero => exact ⟨fun _ _ _ _ => .throw, fun _ _ _ => .throw, fun _ _ _ _ _ => .throw,
      fun _ _ _ _ => .throw⟩
  | succ fuel ih =>
    exact ih.step fit fun _ _ _ hdrops => by simp [hnone] at hdrops

theorem evaluator_of_le (hearly : c.early) {fuel fuel' : Nat} (hle : fuel ≤ fuel') :
    c.Mirrored (Eval.evaluator ctx fuel) (Eval.evaluator ctx' fuel') := by
  induction fuel generalizing fuel' with
  | zero =>
    have hshort : ∀ {α β : Type} {F : α → β} {V : α → Prop} {y : Eval β},
        c.Agrees F V (throw .outOfFuel) y := fun _ _ => .early hearly
    exact ⟨fun _ _ _ _ => hshort, fun _ _ _ => hshort, fun _ _ _ _ _ => hshort,
      fun _ _ _ _ => hshort⟩
  | succ fuel ih =>
    obtain ⟨fuel', rfl⟩ : ∃ n, fuel' = n + 1 := ⟨fuel' - 1, by omega⟩
    refine (ih (Nat.le_of_succ_le_succ hle)).step fit fun env m inner _ hinner => ?_
    exact .attach_left ((ih (Nat.le_of_succ_le hle)).expression env hinner)

/-- The first run needs one step more for each pair of parentheses that is taken away, so only so many
times the fuel of the second one. -/
theorem evaluator_of_mul_le (hlate : c.late) {bound : Nat}
    (hbound : ∀ e, c.drops e = true → e.wraps ≤ bound) {fuel fuel' : Nat}
    (hle : fuel' * (bound + 1) ≤ fuel) :
    c.Mirrored (Eval.evaluator ctx fuel) (Eval.evaluator ctx' fuel') := by
  induction fuel' generalizing fuel with
  | zero =>
    have hshort : ∀ {α β : Type} {F : α → β} {V : α → Prop} {x : Eval α},
        c.Agrees F V x (throw .outOfFuel) := fun _ _ => .late hlate
    exact ⟨fun _ _ _ _ => hshort, fun _ _ _ => hshort, fun _ _ _ _ _ => hshort,
      fun _ _ _ _ => hshort⟩
  | succ fuel' ih =>
    -- An expression needs one step for itself and one for each pair of parentheses around it.
    have hexpression : ∀ (n fuel : Nat) (env : Env) (e : Expr),
        (c.drops e = true → e.wraps ≤ n) → fuel' * (bound + 1) + n + 1 ≤ fuel →
        c.Stays (c.expr true e).nodes →
        c.Agrees c.value c.Owns ((Eval.evaluator ctx fuel).expression env e)
          ((Eval.evaluator ctx' (fuel' + 1)).expression env (c.expr true e)) := by
      intro n
      induction n with
      | zero =>
        intro fuel env e hwraps hfuel he
        obtain ⟨fuel, rfl⟩ : ∃ k, fuel = k + 1 := ⟨fuel - 1, by omega⟩
        rcases c.expr_cases true e with hsame | ⟨m, inner, rfl, hdrops, -⟩
        · rw [hsame] at he ⊢
          exact (ih (by omega)).kept_expression fit he
        · exact absurd (hwraps hdrops) (by simp [Expr.wraps])
      | succ n ihn =>
        intro fuel env e hwraps hfuel he
        obtain ⟨fuel, rfl⟩ : ∃ k, fuel = k + 1 := ⟨fuel - 1, by omega⟩
        rcases c.expr_cases true e with hsame | ⟨m, inner, rfl, hdrops, hinner⟩
        · rw [hsame] at he ⊢
          exact (ih (by omega)).kept_expression fit he
        · rw [hinner] at he ⊢
          have hwraps : inner.wraps ≤ n := Nat.le_of_succ_le_succ (hwraps hdrops)
          exact .attach_left (ihn fuel env inner (fun _ => hwraps) (by omega) he)
    have hmul : (fuel' + 1) * (bound + 1) = fuel' * (bound + 1) + bound + 1 := by
      rw [Nat.succ_mul]
      rfl
    obtain ⟨fuel, rfl⟩ : ∃ k, fuel = k + 1 := ⟨fuel - 1, by omega⟩
    refine (ih (by omega)).step fit fun env m inner hdrops hinner => ?_
    have hparen := hexpression bound (fuel + 1) env (.paren m inner) (hbound _) (by omega)
    rw [Tidying.expr, hdrops] at hparen
    exact hparen hinner

end Mirrored

end Comparison

/-- The cause of the fault that ended a run, if one did, or else what the program ended with. -/
def Run.ending (r : Run) : Except (Option Cause) Completion := r.outcome.mapError Halt.cause?

/-- One run is another one tidied: it prints the same, ends the same way and leaves the same machine
behind, but for what is taken out. -/
structure Tidying.Turns (k : Tidying) (r r' : Run) : Prop where
  ending : r'.ending = r.ending.map k.completion
  machine : r'.machine = k.machine r.machine
  root : r'.root = r.root

theorem Tidying.Turns.output {k : Tidying} {r r' : Run} (h : k.Turns r r') :
    r'.machine.output = r.machine.output := by
  rw [h.machine]
  rfl

namespace Comparison

variable {c : Comparison} {sub sub' : Evaluator} {ctx ctx' : Context} {p : Program}

/-- Two runs, of which one may be out of fuel. -/
def RunsAlike (c : Comparison) (r r' : Run) : Prop :=
  c.early ∧ r.outcome = .error .outOfFuel ∨ c.late ∧ r'.outcome = .error .outOfFuel ∨ c.Turns r r'

theorem Mirrored.execute (h : c.Mirrored sub sub')
    (hp : c.Stays (Stmt.nodesOfList (c.stmts p.statements))) (root : FrameId) :
    c.Agrees c.completion (·.All c.Owns) (p.execute sub root)
      ((c.program p).execute sub' root) := by
  refine (h.statements hp).bind fun done hdone => ?_
  rw [Tidying.isReturn_completion, Tidying.value_completion]
  exact Agrees.display.bind fun text _ => Agrees.log.bind fun _ _ => .pure hdone rfl

theorem Mirrored.run (h : c.Mirrored sub sub') (fit : c.Fits ctx ctx')
    (hp : c.Stays (c.program p).nodes) :
    c.RunsAlike (p.runBy ctx sub) ((c.program p).runBy ctx' sub') := by
  simp only [Program.nodes, stays_cons] at hp
  have hscope : (ctx'.table.attributes (c.program p).mark.id).scope =
      (ctx.table.attributes p.mark.id).scope := fit.scope hp.1
  have hempty : c.machine {} = {} := by simp [Tidying.machine]
  unfold Program.runBy
  rw [hscope]
  cases (ctx.table.attributes p.mark.id).scope with
  | none => exact .inr (.inr ⟨rfl, hempty.symm, rfl⟩)
  | some scope =>
    have hpush : c.machine (({} : Machine).push scope).2 = (({} : Machine).push scope).2 := by
      have hpush := congrArg Prod.snd (Tidying.push_machine (k := c.toTidying) {} scope)
      rw [hempty] at hpush
      exact hpush.symm
    dsimp only
    have hexecute := h.execute hp.2 (({} : Machine).push scope).1 (({} : Machine).push scope).2
      (Owned.empty.push scope)
    rw [hpush] at hexecute
    generalize p.execute sub (({} : Machine).push scope).1 (({} : Machine).push scope).2 = r
      at hexecute ⊢
    generalize (c.program p).execute sub' (({} : Machine).push scope).1
      (({} : Machine).push scope).2 = r' at hexecute ⊢
    cases hexecute with
    | ok _ _ => exact .inr (.inr ⟨rfl, rfl, rfl⟩)
    | error hc => exact .inr (.inr ⟨congrArg Except.error hc, rfl, rfl⟩)
    | early h => exact .inl ⟨h, rfl⟩
    | late h => exact .inr (.inl ⟨h, rfl⟩)

end Comparison

end LogicScript
