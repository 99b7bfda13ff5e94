import LogicScript.Proofs.Preservation.Expressions

/-! Statements and goals keep values as their static types say.

What a function returns fits the type of its result, what a rule is asked for fits its parameters, and
what a placeholder is bound to fits the type that all placeholders of its name have. -/
namespace LogicScript

open Eval

namespace Program.Preserves

variable {p : Program} {ctx : Context} {view : Ty.View} {sub sub' : Evaluator} {w : World}
  {m : Machine} {env : Env}

section Goals

theorem resolveRule (hs : p.Settles ctx.table) (h : p.Preserves ctx.table view sub sub') {depth : Nat}
    {mark : Mark} {functor : String} {arguments : List Expr}
    (hg : (Goal.call mark functor arguments).nodes ⊆ p.nodes) {r : Rule}
    (hr : r.Filed p ctx.table functor) :
    Respects p ctx.table view w m (resolveRule ctx sub env depth r arguments)
      (resolveRule ctx sub' env depth r arguments) fun _ _ => True := by
  have hbody : r.decl.body.nodes ⊆ p.nodes := fun n hn =>
    Program.nodes_inside hs.numbered hr.mem rfl (by simp [Node.nodes, Stmt.nodes, RuleDecl.nodes, hn])
  unfold Eval.resolveRule
  split
  · rename_i hfits
    refine (h.storedAll (fun e he => List.Subset.trans (Goal.nodes_arguments he) hg) fun hc =>
      hc _ (hg (Goal.self_mem_nodes _)) _ hr.mem r.decl rfl hr.functor_eq hfits).bind
      fun w₁ m₁ args _ hargs => Respects.push.bind fun w₂ m₂ f h₂ _ => ?_
    refine (Respects.bindParameters (hs.typed.rule r.decl hr.mem r.scope hr.scope) hargs.1
      fun q hq => (hargs.2 q hq).mono h₂).bind fun w₃ m₃ _ _ _ => ?_
    exact h.resolve w₃ m₃ _ _ _ hbody
  · exact .pure trivial

theorem resolveCall (hs : p.Settles ctx.table) (h : p.Preserves ctx.table view sub sub') {depth : Nat}
    {mark : Mark} {functor : String} {arguments : List Expr}
    (hg : (Goal.call mark functor arguments).nodes ⊆ p.nodes) :
    Respects p ctx.table view w m (resolveCall ctx sub env depth mark functor arguments)
      (resolveCall ctx sub' env depth mark functor arguments) fun _ _ => True := by
  unfold Eval.resolveCall
  dsimp only
  split
  · refine .given fun hm => .get_bind ?_
    split
    · exact .pure trivial
    · split
      · exact .pure trivial
      · have harguments : ∀ e ∈ arguments, e.nodes ⊆ p.nodes := fun e he =>
          List.Subset.trans (Goal.nodes_arguments he) hg
        exact (h.storedEach harguments fun _ e _ => Ty.void_takes _ _ e).bind
          fun w₁ m₁ args _ _ => .get_bind (.pure trivial)
      · rename_i hrule
        exact h.resolveRule hs hg (hm.rules _ _ _ hrule)
  · exact .pure trivial

theorem resolve_step (hs : p.Settles ctx.table) (h : p.Preserves ctx.table view sub sub') {depth : Nat}
    {goal : Goal} (hg : goal.nodes ⊆ p.nodes) :
    Respects p ctx.table view w m (Eval.resolve ctx sub env depth goal)
      (Eval.resolve ctx sub' env depth goal) fun _ _ => True := by
  have hparts : ∀ g ∈ goal.parts, g.nodes ⊆ p.nodes := fun g hpart =>
    List.Subset.trans (Goal.nodes_parts hpart) hg
  unfold Eval.resolve
  split
  · exact .raiseAt
  · cases goal with
    | atom mark name => exact .pure trivial
    | call mark functor arguments => exact h.resolveCall hs hg
    | paren mark inner => exact h.resolve w m env depth inner (hparts inner (by simp [Goal.parts]))
    | not mark operand =>
      exact (h.resolve w m env depth operand (hparts operand (by simp [Goal.parts]))).bind
        fun w₁ m₁ b _ _ => .pure trivial
    | binary mark op left right =>
      refine (h.resolve w m env depth left (hparts left (by simp [Goal.parts]))).bind
        fun w₁ m₁ l _ _ => ?_
      exact (h.resolve w₁ m₁ env depth right (hparts right (by simp [Goal.parts]))).bind
        fun w₂ m₂ r _ _ => .pure trivial

end Goals

section Statements

theorem ground (h : p.Preserves ctx.table view sub sub') {functor : String} {es : List Expr}
    (hes : ∀ e ∈ es, e.nodes ⊆ p.nodes) :
    Respects p ctx.table view w m (ground sub env functor es) (ground sub' env functor es)
      fun _ _ => True := by
  induction es generalizing w m with
  | nil => exact .pure trivial
  | cons e es ih =>
    unfold Eval.ground
    dsimp only
    split
    · exact .raiseAt_bind
    · refine (h.expression w m env e (hes e List.mem_cons_self)).bind fun w₁ m₁ v _ _ => ?_
      split
      · exact .raiseAt_bind
      · exact (ih fun e he => hes e (List.mem_cons_of_mem _ he)).bind
          fun w₂ m₂ vs _ _ => .pure trivial

theorem declareFact (h : p.Preserves ctx.table view sub sub') {d : FactDecl}
    (hd : ∀ e ∈ d.arguments, e.nodes ⊆ p.nodes) :
    Respects p ctx.table view w m (declareFact ctx sub env d) (declareFact ctx sub' env d)
      fun _ _ => True := by
  refine (h.ground hd).bind fun w₁ m₁ tuple _ _ => ?_
  refine Respects.storeFrame.bind fun w₂ m₂ f _ _ => ?_
  exact Respects.addFact.bind fun w₃ m₃ _ _ _ => Respects.log

theorem bindPlaceholder (hs : p.Settles ctx.table) (h : p.Preserves ctx.table view sub sub')
    {mark : Mark} {name : String} {type : TypeExpr} {e : Expr}
    (hmem : .expression (.placeholder mark name type) ∈ p.nodes) (he : e.nodes ⊆ p.nodes)
    (hbinds : p.Consistent ctx.table view → (Expr.placeholder mark name type).Binds ctx.table view e) :
    Respects p ctx.table view w m (bindPlaceholder ctx sub env mark name e)
      (bindPlaceholder ctx sub' env mark name e) fun _ _ => True := by
  unfold Eval.bindPlaceholder
  dsimp only
  split
  · rename_i hassignable
    refine (h.stored he fun hc => hbinds hc hassignable).bind fun w₁ m₁ v _ hv => ?_
    rw [Value.widen_seen_mark] at hv
    refine (Respects.writeAt (hs.typed.placeholder mark name type hmem) hv.1 ?_).bind
      fun w₂ m₂ _ _ _ => Respects.display.bind fun w₃ m₃ _ _ _ => Respects.log
    intro d hplaceholder _ hreused
    cases d with
    | placeholder mark' name' =>
      have hsame : ctx.table.seen view mark = ctx.table.seen view mark' := by
        by_contra hne
        exact hreused ⟨_, hmem, rfl, hne⟩
      show Value.Conforms p ctx.table view w₁ _ (ctx.table.seen view mark')
      exact hsame ▸ hv.2
    | _ => cases hplaceholder
  · exact .raiseAt_bind

theorem matchValues (h : p.Preserves ctx.table view sub sub') {left right : Expr}
    (hl : left.nodes ⊆ p.nodes) (hr : right.nodes ⊆ p.nodes) :
    Respects p ctx.table view w m (matchValues ctx sub env left right)
      (matchValues ctx sub' env left right) fun _ _ => True := by
  unfold Eval.matchValues
  dsimp only
  split
  · refine (h.expression w m env left hl).bind fun w₁ m₁ l _ _ => ?_
    refine (h.expression w₁ m₁ env right hr).bind fun w₂ m₂ r _ _ => ?_
    split
    · exact .pure trivial
    · exact Respects.display.bind fun w₃ m₃ _ _ _ => Respects.display.bind
        fun w₄ m₄ _ _ _ => .raiseAt
  · exact .raiseAt_bind

theorem unifyPosition (hs : p.Settles ctx.table) (h : p.Preserves ctx.table view sub sub')
    {left right : Expr} (hl : left.nodes ⊆ p.nodes) (hr : right.nodes ⊆ p.nodes)
    (hbinds : p.Consistent ctx.table view →
      left.Binds ctx.table view right ∧ right.Binds ctx.table view left) :
    Respects p ctx.table view w m (unifyPosition ctx sub env left right)
      (unifyPosition ctx sub' env left right) fun _ _ => True := by
  unfold Eval.unifyPosition
  split
  · exact .raiseAt
  · exact h.bindPlaceholder hs (hl (Expr.self_mem_nodes _)) hr fun hc => (hbinds hc).1
  · exact h.bindPlaceholder hs (hr (Expr.self_mem_nodes _)) hl fun hc => (hbinds hc).2
  · exact h.matchValues hl hr

theorem unifyAll (hs : p.Settles ctx.table) (h : p.Preserves ctx.table view sub sub')
    {ls rs : List Expr} (hl : ∀ e ∈ ls, e.nodes ⊆ p.nodes) (hr : ∀ e ∈ rs, e.nodes ⊆ p.nodes)
    (hbinds : p.Consistent ctx.table view → ∀ q ∈ ls.zip rs,
      q.1.Binds ctx.table view q.2 ∧ q.2.Binds ctx.table view q.1) :
    Respects p ctx.table view w m (unifyAll ctx sub env ls rs) (unifyAll ctx sub' env ls rs)
      fun _ _ => True := by
  induction ls generalizing rs w m with
  | nil => exact .pure trivial
  | cons l ls ih =>
    cases rs with
    | nil => exact .pure trivial
    | cons r rs =>
      simp only [List.zip_cons_cons, List.forall_mem_cons] at hl hr hbinds
      refine (h.unifyPosition hs hl.1 hr.1 fun hc => (hbinds hc).1).bind fun w₁ m₁ _ _ _ => ?_
      exact ih hl.2 hr.2 fun hc => (hbinds hc).2

theorem unify (hs : p.Settles ctx.table) (h : p.Preserves ctx.table view sub sub') {mark : Mark}
    {left right : PredicateCall} (he : (Stmt.unify mark left right).nodes ⊆ p.nodes) :
    Respects p ctx.table view w m (unify ctx sub env mark left right)
      (unify ctx sub' env mark left right) fun _ _ => True := by
  have hparts : ∀ e ∈ left.arguments ++ right.arguments, e.nodes ⊆ p.nodes := fun e hpart =>
    List.Subset.trans (Stmt.nodes_parts (s := .unify mark left right) hpart) he
  unfold Eval.unify
  dsimp only
  split
  · exact .raiseAt_bind
  · split
    · exact .raiseAt_bind
    · exact h.unifyAll hs (fun e he => hparts e (List.mem_append_left _ he))
        (fun e he => hparts e (List.mem_append_right _ he))
        fun hc => hc _ (he (Stmt.self_mem_nodes _))

theorem initialValue (h : p.Preserves ctx.table view sub sub') {initializer : Option Expr} {slot : Ty}
    (he : ∀ e ∈ initializer, e.nodes ⊆ p.nodes)
    (htakes : p.Consistent ctx.table view → ∀ e ∈ initializer, slot.Takes ctx.table view e) :
    Respects p ctx.table view w m (initialValue sub env initializer) (initialValue sub' env initializer)
      fun w' v => p.Owns v ∧ (v.widen slot).Conforms p ctx.table view w' slot := by
  cases initializer with
  | none =>
    exact .pure ⟨.of_kind (by simp [Value.kind]), Value.conforms_nothing (.inl rfl)⟩
  | some e => exact h.stored (he e rfl) fun hc => htakes hc e rfl

theorem declareVar (hs : p.Settles ctx.table) (h : p.Preserves ctx.table view sub sub') {d : VarDecl}
    (hd : (Stmt.var d).nodes ⊆ p.nodes) :
    Respects p ctx.table view w m (declareVar ctx sub env d) (declareVar ctx sub' env d)
      fun _ _ => True := by
  have hmem := hd (Stmt.self_mem_nodes _)
  have hinitializer : ∀ e ∈ d.initializer, e.nodes ⊆ p.nodes := fun e he =>
    List.Subset.trans (Stmt.nodes_parts (s := .var d) (Option.mem_toList.mpr he)) hd
  refine (h.initialValue hinitializer fun hc => hc _ hmem).bind fun w₁ m₁ v _ hv => ?_
  rw [Value.widen_seen_mark] at hv
  dsimp only
  split
  · exact .raise_bind
  · refine Respects.writeAt (hs.typed.var d hmem) hv.1 ?_
    rintro _ rfl - -
    exact hv.2

theorem statements (h : p.Preserves ctx.table view sub sub') {ss : List Stmt} {result : Ty}
    (hss : ∀ st ∈ ss, st.nodes ⊆ p.nodes)
    (hr : p.Returns ctx.table view result (Stmt.returnedOfList ss)) :
    Respects p ctx.table view w m (Eval.statements sub env ss) (Eval.statements sub' env ss)
      fun w' done => done.Conforms p ctx.table view w' result := by
  induction ss generalizing w m with
  | nil => exact .pure trivial
  | cons st ss ih =>
    simp only [List.forall_mem_cons] at hss
    refine (h.statement w m env st result hss.1 (hr.mono (List.subset_append_left ..))).bind
      fun w₁ m₁ done _ hdone => ?_
    cases done with
    | normal => exact ih hss.2 (hr.mono (List.subset_append_right ..))
    | returned v => exact .pure hdone

theorem statement_step (hs : p.Settles ctx.table) (h : p.Preserves ctx.table view sub sub') {st : Stmt}
    {result : Ty} (hst : st.nodes ⊆ p.nodes) (hr : p.Returns ctx.table view result st.returned) :
    Respects p ctx.table view w m (Eval.statement ctx sub env st) (Eval.statement ctx sub' env st)
      fun w' done => done.Conforms p ctx.table view w' result := by
  have hmem := hst st.self_mem_nodes
  have ending : ∀ {w m} {x y : Eval Unit}, (Respects p ctx.table view w m x y fun _ _ => True) →
      Respects p ctx.table view w m (x >>= fun _ => Pure.pure Completion.normal)
        (y >>= fun _ => Pure.pure Completion.normal)
        fun w' done => done.Conforms p ctx.table view w' result := fun h =>
    h.bind fun _ _ _ _ _ => .pure trivial
  -- Functions and structs are known by their names alone.
  have declaring : ∀ {node name v D}, ctx.table.Enters node.mark name (· = D) → D.isTyped = false →
      p.Owns v → Respects p ctx.table view w m (writeAt ctx env node name v .void)
        (writeAt ctx env node name v .void) fun _ _ => True := by
    intro node name v D henters huntyped hv
    refine Respects.writeAt henters hv ?_
    rintro _ rfl htyped
    rw [huntyped] at htyped
    cases htyped
  refine .attach ?_
  cases st with
  | block b =>
    rw [Stmt.returned_block] at hr
    refine Respects.scopeOf_bind fun scope _ => Respects.push.bind fun w₁ m₁ f _ _ => ?_
    exact h.statements (fun st hmem => List.Subset.trans (Stmt.nodes_statements hmem) hst) hr
  | expr mark e =>
    have he : e.nodes ⊆ p.nodes := fun n hn => hst (by simp [Stmt.nodes, hn])
    exact (h.expression w m env e he).bind fun w₁ m₁ v _ _ => .pure trivial
  | var d => exact ending (h.declareVar hs hst)
  | function d =>
    refine ending (declaring (hs.typed.function d hmem) rfl ?_)
    rintro _ ⟨⟩
    exact Program.mem_functions.mpr hmem
  | struct d =>
    exact ending (declaring (hs.typed.struct d hmem) rfl (.of_kind (by simp [Value.kind])))
  | cond mark condition yes no =>
    have hcondition : condition.nodes ⊆ p.nodes :=
      List.Subset.trans (Stmt.nodes_parts (by simp [Stmt.parts])) hst
    have hbranches : ∀ st ∈ (Stmt.cond mark condition yes no).branches, st.nodes ⊆ p.nodes :=
      fun st hst' => List.Subset.trans (Stmt.nodes_branches hst') hst
    refine (h.holds hcondition).bind fun w₁ m₁ b _ _ => ?_
    cases no with
    | none =>
      split
      · exact h.statement w₁ m₁ env yes result (hbranches yes (by simp [Stmt.branches])) hr
      · exact .pure trivial
    | some no =>
      split
      · exact h.statement w₁ m₁ env yes result (hbranches yes (by simp [Stmt.branches]))
          (hr.mono (List.subset_append_left ..))
      · exact h.statement w₁ m₁ env no result (hbranches no (by simp [Stmt.branches]))
          (hr.mono (List.subset_append_right ..))
  | loop mark condition body =>
    have hcondition : condition.nodes ⊆ p.nodes := fun n hn => hst (by simp [Stmt.nodes, hn])
    have hbody : body.nodes ⊆ p.nodes := fun n hn => hst (by simp [Stmt.nodes, hn])
    cases body with
    | block b =>
      rw [Stmt.returned, Stmt.returned_block] at hr
      refine Respects.scopeOf_bind fun scope _ => Respects.push.bind fun w₁ m₁ f _ _ => ?_
      refine h.rounds w₁ m₁ env condition (.block (f :: env) b) result hcondition ?_ hr
      intro n hn
      obtain ⟨st, hst, hn⟩ := Stmt.mem_nodesOfList.mp hn
      exact hbody (Stmt.nodes_statements hst hn)
    | _ => exact h.rounds w m env condition (.statement _) result hcondition hbody hr
  | ret mark value =>
    cases value with
    | none => exact .pure ⟨p.owns_void, Value.conforms_nothing (.inr rfl)⟩
    | some e =>
      have he : e.nodes ⊆ p.nodes := fun n hn => hst (by simp [Stmt.nodes, hn])
      exact (h.stored he fun hc => hr hc e (List.mem_singleton_self _)).bind
        fun w₁ m₁ v _ hv => .pure hv
  | atom d => exact ending (Respects.declareAtom (hs.typed.atom d hmem))
  | fact d =>
    exact ending (h.declareFact fun e he => List.Subset.trans (Stmt.nodes_parts (s := .fact d) he) hst)
  | rule d => exact ending (Respects.declareRule hmem)
  | unify mark left right => exact ending (h.unify hs hst)

theorem round (h : p.Preserves ctx.table view sub sub') {body : LoopBody} {result : Ty}
    (hbody : body.nodes ⊆ p.nodes) (hr : p.Returns ctx.table view result body.returned) :
    Respects p ctx.table view w m (round sub env body) (round sub' env body)
      fun w' done => done.Conforms p ctx.table view w' result := by
  cases body with
  | block inner b =>
    refine .attach (h.statements (fun st hst n hn => hbody ?_) hr)
    exact Stmt.mem_nodesOfList.mpr ⟨st, hst, hn⟩
  | statement st => exact h.statement w m env st result hbody hr

theorem rounds_step (h : p.Preserves ctx.table view sub sub') {condition : Expr} {body : LoopBody}
    {result : Ty} (hcondition : condition.nodes ⊆ p.nodes) (hbody : body.nodes ⊆ p.nodes)
    (hr : p.Returns ctx.table view result body.returned) :
    Respects p ctx.table view w m (Eval.rounds sub env condition body)
      (Eval.rounds sub' env condition body) fun w' done => done.Conforms p ctx.table view w' result := by
  refine (h.holds hcondition).bind fun w₁ m₁ b _ _ => ?_
  split
  · refine (h.round hbody hr).bind fun w₂ m₂ done _ hdone => ?_
    cases done with
    | normal => exact h.rounds w₂ m₂ env condition body result hcondition hbody hr
    | returned v => exact .pure hdone
  · exact .pure trivial

end Statements

end Program.Preserves

end LogicScript
