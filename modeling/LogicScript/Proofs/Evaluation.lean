import Mathlib.Tactic.Tauto
import LogicScript.Proofs.Operations

/-! What a step of evaluation keeps, given what the evaluations keep that it asks for.

There is one rule for each function a step is made of. A rule speaks of two evaluators, of which the
first may be stopped early. -/
namespace LogicScript

open Eval

/-- The value that a statement returned, if it did, is such a value. -/
def Completion.All (V : Value → Prop) : Completion → Prop
  | .normal => True
  | .returned v => V v

/-- The expressions that are evaluated, in the same frames, to evaluate an expression. -/
def Expr.parts : Expr → List Expr
  | .array _ elements => elements
  | .field _ stem _ => [stem]
  | .index _ a i => [a, i]
  | .call _ callee arguments => callee :: arguments
  | .not _ operand => [operand]
  | .binary _ _ left right => [left, right]
  | .assign _ (.index _ a i) value => [a, i, value]
  | .assign _ (.field _ stem _) value => [stem, value]
  | .assign _ (.reference _) value => [value]
  | .paren _ inner => [inner]
  | _ => []

/-- The operands whose values may be stored without a look at them: the elements of an array, the
arguments of a call or of a predicate, and what is assigned. -/
def Expr.unchecked : Expr → List Expr
  | .array _ elements => elements
  | .call _ _ arguments => arguments
  | .assign _ _ value => [value]
  | .logic (.call _ _ arguments) => arguments
  | _ => []

/-- The logic expression that is resolved to evaluate an expression. An atom stands for itself. -/
def Expr.goal? : Expr → Option Goal
  | .query _ _ (.logic goal) => some goal
  | .logic (.atom _ _) => none
  | .logic goal => some goal
  | _ => none

/-- The use of a name by which an expression reads or writes a binding. -/
def Expr.slot? : Expr → Option Reference
  | .reference r => some r
  | .assign _ (.reference r) _ => some r
  | .query _ target _ => some target
  | _ => none

def Expr.isCall : Expr → Bool
  | .call _ _ _ => true
  | _ => false

/-- The logic expressions directly inside a logic expression. -/
def Goal.parts : Goal → List Goal
  | .paren _ inner => [inner]
  | .not _ operand => [operand]
  | .binary _ _ left right => [left, right]
  | _ => []

/-- The node of a placeholder. -/
def Expr.placeholder? : Expr → Option NodeRef
  | .placeholder mark _ _ => some ⟨.unboundParameter, mark⟩
  | _ => none

/-- The expressions that are evaluated to execute a statement. The condition of a loop is evaluated
in its rounds. -/
def Stmt.parts : Stmt → List Expr
  | .expr _ e => [e]
  | .var d => d.initializer.toList
  | .cond _ condition _ _ => [condition]
  | .ret _ value => value.toList
  | .fact d => d.arguments
  | .unify _ left right => left.arguments ++ right.arguments
  | _ => []

/-- The operands that may meet a placeholder, which takes their values without a look at them. -/
def Stmt.unchecked : Stmt → List Expr
  | .unify _ left right => left.arguments ++ right.arguments
  | _ => []

/-- The statements of which one is executed, in the same frames. -/
def Stmt.branches : Stmt → List Stmt
  | .cond _ _ yes no => yes :: no.toList
  | _ => []

/-- The nodes for which a statement binds a name or adds to a store. -/
def Stmt.slots : Stmt → List NodeRef
  | .var d => [⟨.varDeclaration, d.mark⟩]
  | .function d => [⟨.functionDeclaration, d.mark⟩]
  | .struct d => [⟨.structDeclaration, d.mark⟩]
  | .atom d => [⟨.atomDeclaration, d.mark⟩]
  | .fact d => [⟨.factDeclaration, d.mark⟩]
  | .rule d => [⟨.ruleDeclaration, d.mark⟩]
  | .unify _ left right => (left.arguments ++ right.arguments).filterMap Expr.placeholder?
  | _ => []

/-- The block that a statement opens. -/
def Stmt.block? : Stmt → Option Block
  | .block b => some b
  | .loop _ _ (.block b) => some b
  | _ => none

namespace Contract

/-- The values of the first kind may be stored; those of the second kind, which evaluation gives, are
the same and Void. -/
structure WithVoid (V W : Value → Prop) : Prop where
  stored : ∀ v, V v → W v
  void : W .void
  checked : ∀ v, W v → v.kind ≠ .void → V v

theorem WithVoid.same {V : Value → Prop} (h : V .void) : WithVoid V V :=
  ⟨fun _ hv => hv, h, fun _ hv _ => hv⟩

theorem WithVoid.widen {c : Contract} {V W : Value → Prop} (hw : WithVoid V W) (ha : c.Admits V)
    {v : Value} {t : Ty} (hv : W v) : W (v.widen t) := by
  unfold Value.widen
  split
  · exact hw.stored _ (ha.plain _ (by simp [Value.IsPlain, Value.kind]))
  · exact hv

section Requests

variable (c : Contract) (V W : Value → Prop) (sub sub' : Evaluator) (m : Machine) (env : Env)

/-- From the machine on, an expression is evaluated within the contract. -/
def Evaluates (e : Expr) : Prop := ∀ m', c.Leads m m' →
  c.Honours m' (sub.expression env e) (sub'.expression env e) fun _ v => V v

def Executes (s : Stmt) : Prop := ∀ m', c.Leads m m' →
  c.Honours m' (sub.statement env s) (sub'.statement env s) fun _ done => done.All V

def Repeats (condition : Expr) (body : LoopBody) : Prop := ∀ m', c.Leads m m' →
  c.Honours m' (sub.rounds env condition body) (sub'.rounds env condition body)
    fun _ done => done.All V

def Resolves (depth : Nat) (goal : Goal) : Prop := ∀ m', c.Leads m m' →
  c.Honours m' (sub.resolve env depth goal) (sub'.resolve env depth goal) fun _ _ => True

def Calls (ctx : Context) (d : FunctionDecl) : Prop := ∀ m' args, c.Leads m m' →
  (∀ v ∈ args, V v) →
  c.Honours m' (callFunction ctx sub env d args) (callFunction ctx sub' env d args) fun _ v => W v

/-- From the machine on, a node has its frame on the chain. -/
def Sees (ctx : Context) (node : NodeRef) : Prop := ∀ m', c.Leads m m' → c.Locates ctx m' env node

end Requests

variable {c : Contract} {V W : Value → Prop} {sub sub' : Evaluator} {m m' : Machine} {env : Env}
  {ctx : Context}

theorem Evaluates.mono {e : Expr} (h : c.Evaluates V sub sub' m env e) (hl : c.Leads m m') :
    c.Evaluates V sub sub' m' env e := fun m₁ h₁ => h m₁ (c.trans hl h₁)

theorem Executes.mono {s : Stmt} (h : c.Executes V sub sub' m env s) (hl : c.Leads m m') :
    c.Executes V sub sub' m' env s := fun m₁ h₁ => h m₁ (c.trans hl h₁)

theorem Evaluates.now {e : Expr} (h : c.Evaluates V sub sub' m env e) :
    c.Honours m (sub.expression env e) (sub'.expression env e) fun _ v => V v := h m (c.refl m)

theorem Executes.now {s : Stmt} (h : c.Executes V sub sub' m env s) :
    c.Honours m (sub.statement env s) (sub'.statement env s) fun _ done => done.All V :=
  h m (c.refl m)

theorem Resolves.now {depth : Nat} {goal : Goal} (h : c.Resolves sub sub' m env depth goal) :
    c.Honours m (sub.resolve env depth goal) (sub'.resolve env depth goal) fun _ _ => True :=
  h m (c.refl m)

theorem Sees.now {node : NodeRef} (h : c.Sees m env ctx node) : c.Locates ctx m env node :=
  h m (c.refl m)

namespace Honours

theorem expressions {es : List Expr} (h : ∀ e ∈ es, c.Evaluates V sub sub' m env e) :
    c.Honours m (expressions sub env es) (expressions sub' env es) fun _ vs => ∀ v ∈ vs, V v := by
  induction es generalizing m with
  | nil => exact pure (by simp)
  | cons e es ih =>
    refine (h e List.mem_cons_self).now.bind fun m₁ v h₁ hv => ?_
    have hrest : ∀ e ∈ es, c.Evaluates V sub sub' m₁ env e := fun e he =>
      (h e (List.mem_cons_of_mem _ he)).mono h₁
    refine (ih hrest).bind fun m₂ vs _ hvs => pure ?_
    simpa using ⟨hv, hvs⟩

theorem access {array index : Expr} (ha : c.Admits V)
    (harray : c.Evaluates W sub sub' m env array) (hindex : c.Evaluates W sub sub' m env index) :
    c.Honours m (access sub env array index) (access sub' env array index) fun _ _ => True := by
  refine harray.now.bind fun m₁ a h₁ _ => ?_
  exact (hindex m₁ h₁).bind fun m₂ i _ _ => element ha

theorem truth {e : Expr} (ha : c.Admits V) (h : c.Evaluates W sub sub' m env e) :
    c.Honours m (truth sub env e) (truth sub' env e) fun _ _ => True := by
  refine h.now.bind fun m₁ v _ _ => ?_
  split
  · exact pure trivial
  · exact raise (ha.faults _ _ rfl)

theorem holds {e : Expr} (ha : c.Admits V) (h : c.Evaluates W sub sub' m env e) :
    c.Honours m (holds sub env e) (holds sub' env e) fun _ _ => True := by
  refine h.now.bind fun m₁ v _ _ => ?_
  split
  · exact pure trivial
  · exact raiseAt (ha.faults _ _ rfl)

theorem operate {op : BinaryOp} {s t : Ty} {l r : Value} (ha : c.Admits V) :
    c.Honours m (operate op s t l r) (operate op s t l r) fun _ v => V v := by
  unfold Eval.operate
  split
  · exact (display ha).bind fun m₁ _ _ _ => (display ha).bind fun m₂ _ _ _ =>
      pure (ha.plain _ (by simp [Value.IsPlain, Value.kind]))
  · exact lift (fun v hv => ha.plain v (Operator.isPlain_apply hv))
      fun cause hc => ha.faults _ _ (Operator.isStatic_apply hc)

theorem binary {op : BinaryOp} {left right : Expr} (ha : c.Admits V)
    (hl : c.Evaluates W sub sub' m env left) (hr : c.Evaluates W sub sub' m env right) :
    c.Honours m (binary ctx sub env op left right) (binary ctx sub' env op left right)
      fun _ v => V v := by
  have bool : ∀ b, V (.bool b) := fun b => ha.plain _ (by simp [Value.IsPlain, Value.kind])
  unfold Eval.binary
  split
  · refine (truth ha hl).bind fun m₁ b h₁ _ => ?_
    split
    · exact (truth ha (hr.mono h₁)).bind fun m₂ b _ _ => pure (bool b)
    · exact pure (bool _)
  · refine (truth ha hl).bind fun m₁ b h₁ _ => ?_
    split
    · exact pure (bool _)
    · exact (truth ha (hr.mono h₁)).bind fun m₂ b _ _ => pure (bool b)
  · exact hl.now.bind fun m₁ l h₁ _ => (hr m₁ h₁).bind fun m₂ r _ _ => operate ha

/-- A call opens a frame outside all others but the root frame. -/
theorem callFunction {d : FunctionDecl} {args : List Value} (ha : c.Admits V)
    (hw : WithVoid V W) (hargs : ∀ v ∈ args, V v)
    (hscope : (ctx.table.attributes d.mark.id).bodyScope = none →
      c.Blame (.fault ⟨.functionWithoutScope d.name, none⟩))
    (hbody : ∀ scope m', (ctx.table.attributes d.mark.id).bodyScope = some scope →
      c.Leads m m' → m.Entered scope m' →
      c.Honours m' (sub.statement (callEnv env m.frames.size) (.block d.body))
        (sub'.statement (callEnv env m.frames.size) (.block d.body)) fun _ done => done.All W) :
    c.Honours m (callFunction ctx sub env d args) (callFunction ctx sub' env d args)
      fun _ v => W v := by
  refine (arity ha).bind ?_
  rintro m₁ - - ⟨rfl, -⟩
  split
  · exact raise (hscope ‹_›)
  · rename_i scope hs
    refine (push ha).bind ?_
    rintro m₂ f h₂ ⟨rfl, rfl, hf⟩
    have hentered := Machine.entered_push m₁ scope
    refine (bindParameters ha hf hentered.2 hargs).bind ?_
    rintro m₃ - h₃ rfl
    refine (log ha).bind ?_
    rintro m₄ - h₄ rfl
    have hbound := hentered.bindAll ctx.table m₁.frames.size d.parameters args
    refine (hbody scope _ hs (c.trans h₂ (c.trans h₃ h₄)) hbound).bind fun m₅ done _ hdone => ?_
    cases done with
    | normal => exact pure hw.void
    | returned v =>
      dsimp only
      split
      · exact pure (hw.widen ha hdone)
      · exact pure hdone

theorem call {callee : Value} {args : List Value} (ha : c.Admits V) (hw : WithVoid V W)
    (hargs : ∀ v ∈ args, V v)
    (hf : ∀ d, callee = .function d → c.Calls V W sub sub' m env ctx d) :
    c.Honours m (call ctx sub env callee args) (call ctx sub' env callee args) fun _ v => W v := by
  unfold Eval.call
  split
  · exact raise (ha.faults _ _ rfl)
  · exact (native ha).weaken fun _ _ _ => hw.stored _
  · exact (construct ha hargs).weaken fun _ _ _ => hw.stored _
  · exact hf _ rfl m args (c.refl m) hargs
  · exact raise (ha.faults _ _ rfl)

theorem assign {mark : Mark} {target value : Expr} (ha : c.Admits V)
    (hparts : ∀ e ∈ (Expr.assign mark target value).parts, c.Evaluates W sub sub' m env e)
    (hvalue : value ∈ (Expr.assign mark target value).parts → c.Evaluates V sub sub' m env value)
    (hslot : ∀ r, target = .reference r → c.Sees m env ctx ⟨.reference, r.mark⟩) :
    c.Honours m (assign ctx sub env target value) (assign ctx sub' env target value)
      fun _ v => V v := by
  unfold Eval.assign
  split
  · rename_i r
    refine (hvalue (by simp [Expr.parts])).now.bind fun m₁ v h₁ hv => ?_
    dsimp only
    split
    · refine (writeAt ha (hslot r rfl m₁ h₁) hv).bind fun m₂ _ _ _ => ?_
      exact pure (ha.widen hv)
    · exact raise_bind (ha.faults _ _ rfl)
  · rename_i mark' a i
    refine (access ha (hparts a (by simp [Expr.parts])) (hparts i (by simp [Expr.parts]))).bind ?_
    rintro m₁ ⟨o, j⟩ h₁ -
    refine (hvalue (by simp [Expr.parts]) m₁ h₁).bind fun m₂ v h₂ hv => ?_
    exact (setElement ha (ha.widen hv)).bind fun m₃ _ _ _ => pure (ha.widen hv)
  · rename_i mark' stem name
    refine (hparts stem (by simp [Expr.parts])).now.bind fun m₁ s h₁ _ => ?_
    refine (hvalue (by simp [Expr.parts]) m₁ h₁).bind fun m₂ v h₂ hv => ?_
    exact (setField ha (ha.widen hv)).bind fun m₃ _ _ _ => pure (ha.widen hv)
  · exact raise (ha.faults _ _ rfl)

theorem query {mark : Mark} {target : Reference} {question : Expr} (ha : c.Admits V)
    (hgoal : ∀ goal, question = .logic goal → c.Resolves sub sub' m env 0 goal)
    (hslot : c.Sees m env ctx ⟨.reference, target.mark⟩) :
    c.Honours m (query ctx sub env mark target question) (query ctx sub' env mark target question)
      fun _ v => V v := by
  have bool : ∀ b, V (.bool b) := fun b => ha.plain _ (by simp [Value.IsPlain, Value.kind])
  unfold Eval.query
  split
  · dsimp only
    split
    · refine (hgoal _ rfl).now.bind fun m₁ answer h₁ _ => ?_
      refine (writeAt ha (hslot m₁ h₁) (bool answer)).bind fun m₂ _ _ _ => ?_
      exact (log ha).bind fun m₃ _ _ _ => pure (bool answer)
    · exact raiseAt_bind (ha.faults _ _ rfl)
  · exact raiseAt (ha.faults _ _ rfl)

theorem expression {e : Expr} (ha : c.Admits V) (hw : WithVoid V W)
    (hparts : ∀ e' ∈ e.parts, c.Evaluates W sub sub' m env e')
    (hunchecked : ∀ e' ∈ e.parts, e' ∈ e.unchecked → c.Evaluates V sub sub' m env e')
    (hgoal : ∀ goal, e.goal? = some goal → c.Resolves sub sub' m env 0 goal)
    (hslot : ∀ r, e.slot? = some r → c.Sees m env ctx ⟨.reference, r.mark⟩)
    (hname : ∀ r, e = .reference r →
      ((ctx.table.attributes r.mark.id).decl = none →
        c.Blame (.fault ⟨.unresolvedReference r.name, none⟩)) ∧
      ∀ d, (ctx.table.attributes r.mark.id).decl = some (.function d) → V (.function d))
    (hstruct : ∀ mark name, e = .constructor mark name →
      (∀ d, (ctx.table.attributes mark.id).decl ≠ some (.struct d)) →
      c.Blame (.fault ⟨.notStruct name, none⟩))
    (hcall : e.isCall = true → ∀ d, V (.function d) → c.Calls V W sub sub' m env ctx d) :
    c.Honours m (expression ctx sub env e) (expression ctx sub' env e) fun _ v => W v := by
  have plain : ∀ v : Value, v.IsPlain →
      ∀ {m}, c.Honours m (Pure.pure v : Eval Value) (Pure.pure v) fun _ v => W v := fun v hv _ =>
    pure (hw.stored v (ha.plain v hv))
  have storable : ∀ {m} {x y : Eval Value}, (c.Honours m x y fun _ v => V v) →
      c.Honours m x y fun _ v => W v := fun h => h.weaken fun _ v _ hv => hw.stored v hv
  refine attach ?_
  cases e with
  | int mark i => exact plain _ (by simp [Value.IsPlain, Value.kind])
  | float mark x => exact plain _ (by simp [Value.IsPlain, Value.kind])
  | string mark s => exact plain _ (by simp [Value.IsPlain, Value.kind])
  | bool mark b => exact plain _ (by simp [Value.IsPlain, Value.kind])
  | null mark => exact plain _ (by simp [Value.IsPlain, Value.kind])
  | reference r => exact storable (reference ha (hname r rfl).1 (hname r rfl).2 (hslot r rfl).now)
  | constructor mark name => exact storable (constructor ha (hstruct mark name rfl))
  | array mark elements =>
    refine (expressions fun e' he' => hunchecked e' he' he').bind fun m₁ values _ hvalues => ?_
    refine (alloc ha ?_).bind fun m₂ o _ _ => plain _ (by simp [Value.IsPlain, Value.kind])
    intro v hv
    simp only [List.mem_toArray, List.mem_map] at hv
    obtain ⟨w, hw, rfl⟩ := hv
    exact ha.widen (hvalues w hw)
  | field mark stem name =>
    exact (hparts stem (by simp [Expr.parts])).now.bind fun m₁ s _ _ => storable (fieldOf ha)
  | index mark array index =>
    refine (access ha (hparts array (by simp [Expr.parts]))
      (hparts index (by simp [Expr.parts]))).bind ?_
    rintro m₁ ⟨o, i⟩ - -
    exact storable (getElement ha)
  | call mark callee arguments =>
    refine (hparts callee (by simp [Expr.parts])).now.bind fun m₁ f h₁ hf => ?_
    have harguments : ∀ e ∈ arguments, c.Evaluates V sub sub' m₁ env e := fun e he =>
      (hunchecked e (by simp [Expr.parts, he]) he).mono h₁
    refine (expressions harguments).bind fun m₂ args h₂ hargs => call ha hw hargs ?_
    rintro d rfl m₃ args h₃
    have hd : V (.function d) := hw.checked _ hf (by simp [Value.kind])
    exact hcall rfl d hd m₃ args (c.trans h₁ (c.trans h₂ h₃))
  | not mark operand =>
    refine (hparts operand (by simp [Expr.parts])).now.bind fun m₁ v _ _ => ?_
    split
    · exact plain _ (by simp [Value.IsPlain, Value.kind])
    · exact raise (ha.faults _ _ rfl)
  | binary mark op left right =>
    exact storable (binary ha (hparts left (by simp [Expr.parts]))
      (hparts right (by simp [Expr.parts])))
  | assign mark target value =>
    refine storable (assign ha hparts (fun hvalue => hunchecked value hvalue ?_) fun r hr => ?_)
    · simp [Expr.unchecked]
    · subst hr
      exact hslot r rfl
  | paren mark inner => exact (hparts inner (by simp [Expr.parts])).now
  | query mark target question =>
    refine storable (query ha ?_ (hslot target rfl))
    rintro goal rfl
    exact hgoal goal rfl
  | placeholder mark name type => exact raise (ha.faults _ _ rfl)
  | logic goal =>
    cases goal with
    | atom mark name => exact plain _ (by simp [Value.IsPlain, Value.kind])
    | call mark functor arguments =>
      exact (hgoal _ rfl).now.bind fun m₁ b _ _ => plain _ (by simp [Value.IsPlain, Value.kind])
    | paren mark inner =>
      exact (hgoal _ rfl).now.bind fun m₁ b _ _ => plain _ (by simp [Value.IsPlain, Value.kind])
    | not mark operand =>
      exact (hgoal _ rfl).now.bind fun m₁ b _ _ => plain _ (by simp [Value.IsPlain, Value.kind])
    | binary mark op left right =>
      exact (hgoal _ rfl).now.bind fun m₁ b _ _ => plain _ (by simp [Value.IsPlain, Value.kind])

theorem resolveRule {depth : Nat} {r : Rule} {arguments : List Expr} (ha : c.Admits V)
    (hargs : ∀ e ∈ arguments, c.Evaluates V sub sub' m env e)
    (hbody : ∀ m₁ m₂, c.Leads m m₁ → c.Leads m₁ m₂ → m₁.Entered r.scope m₂ →
      c.Honours m₂ (sub.resolve (m₁.frames.size :: r.env) (depth + 1) r.decl.body)
        (sub'.resolve (m₁.frames.size :: r.env) (depth + 1) r.decl.body) fun _ _ => True) :
    c.Honours m (resolveRule ctx sub env depth r arguments)
      (resolveRule ctx sub' env depth r arguments) fun _ _ => True := by
  unfold Eval.resolveRule
  split
  · refine (expressions hargs).bind fun m₁ args h₁ hvalues => (push ha).bind ?_
    rintro m₂ f h₂ ⟨rfl, rfl, hf⟩
    have hentered := Machine.entered_push m₁ r.scope
    refine (bindParameters ha hf hentered.2 hvalues).bind ?_
    rintro m₃ - h₃ rfl
    exact hbody m₁ _ h₁ (c.trans h₂ h₃) (hentered.bindAll ..)
  · exact pure trivial

theorem resolveCall {depth : Nat} {mark : Mark} {functor : String} {arguments : List Expr}
    (hargs : ∀ e ∈ arguments, c.Evaluates V sub sub' m env e)
    (hrule : ∀ scope f r, (ctx.table.attributes mark.id).scope = some scope →
      m.frameOf? env scope = some f → (m.frame f).predicates.get? functor = some (.rule r) →
      c.Honours m (Eval.resolveRule ctx sub env depth r arguments)
        (Eval.resolveRule ctx sub' env depth r arguments) fun _ _ => True) :
    c.Honours m (resolveCall ctx sub env depth mark functor arguments)
      (resolveCall ctx sub' env depth mark functor arguments) fun _ _ => True := by
  unfold Eval.resolveCall
  dsimp only
  split
  · rename_i d scope hd hs
    refine get_bind ?_
    split
    · exact pure trivial
    · rename_i f hf
      split
      · exact pure trivial
      · exact (expressions hargs).bind fun m₁ args _ _ => get_bind (pure trivial)
      · exact hrule scope f _ hs hf ‹_›
  · exact pure trivial

theorem resolve {depth : Nat} {goal : Goal} (ha : c.Admits V)
    (hparts : ∀ g ∈ goal.parts, c.Resolves sub sub' m env depth g)
    (hcall : depth ≤ ctx.maxDepth → ∀ mark functor arguments, goal = .call mark functor arguments →
      c.Honours m (Eval.resolveCall ctx sub env depth mark functor arguments)
        (Eval.resolveCall ctx sub' env depth mark functor arguments) fun _ _ => True) :
    c.Honours m (resolve ctx sub env depth goal) (resolve ctx sub' env depth goal)
      fun _ _ => True := by
  unfold Eval.resolve
  split
  · exact raiseAt (ha.faults _ _ rfl)
  · rename_i hdepth
    cases goal with
    | atom mark name => exact pure trivial
    | call mark functor arguments => exact hcall (by omega) mark functor arguments rfl
    | paren mark inner => exact (hparts inner (by simp [Goal.parts])).now
    | not mark operand =>
      exact (hparts operand (by simp [Goal.parts])).now.bind fun m₁ b _ _ => pure trivial
    | binary mark op left right =>
      refine (hparts left (by simp [Goal.parts])).now.bind fun m₁ l h₁ _ => ?_
      exact (hparts right (by simp [Goal.parts]) m₁ h₁).bind fun m₂ r _ _ => pure trivial

theorem ground {functor : String} {es : List Expr} (ha : c.Admits V)
    (h : ∀ e ∈ es, c.Evaluates W sub sub' m env e) :
    c.Honours m (ground sub env functor es) (ground sub' env functor es)
      fun _ vs => ∀ v ∈ vs, v.kind ≠ .void := by
  induction es generalizing m with
  | nil => exact pure (by simp)
  | cons e es ih =>
    have hrest : ∀ m₁, c.Leads m m₁ → ∀ e ∈ es, c.Evaluates W sub sub' m₁ env e :=
      fun m₁ h₁ e he => (h e (List.mem_cons_of_mem _ he)).mono h₁
    unfold Eval.ground
    dsimp only
    split
    · exact raiseAt_bind (ha.faults _ _ rfl)
    · refine (h e List.mem_cons_self).now.bind fun m₁ v h₁ hv => ?_
      split
      · exact raiseAt_bind (ha.faults _ _ rfl)
      · refine (ih (hrest m₁ h₁)).bind fun m₂ vs _ hvs => pure ?_
        simpa using ⟨‹_›, hvs⟩

theorem declareFact {d : FactDecl} (ha : c.Admits V)
    (hargs : ∀ e ∈ d.arguments, c.Evaluates W sub sub' m env e)
    (hslot : c.Sees m env ctx ⟨.factDeclaration, d.mark⟩) :
    c.Honours m (declareFact ctx sub env d) (declareFact ctx sub' env d) fun _ _ => True := by
  refine (ground ha hargs).bind fun m₁ tuple h₁ htuple => ?_
  refine (storeFrame (hslot m₁ h₁)).bind fun m₂ f _ hf => ?_
  exact (addFact ha hf.2 htuple).bind fun m₃ _ _ _ => (log ha).weaken fun _ _ _ _ => trivial

theorem bindPlaceholder {mark : Mark} {name : String} {e : Expr} (ha : c.Admits V)
    (h : c.Evaluates V sub sub' m env e) (hslot : c.Sees m env ctx ⟨.unboundParameter, mark⟩) :
    c.Honours m (bindPlaceholder ctx sub env mark name e)
      (bindPlaceholder ctx sub' env mark name e) fun _ _ => True := by
  unfold Eval.bindPlaceholder
  dsimp only
  split
  · refine h.now.bind fun m₁ v h₁ hv => ?_
    refine (writeAt ha (hslot m₁ h₁) hv).bind fun m₂ _ _ _ => ?_
    exact (display ha).bind fun m₃ text _ _ => (log ha).weaken fun _ _ _ _ => trivial
  · exact raiseAt_bind (ha.faults _ _ rfl)

theorem matchValues {left right : Expr} (ha : c.Admits V)
    (hl : c.Evaluates W sub sub' m env left) (hr : c.Evaluates W sub sub' m env right) :
    c.Honours m (matchValues ctx sub env left right) (matchValues ctx sub' env left right)
      fun _ _ => True := by
  unfold Eval.matchValues
  dsimp only
  split
  · refine hl.now.bind fun m₁ l h₁ _ => (hr m₁ h₁).bind fun m₂ r _ _ => ?_
    split
    · exact pure trivial
    · exact (display ha).bind fun m₃ s _ _ => (display ha).bind fun m₄ t _ _ =>
        raiseAt (ha.faults _ _ rfl)
  · exact raiseAt_bind (ha.faults _ _ rfl)

theorem unifyPosition {left right : Expr} (ha : c.Admits V)
    (hl : c.Evaluates V sub sub' m env left) (hr : c.Evaluates V sub sub' m env right)
    (hslot : ∀ mark name type,
      left = .placeholder mark name type ∨ right = .placeholder mark name type →
      c.Sees m env ctx ⟨.unboundParameter, mark⟩) :
    c.Honours m (unifyPosition ctx sub env left right) (unifyPosition ctx sub' env left right)
      fun _ _ => True := by
  unfold Eval.unifyPosition
  split
  · exact raiseAt (ha.faults _ _ rfl)
  · exact bindPlaceholder ha hr (hslot _ _ _ (.inl rfl))
  · exact bindPlaceholder ha hl (hslot _ _ _ (.inr rfl))
  · exact matchValues ha hl hr

theorem unifyAll {ls rs : List Expr} (ha : c.Admits V)
    (h : ∀ e ∈ ls ++ rs, c.Evaluates V sub sub' m env e)
    (hslot : ∀ mark name type, .placeholder mark name type ∈ ls ++ rs →
      c.Sees m env ctx ⟨.unboundParameter, mark⟩) :
    c.Honours m (unifyAll ctx sub env ls rs) (unifyAll ctx sub' env ls rs) fun _ _ => True := by
  induction ls generalizing m rs with
  | nil => exact pure trivial
  | cons l ls ih =>
    cases rs with
    | nil => exact pure trivial
    | cons r rs =>
      have hposition : c.Honours m (Eval.unifyPosition ctx sub env l r)
          (Eval.unifyPosition ctx sub' env l r) fun _ _ => True := by
        refine unifyPosition ha (h l (by simp)) (h r (by simp)) fun mark name type hp => ?_
        exact hslot mark name type (by rcases hp with rfl | rfl <;> simp)
      refine hposition.bind fun m₁ _ h₁ _ => ih (fun e he => ?_) fun mark name type hp m₂ h₂ => ?_
      · have hmem : e ∈ (l :: ls) ++ r :: rs := by
          simp only [List.mem_append, List.mem_cons] at he ⊢
          tauto
        exact (h e hmem).mono h₁
      · have hmem : .placeholder mark name type ∈ (l :: ls) ++ r :: rs := by
          simp only [List.mem_append, List.mem_cons] at hp ⊢
          tauto
        exact hslot mark name type hmem m₂ (c.trans h₁ h₂)

theorem unify {mark : Mark} {left right : PredicateCall} (ha : c.Admits V)
    (h : ∀ e ∈ left.arguments ++ right.arguments, c.Evaluates V sub sub' m env e)
    (hslot : ∀ mark name type, .placeholder mark name type ∈ left.arguments ++ right.arguments →
      c.Sees m env ctx ⟨.unboundParameter, mark⟩) :
    c.Honours m (unify ctx sub env mark left right) (unify ctx sub' env mark left right)
      fun _ _ => True := by
  unfold Eval.unify
  dsimp only
  split
  · exact raiseAt_bind (ha.faults _ _ rfl)
  · split
    · exact raiseAt_bind (ha.faults _ _ rfl)
    · exact unifyAll ha h hslot

theorem initialValue {initializer : Option Expr} (ha : c.Admits V) (hw : WithVoid V W)
    (h : ∀ e ∈ initializer.toList, c.Evaluates W sub sub' m env e) :
    c.Honours m (initialValue sub env initializer) (initialValue sub' env initializer)
      fun _ v => W v := by
  cases initializer with
  | none => exact pure (hw.stored _ (ha.plain _ (by simp [Value.IsPlain, Value.kind])))
  | some e => exact (h e (by simp)).now

theorem declareVar {d : VarDecl} (ha : c.Admits V) (hw : WithVoid V W)
    (h : ∀ e ∈ d.initializer.toList, c.Evaluates W sub sub' m env e)
    (hslot : c.Sees m env ctx ⟨.varDeclaration, d.mark⟩) :
    c.Honours m (declareVar ctx sub env d) (declareVar ctx sub' env d) fun _ _ => True := by
  refine (initialValue ha hw h).bind fun m₁ v h₁ hv => ?_
  dsimp only
  split
  · exact raise_bind (ha.faults _ _ rfl)
  · exact writeAt ha (hslot m₁ h₁) (hw.checked v hv ‹_›)

theorem statements {ss : List Stmt} (h : ∀ s ∈ ss, c.Executes V sub sub' m env s) :
    c.Honours m (statements sub env ss) (statements sub' env ss) fun _ done => done.All V := by
  induction ss generalizing m with
  | nil => exact pure trivial
  | cons s ss ih =>
    refine (h s List.mem_cons_self).now.bind fun m₁ done h₁ hdone => ?_
    cases done with
    | normal => exact ih fun s hs => (h s (List.mem_cons_of_mem _ hs)).mono h₁
    | returned v => exact pure hdone

theorem enterBlock {b : Block} {k k' : FrameId → Eval Completion} (ha : c.Admits V)
    (hscope : (ctx.table.attributes b.mark.id).scope = none →
      c.Blame (.fault ⟨.nodeWithoutScope .block, none⟩))
    (hk : ∀ scope, (ctx.table.attributes b.mark.id).scope = some scope → ∀ m', c.Leads m m' →
      m.Entered scope m' → c.Honours m' (k m.frames.size) (k' m.frames.size)
        fun _ done => done.All W) :
    c.Honours m (Eval.scopeOf ctx ⟨.block, b.mark⟩ >>= fun scope => Eval.push scope >>= k)
      (Eval.scopeOf ctx ⟨.block, b.mark⟩ >>= fun scope => Eval.push scope >>= k')
      fun _ done => done.All W := by
  refine (scopeOf hscope).bind ?_
  rintro m₁ scope - ⟨rfl, hs⟩
  refine (push ha).bind ?_
  rintro m₂ f h₂ ⟨rfl, rfl, -⟩
  exact hk scope hs _ h₂ (Machine.entered_push m₁ scope)

theorem statement {s : Stmt} (ha : c.Admits V) (hw : WithVoid V W)
    (hparts : ∀ e ∈ s.parts, c.Evaluates W sub sub' m env e)
    (hunchecked : ∀ e ∈ s.parts, e ∈ s.unchecked → c.Evaluates V sub sub' m env e)
    (hslots : ∀ node ∈ s.slots, c.Sees m env ctx node)
    (hbranches : ∀ s' ∈ s.branches, c.Executes W sub sub' m env s')
    (hfunction : ∀ d, s = .function d → V (.function d))
    (hrule : ∀ d, s = .rule d →
      c.Honours m (Eval.declareRule ctx env d) (Eval.declareRule ctx env d) fun _ _ => True)
    (hscope : ∀ b, s.block? = some b → (ctx.table.attributes b.mark.id).scope = none →
      c.Blame (.fault ⟨.nodeWithoutScope .block, none⟩))
    (hblock : ∀ b, s = .block b → ∀ scope, (ctx.table.attributes b.mark.id).scope = some scope →
      ∀ m', c.Leads m m' → m.Entered scope m' →
      ∀ s' ∈ b.statements, c.Executes W sub sub' m' (m.frames.size :: env) s')
    (hloop : ∀ mark condition b, s = .loop mark condition (.block b) →
      ∀ scope, (ctx.table.attributes b.mark.id).scope = some scope →
      ∀ m', c.Leads m m' → m.Entered scope m' →
      c.Repeats W sub sub' m' env condition (.block (m.frames.size :: env) b))
    (hbare : ∀ mark condition body, s = .loop mark condition body → (∀ b, body ≠ .block b) →
      c.Repeats W sub sub' m env condition (.statement body)) :
    c.Honours m (statement ctx sub env s) (statement ctx sub' env s) fun _ done => done.All W := by
  have ending : ∀ {x y : Eval Unit}, (c.Honours m x y fun _ _ => True) →
      c.Honours m (x >>= fun _ => Pure.pure Completion.normal)
        (y >>= fun _ => Pure.pure Completion.normal) fun _ done => done.All W := fun h =>
    h.bind fun _ _ _ _ => pure trivial
  refine attach ?_
  cases s with
  | block b =>
    refine enterBlock ha (hscope b rfl) fun scope hs m' hm' hentered => ?_
    exact statements (hblock b rfl scope hs m' hm' hentered)
  | expr mark e =>
    exact (hparts e (by simp [Stmt.parts])).now.bind fun m₁ v _ _ => pure trivial
  | var d => exact ending (declareVar ha hw hparts (hslots _ (by simp [Stmt.slots])))
  | function d =>
    exact ending (writeAt ha (hslots _ (by simp [Stmt.slots])).now (hfunction d rfl))
  | struct d =>
    exact ending (writeAt ha (hslots _ (by simp [Stmt.slots])).now
      (ha.plain _ (by simp [Value.IsPlain, Value.kind])))
  | cond mark condition yes no =>
    refine (holds ha (hparts condition (by simp [Stmt.parts]))).bind fun m₁ b h₁ _ => ?_
    split
    · exact hbranches yes (by simp [Stmt.branches]) m₁ h₁
    · cases no with
      | none => exact pure trivial
      | some s' => exact hbranches s' (by simp [Stmt.branches]) m₁ h₁
  | loop mark condition body =>
    cases body with
    | block b =>
      refine enterBlock ha (hscope b rfl) fun scope hs m' hm' hentered => ?_
      exact hloop mark condition b rfl scope hs m' hm' hentered m' (c.refl m')
    | _ => exact hbare mark condition _ rfl (by simp) m (c.refl m)
  | ret mark value =>
    cases value with
    | none => exact pure hw.void
    | some e => exact (hparts e (by simp [Stmt.parts])).now.bind fun m₁ v _ hv => pure hv
  | atom d => exact ending (declareAtom ha (hslots _ (by simp [Stmt.slots])))
  | fact d => exact ending (declareFact ha hparts (hslots _ (by simp [Stmt.slots])))
  | rule d => exact ending (hrule d rfl)
  | unify mark left right =>
    refine ending (unify ha (fun e he => hunchecked e he he) fun mark name type hp => hslots _ ?_)
    exact List.mem_filterMap.mpr ⟨_, hp, rfl⟩

theorem round {body : LoopBody}
    (hblock : ∀ inner b, body = .block inner b → ∀ s ∈ b.statements,
      c.Executes V sub sub' m inner s)
    (hstatement : ∀ s, body = .statement s → c.Executes V sub sub' m env s) :
    c.Honours m (round sub env body) (round sub' env body) fun _ done => done.All V := by
  cases body with
  | block inner b => exact attach (statements (hblock inner b rfl))
  | statement s => exact (hstatement s rfl).now

theorem rounds {condition : Expr} {body : LoopBody} (ha : c.Admits V)
    (hcondition : c.Evaluates W sub sub' m env condition)
    (hround : ∀ m', c.Leads m m' →
      c.Honours m' (Eval.round sub env body) (Eval.round sub' env body) fun _ done => done.All W)
    (hrest : c.Repeats W sub sub' m env condition body) :
    c.Honours m (rounds sub env condition body) (rounds sub' env condition body)
      fun _ done => done.All W := by
  refine (holds ha hcondition).bind fun m₁ b h₁ _ => ?_
  split
  · refine (hround m₁ h₁).bind fun m₂ done h₂ hdone => ?_
    cases done with
    | normal => exact hrest m₂ (c.trans h₁ h₂)
    | returned v => exact pure hdone
  · exact pure trivial

end Honours

end Contract

end LogicScript
