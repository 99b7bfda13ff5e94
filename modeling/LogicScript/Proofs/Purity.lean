import LogicScript.Proofs.Parts
import LogicScript.Proofs.Renaming
import LogicScript.Proofs.Termination

/-! Expressions that call no function, assign nothing and ask no query.

They leave everything as it was and only add frames and objects. Their evaluation can therefore be
followed in any machine that has the same at other positions, in particular in the one that the
evaluation itself left behind. -/
namespace LogicScript

open Eval

/-- Whether a node calls a function, assigns a value or stores an answer. -/
def Node.isEffect : Node → Bool
  | .expression (.call _ _ _) | .expression (.assign _ _ _) | .expression (.query _ _ _) => true
  | _ => false

def Expr.Pure (e : Expr) : Prop := ∀ node ∈ e.nodes, node.isEffect = false

def Goal.Pure (goal : Goal) : Prop := ∀ node ∈ goal.nodes, node.isEffect = false

theorem Expr.Pure.parts {e e' : Expr} (h : e.Pure) (he : e' ∈ e.parts) : e'.Pure :=
  fun node hnode => h node (nodes_parts he hnode)

theorem Expr.Pure.goal {e : Expr} {goal : Goal} (h : e.Pure) (hg : e.goal? = some goal) :
    goal.Pure := fun node hnode => h node (nodes_goal hg hnode)

theorem Goal.Pure.parts {goal g : Goal} (h : goal.Pure) (hg : g ∈ goal.parts) : g.Pure :=
  fun node hnode => h node (nodes_parts hg hnode)

theorem Goal.Pure.arguments {mark : Mark} {functor : String} {arguments : List Expr} {e : Expr}
    (h : (Goal.call mark functor arguments).Pure) (he : e ∈ arguments) : e.Pure :=
  fun node hnode => h node (nodes_arguments he hnode)

/-- The bodies of all stored rules are pure. -/
def Machine.PureRules (m : Machine) : Prop := m.AllRules fun _ r => r.decl.body.Pure

theorem Machine.PureRules.mono {m m' : Machine} (h : m.PureRules) (hm : m.Intact m') :
    m'.PureRules := h.of_eq hm.stores

theorem Machine.bindAll_objects (t : Table) (f : FrameId) (ps : List Parameter) (vs : List Value)
    (m : Machine) : (m.bindAll t f ps vs).objects = m.objects ∧
      (m.bindAll t f ps vs).output = m.output ∧ (m.bindAll t f ps vs).events = m.events := by
  induction ps generalizing m vs with
  | nil => exact ⟨rfl, rfl, rfl⟩
  | cons p ps ih =>
    cases vs with
    | nil => exact ⟨rfl, rfl, rfl⟩
    | cons v vs => exact ih vs (m.define f p.name _)

theorem Machine.Intact.bodyMachine (ctx : Context) (m : Machine) (r : Rule) (args : List Value) :
    m.Intact (bodyMachine ctx m r args) := by
  obtain ⟨hobjects, houtput, hevents⟩ := bindAll_objects ctx.table m.frames.size r.decl.parameters
    args (m.push r.scope).2
  refine ⟨retained_bodyMachine, ?_, fun f => ?_, houtput, hevents⟩
  · rw [Eval.bodyMachine, hobjects]
    exact ⟨Nat.le_refl _, fun _ _ => rfl⟩
  · rw [frame_bodyMachine]
    split
    · subst f
      simp [Machine.frame, Rule.frame]
      rfl
    · rfl

section Follows

variable {α β γ δ : Type}

/-- Two evaluations ended alike, the second one with the renamed result, and the machine that the
first one began in is intact. -/
def Alike (σ : Shift) (g : α → β) (m : Machine) :
    EStateM.Result Halt Machine α → EStateM.Result Halt Machine β → Prop
  | .ok a m₁, .ok b m₁' => m.Intact m₁ ∧ m₁.Mirrors σ m₁' ∧ b = g a
  | .error h m₁, .error h' m₁' => m.Intact m₁ ∧ m₁.Mirrors σ m₁' ∧ h' = h
  | _, _ => False

/-- What the first evaluation does in a machine, the second one does in a machine that mirrors
it. -/
def Follows (σ : Shift) (m m' : Machine) (x : Eval α) (y : Eval β) (g : α → β) : Prop :=
  m.Mirrors σ m' → m.PureRules → Alike σ g m (x m) (y m')

theorem Alike.of_intact {σ : Shift} {g : α → β} {m m₁ : Machine}
    {r : EStateM.Result Halt Machine α} {s : EStateM.Result Halt Machine β} (h : Alike σ g m₁ r s)
    (hm : m.Intact m₁) : Alike σ g m r s := by
  cases r <;> cases s <;> first | exact h.elim | exact ⟨hm.trans h.1, h.2⟩

namespace Follows

variable {σ : Shift} {m m' : Machine} {g : α → β} {k : γ → δ}

theorem pure {a : α} {b : β} (h : b = g a) : Follows σ m m' (Pure.pure a) (Pure.pure b) g :=
  fun hm _ => ⟨.refl m, hm, h⟩

theorem throw (h : Halt) :
    Follows σ m m' (MonadExcept.throw h) (MonadExcept.throw h) g :=
  fun hm _ => ⟨.refl m, hm, rfl⟩

theorem raise (c : Cause) : Follows σ m m' (Eval.raise c) (Eval.raise c) g := throw _

theorem raiseAt (c : Cause) (node : NodeRef) :
    Follows σ m m' (Eval.raiseAt c node) (Eval.raiseAt c node) g := throw _

theorem bind {x : Eval α} {y : Eval β} {f : α → Eval γ} {f' : β → Eval δ}
    (h : Follows σ m m' x y g) (hf : ∀ m₁ m₁' a, Follows σ m₁ m₁' (f a) (f' (g a)) k) :
    Follows σ m m' (x >>= f) (y >>= f') k := by
  intro hm hr
  have hxy := h hm hr
  cases hx : x m with
  | ok a m₁ =>
    cases hy : y m' with
    | ok b m₁' =>
      rw [hx, hy] at hxy
      obtain ⟨hi, hm₁, rfl⟩ := hxy
      rw [bind_of_ok hx, bind_of_ok hy]
      exact (hf m₁ m₁' a hm₁ (hr.mono hi)).of_intact hi
    | error e m₁' =>
      rw [hx, hy] at hxy
      exact hxy.elim
  | error e m₁ =>
    cases hy : y m' with
    | ok b m₁' =>
      rw [hx, hy] at hxy
      exact hxy.elim
    | error e' m₁' =>
      rw [hx, hy] at hxy
      rw [bind_of_error hx, bind_of_error hy]
      exact hxy

theorem attach {x : Eval α} {y : Eval β} {node : NodeRef} (h : Follows σ m m' x y g) :
    Follows σ m m' (Eval.attach node x) (Eval.attach node y) g := by
  intro hm hr
  have hxy := h hm hr
  unfold Eval.attach
  revert hxy
  cases x m with
  | ok a m₁ =>
    cases y m' with
    | ok b m₁' => exact id
    | error e' m₁' => exact False.elim
  | error e m₁ =>
    cases y m' with
    | ok b m₁' => exact False.elim
    | error e' m₁' =>
      rintro ⟨hi, hm₁, rfl⟩
      cases e' <;> exact ⟨hi, hm₁, rfl⟩

theorem get_bind {f : Machine → Eval α} {f' : Machine → Eval β}
    (h : m.Mirrors σ m' → m.PureRules → Follows σ m m' (f m) (f' m') g) :
    Follows σ m m' (MonadState.get >>= f) (MonadState.get >>= f') g :=
  fun hm hr => h hm hr hm hr

theorem lift {e : Except Cause α} {e' : Except Cause β} (h : e' = e.map g) :
    Follows σ m m' (Eval.lift e) (Eval.lift e') g := by
  subst h
  cases e with
  | ok a => exact pure rfl
  | error c => exact raise c

theorem alloc (object : Object) :
    Follows σ m m' (Eval.alloc object) (Eval.alloc (object.rename σ.object)) σ.object :=
  fun hm _ => ⟨.alloc m object, hm.alloc object, hm.nextObject⟩

theorem scopeOf (ctx : Context) (node : NodeRef) :
    Follows σ m m' (Eval.scopeOf ctx node) (Eval.scopeOf ctx node) id := by
  unfold Eval.scopeOf
  split
  · exact pure rfl
  · exact raise _

theorem read (ctx : Context) (env : Env) (scope : ScopeId) (name : String) :
    Follows σ m m' (Eval.read ctx env scope name) (Eval.read ctx (env.map σ.frame) scope name)
      (·.rename σ.object) := by
  refine get_bind fun hm _ => lift ?_
  unfold Machine.read
  rw [hm.frameOf?]
  cases m.frameOf? env scope with
  | none => rfl
  | some f =>
    simp only [Option.map_some, hm.bound]
    cases (m.frame f).bindings.get? name <;> rfl

theorem reference (ctx : Context) (env : Env) (r : Reference) :
    Follows σ m m' (Eval.reference ctx env r) (Eval.reference ctx (env.map σ.frame) r)
      (·.rename σ.object) := by
  unfold Eval.reference
  split
  · exact raise _
  · exact pure rfl
  · exact pure rfl
  · exact pure rfl
  · exact pure rfl
  · exact (scopeOf ctx _).bind fun _ _ scope => read ctx env scope r.name

theorem constructor (ctx : Context) (mark : Mark) (name : String) :
    Follows σ m m' (Eval.constructor ctx mark name) (Eval.constructor ctx mark name)
      (·.rename σ.object) := by
  unfold Eval.constructor
  split
  · exact pure rfl
  · exact raise _

theorem fieldOf (stem : Value) (name : String) :
    Follows σ m m' (Eval.fieldOf stem name) (Eval.fieldOf (stem.rename σ.object) name)
      (·.rename σ.object) := by
  refine get_bind fun hm _ => ?_
  cases stem with
  | array o =>
    simp only [Value.rename, hm.held]
    cases m.objects[o]? with
    | none => exact raise _
    | some object =>
      cases object with
      | array elements =>
        simp only [Option.map_some, Object.rename, Array.size_map]
        split
        · exact pure rfl
        · exact raise _
      | struct d fields => exact raise _
  | struct o =>
    simp only [Value.rename, hm.held]
    cases m.objects[o]? with
    | none => exact raise _
    | some object =>
      cases object with
      | array elements => exact raise _
      | struct d fields =>
        simp only [Option.map_some, Object.rename, Bindings.get?_map]
        cases fields.get? name with
        | none => exact raise _
        | some v => exact pure rfl
  | _ => exact raise _

theorem element (array index : Value) :
    Follows σ m m' (Eval.element array index)
      (Eval.element (array.rename σ.object) (index.rename σ.object))
      fun p => (σ.object p.1, p.2) := by
  cases array with
  | array o =>
    refine get_bind fun hm _ => ?_
    have hlength : m'.arrayLength (σ.object o) = m.arrayLength o := by
      unfold Machine.arrayLength
      rw [hm.held]
      cases m.objects[o]? with
      | none => rfl
      | some object => cases object <;> simp [Object.rename]
    cases index with
    | int i =>
      simp only [Value.rename, hlength]
      split
      · exact pure rfl
      · exact raise _
    | _ => exact raise _
  | _ => exact raise _

theorem getElement (o : ObjectId) (i : Nat) :
    Follows σ m m' (Eval.getElement o i) (Eval.getElement (σ.object o) i)
      (·.rename σ.object) := by
  refine get_bind fun hm _ => ?_
  rw [hm.held]
  cases m.objects[o]? with
  | none => exact pure rfl
  | some object =>
    cases object with
    | array elements =>
      refine pure ?_
      by_cases hi : i < elements.size <;> simp [Array.getD, hi, Value.rename]
    | struct d fields => exact pure rfl

section Step

variable {ctx : Context} {sub : Evaluator} {env : Env}

/-- Wherever an expression is evaluated, it can be followed. -/
def Evaluates (σ : Shift) (sub : Evaluator) (env : Env) (e : Expr) : Prop := ∀ m m',
  Follows σ m m' (sub.expression env e) (sub.expression (env.map σ.frame) e) (·.rename σ.object)

def Resolves (σ : Shift) (sub : Evaluator) (env : Env) (depth : Nat) (goal : Goal) : Prop :=
  ∀ m m', Follows σ m m' (sub.resolve env depth goal) (sub.resolve (env.map σ.frame) depth goal) id

theorem expressions {es : List Expr} (h : ∀ e ∈ es, Evaluates σ sub env e) :
    Follows σ m m' (Eval.expressions sub env es) (Eval.expressions sub (env.map σ.frame) es)
      (List.map (·.rename σ.object)) := by
  induction es generalizing m m' with
  | nil => exact pure rfl
  | cons e es ih =>
    refine (h e List.mem_cons_self m m').bind fun m₁ m₁' v => ?_
    exact (ih fun e he => h e (List.mem_cons_of_mem _ he)).bind fun m₂ m₂' vs => pure rfl

theorem access {array index : Expr} (ha : Evaluates σ sub env array)
    (hi : Evaluates σ sub env index) :
    Follows σ m m' (Eval.access sub env array index) (Eval.access sub (env.map σ.frame) array index)
      fun p => (σ.object p.1, p.2) :=
  (ha m m').bind fun m₁ m₁' a => (hi m₁ m₁').bind fun _ _ i => element a i

theorem truth {e : Expr} (h : Evaluates σ sub env e) :
    Follows σ m m' (Eval.truth sub env e) (Eval.truth sub (env.map σ.frame) e) id := by
  refine (h m m').bind fun m₁ m₁' v => ?_
  cases v with
  | bool b => exact pure rfl
  | _ => exact raise _

theorem display {v : Value} :
    Follows σ m m' (Eval.display v) (Eval.display (v.rename σ.object)) id := by
  refine get_bind fun hm _ => ?_
  rw [hm.text?]
  cases m.text? v with
  | some text => exact pure rfl
  | none => exact throw _

theorem operate {op : BinaryOp} {s t : Ty} {l r : Value} :
    Follows σ m m' (Eval.operate op s t l r)
      (Eval.operate op s t (l.rename σ.object) (r.rename σ.object)) (·.rename σ.object) := by
  unfold Eval.operate
  split
  · exact display.bind fun _ _ left => display.bind fun _ _ right => pure rfl
  · exact lift (Operator.apply_rename σ.object_injective)

theorem binary {op : BinaryOp} {left right : Expr} (hl : Evaluates σ sub env left)
    (hr : Evaluates σ sub env right) :
    Follows σ m m' (Eval.binary ctx sub env op left right)
      (Eval.binary ctx sub (env.map σ.frame) op left right) (·.rename σ.object) := by
  unfold Eval.binary
  split
  · refine (truth hl).bind fun m₁ m₁' b => ?_
    cases b with
    | true => exact (truth hr).bind fun m₂ m₂' b => pure rfl
    | false => exact pure rfl
  · refine (truth hl).bind fun m₁ m₁' b => ?_
    cases b with
    | true => exact pure rfl
    | false => exact (truth hr).bind fun m₂ m₂' b => pure rfl
  · exact (hl m m').bind fun m₁ m₁' l => (hr m₁ m₁').bind fun m₂ m₂' r => operate

theorem expression {e : Expr} (he : e.Pure) (hparts : ∀ e' ∈ e.parts, Evaluates σ sub env e')
    (hgoal : ∀ goal, e.goal? = some goal → Resolves σ sub env 0 goal) :
    Follows σ m m' (Eval.expression ctx sub env e)
      (Eval.expression ctx sub (env.map σ.frame) e) (·.rename σ.object) := by
  have heffect : (Node.expression e).isEffect = false := he _ e.self_mem_nodes
  have hanswer : ∀ goal, e.goal? = some goal →
      Follows σ m m' (sub.resolve env 0 goal >>= fun b => Pure.pure (Value.bool b))
        (sub.resolve (env.map σ.frame) 0 goal >>= fun b => Pure.pure (Value.bool b))
        (·.rename σ.object) := fun goal hg =>
    (hgoal goal hg m m').bind fun _ _ b => pure rfl
  refine attach ?_
  cases e with
  | int mark i => exact pure rfl
  | float mark x => exact pure rfl
  | string mark s => exact pure rfl
  | bool mark b => exact pure rfl
  | null mark => exact pure rfl
  | reference r => exact reference ctx env r
  | constructor mark name => exact constructor ctx mark name
  | array mark elements =>
    refine (expressions hparts).bind fun m₁ m₁' vs => ?_
    have hwiden : ((vs.map (·.rename σ.object)).map
        (·.widen (elementTypeOf ctx mark))).toArray =
        ((vs.map (·.widen (elementTypeOf ctx mark))).toArray).map (·.rename σ.object) := by
      simp [Value.widen_rename, Function.comp_def]
    simp only [hwiden]
    exact (alloc (.array _)).bind fun m₂ m₂' o => pure rfl
  | field mark stem name =>
    exact (hparts stem (by simp [Expr.parts]) m m').bind fun m₁ m₁' s => fieldOf s name
  | index mark array index =>
    refine (access (hparts array (by simp [Expr.parts]))
      (hparts index (by simp [Expr.parts]))).bind ?_
    rintro m₁ m₁' ⟨o, i⟩
    exact getElement o i
  | call mark callee arguments => cases heffect
  | not mark operand =>
    refine (hparts operand (by simp [Expr.parts]) m m').bind fun m₁ m₁' v => ?_
    cases v with
    | bool b => exact pure rfl
    | _ => exact raise _
  | binary mark op left right =>
    exact binary (hparts left (by simp [Expr.parts])) (hparts right (by simp [Expr.parts]))
  | assign mark target value => cases heffect
  | paren mark inner => exact hparts inner (by simp [Expr.parts]) m m'
  | query mark target question => cases heffect
  | placeholder mark name type => exact raise _
  | logic goal =>
    cases goal with
    | atom mark name => exact pure rfl
    | call mark functor arguments => exact hanswer _ rfl
    | paren mark inner => exact hanswer _ rfl
    | not mark operand => exact hanswer _ rfl
    | binary mark op left right => exact hanswer _ rfl

theorem enter {r : Rule} {args : List Value} {x y : FrameId → Eval Bool}
    (h : ∀ f m₁ m₁', Follows σ m₁ m₁' (x f) (y (σ.frame f)) id) :
    Follows σ m m'
      (Eval.push r.scope >>= fun f =>
        bindParameters ctx (f :: r.env) r.scope r.decl.parameters args >>= fun _ => x f)
      (Eval.push r.scope >>= fun f =>
        bindParameters ctx (f :: r.env.map σ.frame) r.scope r.decl.parameters
          (args.map (·.rename σ.object)) >>= fun _ => y f) id := by
  intro hm hr
  have hbind := bindParameters_apply ctx (Machine.entered_push m r.scope).2 r.env
    r.decl.parameters args
  have hbind' := bindParameters_apply ctx (Machine.entered_push m' r.scope).2
    (r.env.map σ.frame) r.decl.parameters (args.map (·.rename σ.object))
  have hx := bind_of_ok (f := fun _ => x m.frames.size) hbind
  have hy := bind_of_ok (f := fun _ => y m'.frames.size) hbind'
  have hmirrors := (hm.push r.scope).bindAll ctx.table m.frames.size r.decl.parameters args
  rw [← hm.next] at hmirrors
  have hintact : m.Intact (bodyMachine ctx m r args) := .bodyMachine ctx m r args
  have hbody := h m.frames.size _ _ hmirrors (hr.mono hintact)
  rw [← hm.next] at hbody
  have hends : Alike σ id m _ _ := hbody.of_intact hintact
  rw [← hx, ← hy] at hends
  exact hends

theorem resolveRule {depth : Nat} {r : Rule} {arguments : List Expr}
    (hargs : ∀ e ∈ arguments, Evaluates σ sub env e)
    (hbody : ∀ f, Resolves σ sub (f :: r.env) (depth + 1) r.decl.body) :
    Follows σ m m' (Eval.resolveRule ctx sub env depth r arguments)
      (Eval.resolveRule ctx sub (env.map σ.frame) depth (r.rename σ) arguments) id := by
  have hdecl : (r.rename σ).decl = r.decl := rfl
  unfold Eval.resolveRule
  by_cases hfits : fits ctx.table arguments r.decl.parameters = true
  · rw [if_pos hfits, if_pos (hdecl ▸ hfits)]
    exact (expressions hargs).bind fun m₁ m₁' args => enter fun f => hbody f
  · rw [if_neg hfits, if_neg (hdecl ▸ hfits)]
    exact pure rfl

theorem resolveCall {depth : Nat} {mark : Mark} {functor : String} {arguments : List Expr}
    (hargs : ∀ e ∈ arguments, Evaluates σ sub env e)
    (hbody : ∀ f (r : Rule), r.decl.body.Pure → Resolves σ sub (f :: r.env) (depth + 1) r.decl.body) :
    Follows σ m m' (Eval.resolveCall ctx sub env depth mark functor arguments)
      (Eval.resolveCall ctx sub (env.map σ.frame) depth mark functor arguments) id := by
  unfold Eval.resolveCall
  dsimp only
  split
  · rename_i d scope hd hs
    refine get_bind fun hm hr => ?_
    rw [hm.frameOf?]
    cases m.frameOf? env scope with
    | none => exact pure rfl
    | some f =>
      simp only [Option.map_some, hm.filed]
      cases he : (m.frame f).predicates.get? functor with
      | none => exact pure rfl
      | some e =>
        cases e with
        | facts tuples =>
          refine (expressions hargs).bind fun m₁ m₁' args => get_bind fun hm₁ _ => pure ?_
          rw [hm₁.filed]
          cases (m₁.frame f).predicates.get? functor with
          | none => rfl
          | some e => exact e.contains_rename σ args
        | rule r => exact resolveRule hargs fun i => hbody i r (hr f functor r he)
  · exact pure rfl

theorem resolve {depth : Nat} {goal : Goal} (hparts : ∀ g ∈ goal.parts, Resolves σ sub env depth g)
    (hcall : ∀ mark functor arguments, goal = .call mark functor arguments →
      Follows σ m m' (Eval.resolveCall ctx sub env depth mark functor arguments)
        (Eval.resolveCall ctx sub (env.map σ.frame) depth mark functor arguments) id) :
    Follows σ m m' (Eval.resolve ctx sub env depth goal)
      (Eval.resolve ctx sub (env.map σ.frame) depth goal) id := by
  unfold Eval.resolve
  split
  · exact raiseAt _ _
  · cases goal with
    | atom mark name => exact pure rfl
    | call mark functor arguments => exact hcall mark functor arguments rfl
    | paren mark inner => exact hparts inner (by simp [Goal.parts]) m m'
    | not mark operand =>
      exact (hparts operand (by simp [Goal.parts]) m m').bind fun m₁ m₁' b => pure rfl
    | binary mark op left right =>
      refine (hparts left (by simp [Goal.parts]) m m').bind fun m₁ m₁' l => ?_
      exact (hparts right (by simp [Goal.parts]) m₁ m₁').bind fun m₂ m₂' r => pure rfl

end Step

end Follows

end Follows

/-- All that an evaluator is asked for without effects can be followed. -/
structure Followed (σ : Shift) (sub : Evaluator) : Prop where
  expression : ∀ env e, e.Pure → Follows.Evaluates σ sub env e
  resolve : ∀ env depth goal, goal.Pure → Follows.Resolves σ sub env depth goal

namespace Followed

variable {σ : Shift} {ctx : Context} {sub : Evaluator}

theorem exhausted : Followed σ Eval.exhausted where
  expression _ _ _ _ _ := .throw _
  resolve _ _ _ _ _ _ := .throw _

theorem step (h : Followed σ sub) : Followed σ (Eval.step ctx sub) where
  expression env e he m m' :=
    Follows.expression he (fun e' he' => h.expression env e' (he.parts he'))
      fun goal hg => h.resolve env 0 goal (he.goal hg)
  resolve env depth goal hgoal m m' := by
    refine Follows.resolve (fun g hg => h.resolve env depth g (hgoal.parts hg)) ?_
    rintro mark functor arguments rfl
    exact Follows.resolveCall (fun e he => h.expression env e (hgoal.arguments he))
      fun f r hr => h.resolve (f :: r.env) (depth + 1) r.decl.body hr

theorem evaluator (σ : Shift) (ctx : Context) (fuel : Nat) : Followed σ (Eval.evaluator ctx fuel) := by
  induction fuel with
  | zero => exact exhausted
  | succ fuel ih => exact ih.step

end Followed

theorem Eval.fuelContract_evaluator (ctx : Context) {fuel fuel' : Nat} (hle : fuel ≤ fuel') :
    fuelContract.Keeps (fun _ => True) (evaluator ctx fuel) (evaluator ctx fuel') := by
  have hkeeps : fuelContract.Keeps (fun _ => True) (observed ctx .silent fuel 0)
      (observed ctx .silent fuel' 0) :=
    fuelContract_permits.observed (fun _ => trivial) (.refl .silent) rfl (by rintro _ _ _ _ ⟨⟩) hle 0
  rwa [observed_silent, observed_silent] at hkeeps

/-- An evaluation that did not run out of fuel is the same with more fuel. -/
theorem Eval.expression_of_le {ctx : Context} {env : Env} {e : Expr} {m : Machine}
    {fuel fuel' : Nat} (hle : fuel ≤ fuel')
    (h : ∀ m', (evaluator ctx fuel).expression env e m ≠ .error .outOfFuel m') :
    (evaluator ctx fuel').expression env e m = (evaluator ctx fuel).expression env e m := by
  rcases ((fuelContract_evaluator ctx hle).expression m env e trivial).2 with
    heq | ⟨halt, m₁, hx, hhalt, -⟩
  · exact heq.symm
  · rw [hx, hhalt] at h
    exact absurd rfl (h m₁)

/-- A statement that is executed to its end is executed in the same way with more fuel. -/
theorem Eval.statement_of_le {ctx : Context} {env : Env} {st : Stmt} {m m' : Machine}
    {done : Completion} {fuel fuel' : Nat} (hle : fuel ≤ fuel')
    (h : (evaluator ctx fuel).statement env st m = .ok done m') :
    (evaluator ctx fuel').statement env st m = .ok done m' := by
  rcases ((fuelContract_evaluator ctx hle).statement m env st trivial).2 with
    heq | ⟨halt, m₁, hx, -, -⟩
  · exact heq.symm.trans h
  · cases h.symm.trans hx

/-- An evaluation that began in a machine, and another one of the same expression, ended with the
same fault, or with the same value but for the positions of the objects that were made on the way. -/
def SameResult (m : Machine) :
    EStateM.Result Halt Machine Value → EStateM.Result Halt Machine Value → Prop
  | .ok v m₁, .ok v' m₂ => ∃ ρ : ObjectId → ObjectId, Function.Injective ρ ∧
      (∀ o < m.objects.size, ρ o = o) ∧ v' = v.rename ρ ∧
      (∀ o : ObjectId, m₂.objects[ρ o]? = m₁.objects[o]?.map (·.rename ρ)) ∧
      m₂.text? v' = m₁.text? v
  | .error h _, .error h' _ => h' = h
  | _, _ => False

theorem Alike.intact {α β : Type} {σ : Shift} {g : α → β} {m : Machine}
    {r : EStateM.Result Halt Machine α} {r' : EStateM.Result Halt Machine β}
    (h : Alike σ g m r r') : m.Intact (after r) := by
  cases r <;> cases r' <;> first | exact h.elim | exact h.1

theorem Alike.sameResult {σ : Shift} {m : Machine} {r r' : EStateM.Result Halt Machine Value}
    (h : Alike σ (·.rename σ.object) m₁ r r') (hbase : σ.objectBase = m.objects.size) :
    SameResult m r r' := by
  cases r with
  | ok v m₁ =>
    cases r' with
    | ok v' m₂ =>
      obtain ⟨-, hm, rfl⟩ := h
      exact ⟨σ.object, σ.object_injective, fun o ho => Shift.above_of_lt (hbase ▸ ho), rfl,
        hm.held, hm.text? v⟩
    | error e m₂ => exact h.elim
  | error e m₁ =>
    cases r' with
    | ok v' m₂ => exact h.elim
    | error e' m₂ => exact h.2.2

/-- A pure expression changes nothing that was there before, and it has the same result when it is
evaluated again. -/
theorem pure_expression_stable {ctx : Context} {m : Machine} {env : Env} {e : Expr} {fuel : Nat}
    {result : EStateM.Result Halt Machine Value} (he : e.Pure) (hm : m.Complete env)
    (hrules : m.PureRules) (hresult : (evaluator ctx fuel).expression env e m = result)
    (hends : ∀ m', result ≠ .error .outOfFuel m') :
    m.Intact (after result) ∧ ∀ fuel', fuel ≤ fuel' →
      SameResult m result ((evaluator ctx fuel').expression env e (after result)) := by
  have henv : ∀ m', env.map (m.shift m').frame = env := fun m' =>
    (List.map_congr_left fun f hf => Shift.above_of_lt (hm.chain f hf)).trans (List.map_id _)
  have hfollows : ∀ m', m.Mirrors (m.shift m') m' → ∀ n, Alike (m.shift m')
      (·.rename (m.shift m').object) m ((evaluator ctx n).expression env e m)
      ((evaluator ctx n).expression env e m') := fun m' hmirrors n => by
    have h := (Followed.evaluator (m.shift m') ctx n).expression env e he m m' hmirrors hrules
    rwa [henv m'] at h
  have hintact : m.Intact (after result) := by
    have h := hfollows m (hm.mirrors (.refl m)) fuel
    rw [hresult] at h
    exact h.intact
  refine ⟨hintact, fun fuel' hle => ?_⟩
  have h := hfollows (after result) (hm.mirrors hintact) fuel'
  rw [expression_of_le hle fun m' => hresult ▸ hends m', hresult] at h
  exact h.sameResult rfl

namespace Derivation.Sample

/-- An array of the answer to a call of the rule. -/
def answers : Expr := .array ⟨9, {}⟩ [.logic goal]

theorem complete : machine.Complete [0] where
  chain := by simp [machine]
  rules f functor r hr i hi := by
    rw [eq_rule hr] at hi
    rw [List.mem_singleton.mp hi]
    decide
  bound f name v hv := by
    cases f with
    | zero => cases hv
    | succ f => cases hv
  filed f functor e he tuple ht v hv := by
    have hint : v = .int 1 := by
      cases f with
      | zero =>
        change Bindings.find [("q", Entry.facts [[.int 1]]), ("p", Entry.rule rule)] functor = _
          at he
        simp only [Bindings.find] at he
        split at he
        · cases he
          simp only [Entry.tuples, List.mem_singleton] at ht
          subst ht
          exact List.mem_singleton.mp hv
        · split at he
          · cases he
            cases ht
          · cases he
      | succ f => cases he
    subst hint
    rintro o (h | h) <;> cases h
  held o object ho := by simp [machine] at ho

theorem pureRules : machine.PureRules := by
  intro f functor r hr
  rw [eq_rule hr]
  unfold Goal.Pure
  decide

end Derivation.Sample

open Derivation.Sample in
/-- The second array stands at another position and holds the same answer. -/
theorem answers_stable : ∃ m₁, (evaluator ⟨table, 1⟩ 6).expression [0] answers machine =
      .ok (.array 0) m₁ ∧ machine.Intact m₁ ∧
      SameResult machine (.ok (.array 0) m₁)
        ((evaluator ⟨table, 1⟩ 6).expression [0] answers m₁) := by
  have hpure : answers.Pure := by
    unfold Expr.Pure
    decide
  have hends : ∀ m', (evaluator ⟨table, 1⟩ 6).expression [0] answers machine ≠
      .error .outOfFuel m' := fun m' h => by cases h
  obtain ⟨hintact, hsame⟩ := pure_expression_stable hpure complete pureRules rfl hends
  exact ⟨_, rfl, hintact, hsame 6 (Nat.le_refl 6)⟩

end LogicScript
