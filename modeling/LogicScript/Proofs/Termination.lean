import LogicScript.Analysis
import LogicScript.Proofs.Meaning
import LogicScript.Proofs.Parts
import LogicScript.Proofs.Stores
import LogicScript.Proofs.Texts

/-! Which programs come to an end.

The limit on nested rule bodies counts from zero again whenever an argument of a predicate asks
something. So it does not bound a rule that comes back to itself in an argument; it bounds all
others. Apart from calls and loops, all that is left is a value whose text never ends. -/
namespace LogicScript

open Eval

/-- Only fuel may run out. -/
def fuelContract : Contract := .stopping (· = .outOfFuel) fun h => by cases h

theorem fuelContract_permits : fuelContract.Permits :=
  Contract.stopping_permits (· = .outOfFuel) fun h => by cases h

/-- A run that did not run out of fuel is the same with more fuel. -/
theorem Program.run_of_le {p : Program} {ctx : Context} {fuel fuel' : Nat} (hle : fuel ≤ fuel')
    (h : (p.run ctx fuel).outcome ≠ .error .outOfFuel) : p.run ctx fuel' = p.run ctx fuel := by
  have hsame : fuelContract.Compares (p.watchedRun ctx .silent fuel)
      (p.watchedRun ctx .silent fuel') :=
    fuelContract_permits.compares (fun _ => trivial) trivial (.refl _) rfl
      (by rintro _ _ _ _ ⟨⟩) hle
  rw [p.watchedRun_silent, p.watchedRun_silent] at hsame
  rcases hsame.stopped with heq | ⟨-, -, halt, houtcome, hhalt⟩
  · exact heq.symm
  · rw [houtcome, hhalt] at h
    exact absurd rfl h

/-- Whether a run stopped for want of fuel. -/
def Run.isExhausted (r : Run) : Bool :=
  match r.outcome with
  | .error .outOfFuel => true
  | _ => false

theorem Run.isExhausted_iff {r : Run} : r.isExhausted = true ↔ r.outcome = .error .outOfFuel := by
  unfold isExhausted
  split <;> simp_all

/-- The fault of a request that is refused. -/
def Halt.IsRefusal : Halt → Prop
  | .fault f => f.cause = .depthExceeded
  | .outOfFuel => False

/-- Only a refused request may be missing. -/
def refusalContract : Contract := .stopping Halt.IsRefusal fun h => h

theorem refusalContract_permits : refusalContract.Permits :=
  Contract.stopping_permits Halt.IsRefusal fun h => h

namespace Eval

def refuse (_ : Env) (_ : Nat) (goal : Goal) : Eval Bool := raiseAt .depthExceeded goal.ref

/-- Refuses every request. -/
def refusing : Evaluator where
  expression _ e := raiseAt .depthExceeded e.ref
  statement _ s := raiseAt .depthExceeded s.ref
  rounds _ condition _ := raiseAt .depthExceeded condition.ref
  resolve := refuse

/-- Resolves the logic expressions that an expression asks for in another way. -/
def Evaluator.asking (sub : Evaluator) (resolve : Env → Nat → Goal → Eval Bool) : Evaluator :=
  { sub with resolve }

/-- The evaluator that leaves its last requests to another one. -/
def above (last : Evaluator) (ctx : Context) : Nat → Evaluator
  | 0 => last
  | fuel + 1 => step ctx (above last ctx fuel)

/-- Such an evaluator with a limit on how many resolutions are nested in one another. A resolution
that an argument asks for counts from the one that needs the argument. -/
def limited (last : Evaluator) (ctx : Context) : Nat → Nat → Evaluator
  | 0, _ => last
  | fuel + 1, k =>
    let asked := match k with
      | 0 => refuse
      | k + 1 => (limited last ctx fuel k).resolve
    { step ctx (limited last ctx fuel k) with
      expression := (step ctx ((limited last ctx fuel k).asking asked)).expression }

/-- Resolutions are not nested deeper than the fuel allows anyway. -/
theorem limited_eq_above (last : Evaluator) (ctx : Context) {fuel k : Nat} (h : fuel ≤ k) :
    limited last ctx fuel k = above last ctx fuel := by
  induction fuel generalizing k with
  | zero => rfl
  | succ fuel ih =>
    obtain ⟨k, rfl⟩ : ∃ j, k = j + 1 := ⟨k - 1, by omega⟩
    rw [limited, ih (by omega), ih (by omega)]
    rfl

theorem above_exhausted (ctx : Context) (fuel : Nat) :
    above exhausted ctx fuel = evaluator ctx fuel := by
  induction fuel with
  | zero => rfl
  | succ fuel ih => rw [above, ih, evaluator_succ]

theorem limited_eq_evaluator (ctx : Context) {fuel k : Nat} (h : fuel ≤ k) :
    limited exhausted ctx fuel k = evaluator ctx fuel := by
  rw [limited_eq_above exhausted ctx h, above_exhausted]

end Eval

/-- Nothing but a value without a text takes for ever. -/
def textContract : Contract where
  Inv _ := True
  Leads _ _ := True
  Blame _ := True
  Endless m := ∃ v : Value, v.IsCircular m.objects
  Stop _ := False
  refl _ := trivial
  trans _ _ := trivial
  blame_attach _ := trivial
  stop_attach h := h

theorem textContract_permits : textContract.Permits :=
  .of_frames (fun _ => trivial) (fun h => ⟨_, Value.text?_eq_none_iff.mp h⟩) (fun _ => trivial)
    (fun _ _ => ⟨trivial, trivial⟩) (fun _ => ⟨trivial, trivial⟩) (fun _ => ⟨trivial, trivial⟩)
    (fun _ _ _ => ⟨trivial, trivial⟩) fun _ _ => ⟨trivial, trivial⟩

namespace Contract

variable {c : Contract} {last last' sub : Evaluator} {ctx : Context}

theorem Permits.above_self (hc : c.Permits) (hlast : c.Keeps (fun _ => True) last last)
    (fuel : Nat) :
    c.Keeps (fun _ => True) (above last ctx fuel) (Eval.above last ctx fuel) := by
  induction fuel with
  | zero => exact hlast
  | succ fuel ih => exact .step hc ih

theorem Permits.refusing_self (hc : c.Permits) {V : Value → Prop} :
    c.Keeps V refusing Eval.refusing :=
  ⟨fun _ _ _ => .raiseAt (hc.blames _), fun _ _ _ => .raiseAt (hc.blames _),
    fun _ _ _ _ => .raiseAt (hc.blames _), fun _ _ _ _ => .raiseAt (hc.blames _)⟩

theorem Keeps.refusing {V : Value → Prop}
    (hstop : ∀ node, c.Stop (.fault ⟨.depthExceeded, some node⟩)) (h : c.Keeps V sub sub) :
    c.Keeps V Eval.refusing sub :=
  ⟨fun m env e => (h.expression m env e).stopped (hstop _),
    fun m env s => (h.statement m env s).stopped (hstop _),
    fun m env condition body => (h.rounds m env condition body).stopped (hstop _),
    fun m env depth goal => (h.resolve m env depth goal).stopped (hstop _)⟩

theorem stopping_self (stop : Halt → Prop)
    (hattach : ∀ {f node}, stop (.fault f) → stop (.fault (f.attach node))) (sub : Evaluator) :
    (stopping stop hattach).Keeps (fun _ => True) sub sub := by
  have hself : ∀ {α : Type} (x : Eval α) (Q : Machine → α → Prop) (m : Machine),
      (∀ m a, Q m a) → (stopping stop hattach).Honours m x x Q := by
    intro α x Q m hQ _
    refine ⟨?_, .inl rfl⟩
    cases x m with
    | ok a m' => exact ⟨trivial, trivial, hQ m' a⟩
    | error halt m' => exact ⟨trivial, trivial, trivial, fun _ => trivial⟩
  have hdone : ∀ done : Completion, done.All fun _ => True := by
    rintro (_ | _) <;> trivial
  exact ⟨fun m env e => hself _ _ m fun _ _ => trivial, fun m env s => hself _ _ m fun _ => hdone,
    fun m env condition body => hself _ _ m fun _ => hdone,
    fun m env depth goal => hself _ _ m fun _ _ => trivial⟩

/-- With more fuel and more resolutions allowed, the limited evaluator does the same unless it is
stopped where the fuel ended or a resolution was refused. -/
theorem Permits.limited (hc : c.Permits)
    (hlast : ∀ fuel k, c.Keeps (fun _ => True) last (limited last' ctx fuel k))
    {fuel fuel' k k' : Nat} (hfuel : fuel ≤ fuel') (hk : k ≤ k')
    (hrefuse : k < k' → ∀ sub, c.Keeps (fun _ => True) refusing sub) :
    c.Keeps (fun _ => True) (limited last ctx fuel k) (Eval.limited last' ctx fuel' k') := by
  induction fuel generalizing fuel' k k' with
  | zero => exact hlast fuel' k'
  | succ fuel ih =>
    obtain ⟨fuel', rfl⟩ : ∃ n, fuel' = n + 1 := ⟨fuel' - 1, by omega⟩
    have hinner := ih (by omega : fuel ≤ fuel') hk hrefuse
    have hstep : c.Keeps (fun _ => True) (step ctx (Eval.limited last ctx fuel k))
        (step ctx (Eval.limited last' ctx fuel' k')) := .step hc hinner
    refine ⟨?_, hstep.statement, hstep.rounds, hstep.resolve⟩
    have hexpression : ∀ asked asked', (∀ m env depth goal, c.Honours m (asked env depth goal)
        (asked' env depth goal) fun _ _ => True) → ∀ m env e, c.Honours m
          ((step ctx ((Eval.limited last ctx fuel k).asking asked)).expression env e)
          ((step ctx ((Eval.limited last' ctx fuel' k').asking asked')).expression env e)
          fun _ _ => True := by
      intro asked asked' hasked
      have hasking : c.Keeps (fun _ => True) ((Eval.limited last ctx fuel k).asking asked)
          ((Eval.limited last' ctx fuel' k').asking asked') :=
        ⟨hinner.expression, hinner.statement, hinner.rounds, hasked⟩
      exact (Keeps.step hc hasking).expression
    cases k with
    | zero =>
      cases k' with
      | zero => exact hexpression _ _ fun m env depth goal => .raiseAt (hc.blames _)
      | succ k' => exact hexpression _ _ (hrefuse k'.succ_pos _).resolve
    | succ k =>
      obtain ⟨k', rfl⟩ : ∃ j, k' = j + 1 := ⟨k' - 1, by omega⟩
      exact hexpression _ _
        (ih (by omega) (by omega) fun hlt => hrefuse (by omega)).resolve

end Contract

theorem fuelContract_self (sub : Evaluator) : fuelContract.Keeps (fun _ => True) sub sub :=
  Contract.stopping_self (· = .outOfFuel) (fun h => by cases h) sub

theorem fuelContract_limited (ctx : Context) {fuel fuel' : Nat} (hle : fuel ≤ fuel') (k : Nat) :
    fuelContract.Keeps (fun _ => True) (limited exhausted ctx fuel k)
      (limited exhausted ctx fuel' k) :=
  fuelContract_permits.limited (fun _ _ => (fuelContract_self _).exhausted rfl) hle
    (Nat.le_refl k) fun hlt => absurd hlt (Nat.lt_irrefl k)

/-- With more fuel and more resolutions allowed, the limited evaluator does the same unless a
request was refused. -/
theorem refusalContract_limited (last : Evaluator) (ctx : Context) {fuel fuel' k k' : Nat}
    (hfuel : fuel ≤ fuel') (hk : k ≤ k') :
    refusalContract.Keeps (fun _ => True) (limited refusing ctx fuel k)
      (limited last ctx fuel' k') := by
  have hrefuse : ∀ sub, refusalContract.Keeps (fun _ => True) refusing sub := fun sub =>
    (Contract.stopping_self _ _ sub).refusing fun _ => rfl
  exact refusalContract_permits.limited (fun _ _ => hrefuse _) hfuel hk fun _ => hrefuse

namespace Program

/-- There is no call of a function and no loop in the program. -/
def OnlyRulesRecur (p : Program) : Prop :=
  ∀ node ∈ p.nodes, node.kind ≠ .functionCall ∧ node.kind ≠ .whileStatement

/-- A run takes for ever though no request of it does: wherever its fuel ended, it would end with a
fault. There is a value then that has no text. -/
def Stalls (p : Program) (ctx : Context) : Prop :=
  ∃ fuel, ∃ v : Value, (p.runBy ctx (above refusing ctx fuel)).outcome = .error .outOfFuel ∧
    v.IsCircular (p.runBy ctx (above refusing ctx fuel)).machine.objects

/-- Rules come from the program, and of two evaluations none stops earlier. -/
def endingContract (p : Program) : Contract where
  Inv := Machine.AllRules fun _ r => r.decl.nodes ⊆ p.nodes
  Leads _ _ := True
  Blame _ := True
  Stop _ := False
  refl _ := trivial
  trans _ _ := trivial
  blame_attach _ := trivial
  stop_attach h := h

theorem endingContract_admits (p : Program) : p.endingContract.Admits fun _ => True where
  faults _ _ _ := trivial
  endless := trivial
  plain _ _ := trivial
  bound _ _ := trivial
  held {_ _ object} _ _ := by cases object <;> simp [Object.All]
  define _ hm _ := ⟨hm.of_eq fun _ => Machine.predicates_define .., trivial⟩
  push hm := ⟨hm.of_eq fun _ => Machine.predicates_push .., trivial⟩
  alloc hm _ := ⟨hm.of_eq fun _ => rfl, trivial⟩
  setElement hm _ := ⟨hm.of_eq fun _ => rfl, trivial⟩
  setField hm _ _ := ⟨hm.of_eq fun _ => rfl, trivial⟩
  print hm := ⟨hm.of_eq fun _ => rfl, trivial⟩
  log hm := ⟨hm.of_eq fun _ => rfl, trivial⟩
  addFact _ hm _ h := ⟨hm.addFact h, trivial⟩

theorem endingContract_sees (p : Program) (ctx : Context) (m : Machine) (env : Env)
    (node : NodeRef) : p.endingContract.Sees m env ctx node := by
  intro m' _
  unfold Contract.Locates
  split
  · trivial
  · exact ⟨fun _ => ⟨trivial, fun _ => ⟨trivial, trivial⟩⟩, fun f _ => trivial⟩

/-- A bound for the bodies of the rules of a program, and how many of them may be nested. -/
structure Bound (p : Program) where
  size : Nat
  limit : Nat
  body : ∀ d, .statement (.rule d) ∈ p.nodes → sizeOf d.body ≤ size

namespace Bound

variable {p : Program} (b : Bound p)

/-- Fuel for the rule bodies that may still be nested. -/
def inside (depth : Nat) : Nat := (b.limit + 1 - depth) * (b.size + 1)

/-- Fuel for so many resolutions nested in one another. -/
def below (k : Nat) : Nat := k * b.inside 0

theorem inside_succ {depth : Nat} (h : depth ≤ b.limit) :
    b.inside depth = b.inside (depth + 1) + (b.size + 1) := by
  have hsub : b.limit + 1 - depth = b.limit + 1 - (depth + 1) + 1 := by omega
  rw [inside, hsub, Nat.succ_mul, inside]

theorem below_succ (k : Nat) : b.below (k + 1) = b.below k + b.inside 0 := Nat.succ_mul ..

end Bound

variable {p : Program} {ctx : Context}

/-- The fuel suffices for all parts of the program that need no more: it does not matter what would
come where it ends. -/
structure Suffices (ctx : Context) (b : Bound p) (fuel : Nat) : Prop where
  expression : ∀ m env e k, e.nodes ⊆ p.nodes → sizeOf e + b.below k < fuel →
    p.endingContract.Honours m ((limited refusing ctx fuel k).expression env e)
      ((limited exhausted ctx fuel k).expression env e) fun _ _ => True
  resolve : ∀ m env depth goal k, goal.nodes ⊆ p.nodes →
    sizeOf goal + b.inside depth + b.below k < fuel →
    p.endingContract.Honours m ((limited refusing ctx fuel k).resolve env depth goal)
      ((limited exhausted ctx fuel k).resolve env depth goal) fun _ _ => True
  statement : ∀ m env s k, s.nodes ⊆ p.nodes → sizeOf s + b.below k < fuel →
    p.endingContract.Honours m ((limited refusing ctx fuel k).statement env s)
      ((limited exhausted ctx fuel k).statement env s) fun _ done => done.All fun _ => True

namespace Suffices

variable {b : Bound p} {fuel : Nat}

theorem expression_succ (hp : p.OnlyRulesRecur) (h : Suffices ctx b fuel) {m : Machine} {env : Env}
    {e : Expr} {k : Nat} (hnodes : e.nodes ⊆ p.nodes) (hfuel : sizeOf e + b.below k < fuel + 1) :
    p.endingContract.Honours m ((limited refusing ctx (fuel + 1) k).expression env e)
      ((limited exhausted ctx (fuel + 1) k).expression env e) fun _ _ => True := by
  have hparts : ∀ e' ∈ e.parts, p.endingContract.Evaluates (fun _ => True)
      (limited refusing ctx fuel k) (limited exhausted ctx fuel k) m env e' := by
    intro e' he' m' _
    have hsize := Expr.sizeOf_parts he'
    exact h.expression m' env e' k (List.Subset.trans (Expr.nodes_parts he') hnodes) (by omega)
  refine Contract.Honours.expression p.endingContract_admits (.same trivial) hparts
    (fun e' he' _ => hparts e' he') (fun goal hgoal m' _ => ?_)
    (fun r _ => p.endingContract_sees ctx m env _)
    (fun r _ => ⟨fun _ => by simp [endingContract], fun _ _ => trivial⟩)
    (fun _ _ _ _ => by simp [endingContract]) ?_
  · -- The resolution is one more inside the others, or refused.
    cases k with
    | zero => exact .raiseAt (by simp [endingContract])
    | succ k =>
      have hsize := Expr.sizeOf_goal hgoal
      have hbelow := b.below_succ k
      exact h.resolve m' env 0 goal k (List.Subset.trans (Expr.nodes_goal hgoal) hnodes) (by omega)
  · intro hcall
    have hkind := (hp _ (hnodes e.self_mem_nodes)).1
    cases e <;> simp [Expr.isCall, Node.kind, Expr.kind, Expr.ref] at hcall hkind

theorem resolve_succ (hlimit : b.limit = ctx.maxDepth) (h : Suffices ctx b fuel) {m : Machine}
    {env : Env} {depth : Nat} {goal : Goal} {k : Nat} (hnodes : goal.nodes ⊆ p.nodes)
    (hfuel : sizeOf goal + b.inside depth + b.below k < fuel + 1) :
    p.endingContract.Honours m ((limited refusing ctx (fuel + 1) k).resolve env depth goal)
      ((limited exhausted ctx (fuel + 1) k).resolve env depth goal) fun _ _ => True := by
  have ha := p.endingContract_admits
  refine Contract.Honours.resolve ha (fun g hg m' _ => ?_) ?_
  · have hsize := Goal.sizeOf_parts hg
    exact h.resolve m' env depth g k (List.Subset.trans (Goal.nodes_parts hg) hnodes) (by omega)
  · rintro hdepth mark functor arguments rfl
    have hvalues : ∀ e ∈ arguments, p.endingContract.Evaluates (fun _ => True)
        (limited refusing ctx fuel k) (limited exhausted ctx fuel k) m env e := by
      intro e he m' _
      have hsize : sizeOf e < sizeOf (Goal.call mark functor arguments) := Goal.sizeOf_arguments he
      exact h.expression m' env e k (List.Subset.trans (Goal.nodes_arguments he) hnodes) (by omega)
    refine Contract.Honours.resolveCall hvalues fun scope f r _ _ hr hm => ?_
    have hrule : r.decl.nodes ⊆ p.nodes := hm f functor r hr
    refine Contract.Honours.resolveRule ha hvalues (fun m₁ m₂ _ _ _ => ?_) hm
    have hbody := b.body r.decl (hrule (by simp [RuleDecl.nodes]))
    have hinside := b.inside_succ (hlimit ▸ hdepth)
    exact h.resolve m₂ _ (depth + 1) r.decl.body k
      (fun node hnode => hrule (by simp [RuleDecl.nodes, hnode])) (by omega)

theorem statement_succ (hp : p.OnlyRulesRecur) (h : Suffices ctx b fuel) {m : Machine} {env : Env}
    {s : Stmt} {k : Nat} (hnodes : s.nodes ⊆ p.nodes) (hfuel : sizeOf s + b.below k < fuel + 1) :
    p.endingContract.Honours m ((limited refusing ctx (fuel + 1) k).statement env s)
      ((limited exhausted ctx (fuel + 1) k).statement env s)
      fun _ done => done.All fun _ => True := by
  have ha := p.endingContract_admits
  have hloops : ∀ mark condition body, s ≠ .loop mark condition body := by
    rintro mark condition body rfl
    exact (hp _ (hnodes (Stmt.self_mem_nodes _))).2 rfl
  have hparts : ∀ e ∈ s.parts, p.endingContract.Evaluates (fun _ => True)
      (limited refusing ctx fuel k) (limited exhausted ctx fuel k) m env e := by
    intro e he m' _
    have hsize := Stmt.sizeOf_parts he
    exact h.expression m' env e k (List.Subset.trans (Stmt.nodes_parts he) hnodes) (by omega)
  refine Contract.Honours.statement ha (.same trivial) hparts (fun e he _ => hparts e he)
    (fun node _ => p.endingContract_sees ctx m env node) (fun s' hs' m' _ => ?_)
    (fun _ _ => trivial) ?_ (fun _ _ _ => by simp [endingContract]) ?_
    (fun mark condition b hs => absurd hs (hloops mark condition _))
    (fun mark condition body hs => absurd hs (hloops mark condition body))
  · have hsize := Stmt.sizeOf_branches hs'
    exact h.statement m' env s' k (List.Subset.trans (Stmt.nodes_branches hs') hnodes) (by omega)
  · rintro d rfl
    refine Contract.Honours.declareRule ha (fun _ => by simp [endingContract])
      (p.endingContract_sees ctx m env _).now fun scope f store _ _ hstore hm => ?_
    have hrule : (⟨d, scope, env⟩ : Rule).decl.nodes ⊆ p.nodes := by
      simpa only [Stmt.nodes] using hnodes
    exact ⟨hm.setRule hrule hstore, trivial⟩
  · rintro block rfl scope _ m' _ _ s' hs' m'' _
    have hsize := Stmt.sizeOf_statements hs'
    exact h.statement m'' _ s' k (List.Subset.trans (Stmt.nodes_statements hs') hnodes) (by omega)

theorem all (hp : p.OnlyRulesRecur) (hlimit : b.limit = ctx.maxDepth) (fuel : Nat) :
    Suffices ctx b fuel := by
  induction fuel with
  | zero =>
    exact ⟨fun _ _ _ _ _ hfuel => absurd hfuel (Nat.not_lt_zero _),
      fun _ _ _ _ _ _ hfuel => absurd hfuel (Nat.not_lt_zero _),
      fun _ _ _ _ _ hfuel => absurd hfuel (Nat.not_lt_zero _)⟩
  | succ fuel ih =>
    exact ⟨fun m env e k hnodes hfuel => ih.expression_succ hp hnodes hfuel,
      fun m env depth goal k hnodes hfuel => ih.resolve_succ hlimit hnodes hfuel,
      fun m env s k hnodes hfuel => ih.statement_succ hp hnodes hfuel⟩

end Suffices

theorem exists_bound (p : Program) (limit : Nat) : ∃ b : Bound p, b.limit = limit := by
  have hmax : ∀ nodes : List Node, ∃ n, ∀ d, .statement (.rule d) ∈ nodes → sizeOf d.body ≤ n := by
    intro nodes
    induction nodes with
    | nil => exact ⟨0, by simp⟩
    | cons node nodes ih =>
      obtain ⟨n, hn⟩ := ih
      refine ⟨max n (sizeOf node), fun d hd => ?_⟩
      rcases List.mem_cons.mp hd with rfl | hd
      · obtain ⟨mark, functor, parameters, body⟩ := d
        simp
        omega
      · have := hn d hd
        omega
  obtain ⟨size, hsize⟩ := hmax p.nodes
  exact ⟨⟨size, limit, hsize⟩, rfl⟩

/-- If the nesting of resolutions is limited as well, some fuel suffices for a run. -/
theorem exists_limited_eq (hp : p.OnlyRulesRecur) (ctx : Context) (k : Nat) :
    ∃ n, p.runBy ctx (limited refusing ctx n k) = p.runBy ctx (limited exhausted ctx n k) := by
  obtain ⟨b, hlimit⟩ := p.exists_bound ctx.maxDepth
  let n := sizeOf p.statements + b.below k
  have hall : Suffices ctx b n := .all hp hlimit n
  have hrun : p.endingContract.Compares (p.runBy ctx (limited refusing ctx n k))
      (p.runBy ctx (limited exhausted ctx n k)) := by
    refine .of_statements (W := fun _ => True) p.endingContract_admits .empty (fun _ => trivial) ?_
    intro scope _ s hs m _
    have hsize := List.sizeOf_lt_of_mem hs
    have hsub : s.nodes ⊆ p.nodes := fun node hnode => by
      simp only [nodes, List.mem_cons, Stmt.mem_nodesOfList]
      exact .inr ⟨s, hs, hnode⟩
    exact hall.statement m [0] s k hsub (by omega)
  refine ⟨n, ?_⟩
  rcases hrun.stopped with heq | ⟨-, -, _, -, hstop⟩
  · exact heq
  · exact hstop.elim

/-- If requests are refused where the fuel ends, a run does what it does with more fuel, or it has
met a refusal. -/
theorem runBy_refusing (p : Program) (last : Evaluator) (ctx : Context) {fuel fuel' k k' : Nat}
    (hfuel : fuel ≤ fuel') (hk : k ≤ k') :
    p.runBy ctx (limited refusing ctx fuel k) = p.runBy ctx (limited last ctx fuel' k') ∨
      ∃ halt, (p.runBy ctx (limited refusing ctx fuel k)).outcome = .error halt ∧
        halt.IsRefusal := by
  have hcompares : refusalContract.Compares (p.runBy ctx (limited refusing ctx fuel k))
      (p.runBy ctx (limited last ctx fuel' k')) :=
    (refusalContract_limited last ctx hfuel hk).runBy refusalContract_permits trivial p
  exact hcompares.stopped.imp_right fun h => h.2.2

/-- Only a value without a text lets a run take for ever that is refused further requests. -/
theorem stalls_of_outOfFuel {fuel : Nat}
    (h : (p.runBy ctx (above refusing ctx fuel)).outcome = .error .outOfFuel) : p.Stalls ctx := by
  have hkeeps : textContract.Keeps (fun _ => True) (above refusing ctx fuel)
      (above refusing ctx fuel) :=
    textContract_permits.above_self textContract_permits.refusing_self fuel
  have hcompares : textContract.Compares (p.runBy ctx (above refusing ctx fuel))
      (p.runBy ctx (above refusing ctx fuel)) := hkeeps.runBy textContract_permits trivial p
  obtain ⟨v, hv⟩ := hcompares.endless h
  exact ⟨fuel, v, h, hv⟩

theorem Stalls.outOfFuel (h : p.Stalls ctx) (fuel : Nat) :
    (p.run ctx fuel).outcome = .error .outOfFuel := by
  obtain ⟨n, _, hn, -⟩ := h
  have hmore : (p.run ctx (max n fuel)).outcome = .error .outOfFuel := by
    rw [run, ← limited_eq_evaluator ctx (Nat.le_refl _)]
    rw [← limited_eq_above refusing ctx (Nat.le_refl n)] at hn
    rcases p.runBy_refusing exhausted ctx (Nat.le_max_left n fuel) (Nat.le_max_left n fuel) with
      heq | ⟨halt, houtcome, hhalt⟩
    · rw [← heq, hn]
    · rw [hn] at houtcome
      cases houtcome
      exact hhalt.elim
  refine Classical.byContradiction fun hends => hends ?_
  rwa [run_of_le (Nat.le_max_right n fuel) hends] at hmore

/-- An array that is put inside itself and then written out. -/
def circular : Program where
  mark := ⟨0, {}⟩
  statements := [
    .var ⟨⟨1, {}⟩, "a", none, some (.array ⟨2, {}⟩ [.int ⟨3, {}⟩ 1])⟩,
    .expr ⟨4, {}⟩ (.assign ⟨5, {}⟩ (.index ⟨6, {}⟩ (.reference ⟨⟨7, {}⟩, "a"⟩) (.int ⟨8, {}⟩ 0))
      (.reference ⟨⟨9, {}⟩, "a"⟩)),
    .ret ⟨10, {}⟩ (some (.binary ⟨11, {}⟩ .add (.string ⟨12, {}⟩ "")
      (.reference ⟨⟨13, {}⟩, "a"⟩)))]

/-- A value without a text keeps a program from ending, also without any rule. -/
theorem circular_never_ends : circular.OnlyRulesRecur ∧ (analyze circular).2 = [] ∧
    ∀ fuel, (circular.run ⟨(analyze circular).1, defaultMaxDepth⟩ fuel).outcome =
      .error .outOfFuel := by
  have hstuck : (circular.runBy ⟨(analyze circular).1, defaultMaxDepth⟩
      (above refusing ⟨(analyze circular).1, defaultMaxDepth⟩ 4)).isExhausted = true := by
    decide +kernel
  have hstalls : circular.Stalls ⟨(analyze circular).1, defaultMaxDepth⟩ :=
    stalls_of_outOfFuel (Run.isExhausted_iff.mp hstuck)
  refine ⟨?_, by decide +kernel, hstalls.outOfFuel⟩
  unfold OnlyRulesRecur
  decide

/-- A run of a program without calls of functions and loops comes to an end exactly if its
resolutions are not nested in one another without bound and it does not come to a value without a
text. The limit on rule bodies cuts off all other recursion. -/
theorem run_ends_iff (hp : p.OnlyRulesRecur) (ctx : Context) :
    (∃ n, (p.run ctx n).outcome ≠ .error .outOfFuel ∧
      ∀ fuel, n ≤ fuel → p.run ctx fuel = p.run ctx n) ↔
    (∃ k, ∀ fuel, p.runBy ctx (limited exhausted ctx fuel k) = p.run ctx fuel) ∧
      ¬ p.Stalls ctx := by
  constructor
  · rintro ⟨n, hends, hsame⟩
    refine ⟨⟨n, fun fuel => ?_⟩, fun hstalls => hends (hstalls.outOfFuel n)⟩
    rcases Nat.le_total fuel n with hle | hle
    · rw [limited_eq_evaluator ctx hle, run]
    · have hstart : p.runBy ctx (limited exhausted ctx n n) = p.run ctx n := by
        rw [limited_eq_evaluator ctx (Nat.le_refl n), run]
      have hcompares : fuelContract.Compares (p.runBy ctx (limited exhausted ctx n n))
          (p.runBy ctx (limited exhausted ctx fuel n)) :=
        (fuelContract_limited ctx hle n).runBy fuelContract_permits trivial p
      rcases hcompares.stopped with heq | ⟨-, -, halt, houtcome, hhalt⟩
      · rw [← heq, hstart, hsame fuel hle]
      · rw [← hstart, houtcome, hhalt] at hends
        exact absurd rfl hends
  · rintro ⟨⟨k, hk⟩, hstalls⟩
    obtain ⟨n, hn⟩ := exists_limited_eq hp ctx k
    have hends : (p.run ctx n).outcome ≠ .error .outOfFuel := by
      intro h
      rw [← hk n, ← hn] at h
      rcases p.runBy_refusing refusing ctx (Nat.le_refl n) (Nat.le_max_right n k) with
        heq | ⟨halt, houtcome, hhalt⟩
      · rw [heq, limited_eq_above refusing ctx (Nat.le_max_left n k)] at h
        exact hstalls (stalls_of_outOfFuel h)
      · rw [h] at houtcome
        cases houtcome
        exact hhalt.elim
    exact ⟨n, hends, fun fuel hle => run_of_le hle hends⟩

/-- A rule that asks for itself in an argument as long as its parameter is positive, and a call of
it. -/
def descending : Program where
  mark := ⟨0, {}⟩
  statements := [
    .fact ⟨⟨1, {}⟩, "t", [.bool ⟨2, {}⟩ true]⟩,
    .rule ⟨⟨3, {}⟩, "p", [⟨⟨4, {}⟩, "n", .simple ⟨5, {}⟩ "Int"⟩],
      .call ⟨6, {}⟩ "t" [.binary ⟨7, {}⟩ .and
        (.binary ⟨8, {}⟩ .greater (.reference ⟨⟨9, {}⟩, "n"⟩) (.int ⟨10, {}⟩ 0))
        (.logic (.call ⟨11, {}⟩ "p"
          [.binary ⟨12, {}⟩ .subtract (.reference ⟨⟨13, {}⟩, "n"⟩) (.int ⟨14, {}⟩ 1)]))]⟩,
    .ret ⟨15, {}⟩ (some (.logic (.call ⟨16, {}⟩ "p" [.int ⟨17, {}⟩ 2])))]

theorem descending_limited : descending.OnlyRulesRecur ∧
    (∃ k, ∀ fuel, descending.runBy ⟨(analyze descending).1, 1⟩
      (limited exhausted ⟨(analyze descending).1, 1⟩ fuel k) =
        descending.run ⟨(analyze descending).1, 1⟩ fuel) ∧
    ¬ descending.Stalls ⟨(analyze descending).1, 1⟩ := by
  have hp : descending.OnlyRulesRecur := by
    unfold OnlyRulesRecur
    decide
  have hreturns : (descending.run ⟨(analyze descending).1, 1⟩ 20).outcome.toOption.map
      Completion.isReturn = some true := by decide +kernel
  have hends : (descending.run ⟨(analyze descending).1, 1⟩ 20).outcome ≠ .error .outOfFuel := by
    intro h
    rw [h] at hreturns
    cases hreturns
  exact ⟨hp, (run_ends_iff hp _).mp ⟨20, hends, fun fuel hle => run_of_le hle hends⟩⟩

/-- A rule that asks for itself in its argument. -/
def reentrantRule : RuleDecl where
  mark := ⟨1, {}⟩
  functor := "p"
  parameters := [⟨⟨2, {}⟩, "x", .simple ⟨3, {}⟩ "Bool"⟩]
  body := .call ⟨4, {}⟩ "p" [.logic (.call ⟨5, {}⟩ "p" [.reference ⟨⟨6, {}⟩, "x"⟩])]

def reentrant : Program where
  mark := ⟨0, {}⟩
  statements := [.rule reentrantRule,
    .expr ⟨7, {}⟩ (.logic (.call ⟨8, {}⟩ "p" [.bool ⟨9, {}⟩ true]))]

namespace Reentrant

def table : Table := (analyze reentrant).1

theorem attributes_root : (table.attributes 0).scope = some 0 := by decide +kernel

theorem attributes_rule : (table.attributes 1).scope = some 0 ∧
    (table.attributes 1).bodyScope = some 1 := by decide +kernel

theorem attributes_call (id : Nat) (h : id = 4 ∨ id = 5 ∨ id = 8) :
    (table.attributes id).scope = some 0 ∧ ∃ d, (table.attributes id).decl = some d := by
  have hdecl : (table.attributes id).scope = some 0 ∧ (table.attributes id).decl.isSome = true := by
    rcases h with rfl | rfl | rfl <;> decide +kernel
  exact ⟨hdecl.1, Option.isSome_iff_exists.mp hdecl.2⟩

theorem attributes_name : (table.attributes 6).scope = some 1 ∧
    ∃ d, (table.attributes 6).decl = some d ∧ d.isAssignable = true := by
  have hdecl : (table.attributes 6).decl.any (·.isAssignable) = true := by decide +kernel
  exact ⟨by decide +kernel, (Option.any_eq_true _ _).mp hdecl⟩

theorem assignable_argument {id : Nat} (h : id = 5 ∨ id = 6 ∨ id = 9) :
    (table.typeOf ⟨id, {}⟩).assignable (table.typeOf ⟨2, {}⟩) = true := by
  rcases h with rfl | rfl | rfl <;> decide +kernel

/-- The frames of the rule: its own one with its argument, and the root frame that holds it. -/
structure Entered (m : Machine) (f : FrameId) : Prop where
  root : (m.frame 0).scope = 0
  rule : (m.frame 0).predicates.get? "p" = some (.rule ⟨reentrantRule, 1, [0]⟩)
  inner : (m.frame f).scope = 1
  argument : ∃ v, (m.frame f).bindings.get? "x" = some v
  within : 0 < m.frames.size

variable {ctx : Context} {m : Machine} {f : FrameId}

theorem fits {e : Expr} (htable : ctx.table = table)
    (h : e.mark.id = 5 ∨ e.mark.id = 6 ∨ e.mark.id = 9) :
    Fits ctx.table [e] reentrantRule.parameters := by
  refine ⟨rfl, ?_⟩
  simp only [reentrantRule, List.zip_cons_cons, List.zip_nil_right, List.mem_singleton,
    Prod.mk.injEq]
  rintro _ _ ⟨rfl, rfl⟩
  rw [htable]
  exact assignable_argument h

/-- The body of the rule is resolved in frames like those of the rule before. -/
theorem entered_body {v : Value} (hroot : (m.frame 0).scope = 0)
    (hrule : (m.frame 0).predicates.get? "p" = some (.rule ⟨reentrantRule, 1, [0]⟩))
    (hwithin : 0 < m.frames.size) :
    Entered (bodyMachine ctx m ⟨reentrantRule, 1, [0]⟩ [v]) m.frames.size := by
  have hzero : (bodyMachine ctx m ⟨reentrantRule, 1, [0]⟩ [v]).frame 0 = m.frame 0 := by
    rw [frame_bodyMachine, if_neg (Nat.ne_of_lt hwithin)]
  have hnew : (bodyMachine ctx m ⟨reentrantRule, 1, [0]⟩ [v]).frame m.frames.size =
      (⟨reentrantRule, 1, [0]⟩ : Rule).frame ctx.table [v] := by
    rw [frame_bodyMachine, if_pos rfl]
  refine ⟨by rw [hzero, hroot], by rw [hzero, hrule], by rw [hnew]; rfl, ?_, ?_⟩
  · rw [hnew]
    exact ⟨_, Bindings.get?_set_self ..⟩
  · exact Nat.lt_of_lt_of_le hwithin (retained_bodyMachine).1

theorem entry_of_entered (htable : ctx.table = table) (h : Entered m f) {mark : Mark}
    (hmark : mark.id = 4 ∨ mark.id = 5 ∨ mark.id = 8) :
    found? ctx.table ([f, 0].map m.frame) mark "p" =
      some (.rule ⟨reentrantRule, 1, [0]⟩) := by
  obtain ⟨hscope, d, hd⟩ := attributes_call _ hmark
  simp [found?, htable, hscope, hd, List.find?, h.root, h.inner, h.rule]

theorem resolve_call {env : Env} {depth : Nat} (hdepth : depth ≤ ctx.maxDepth) (fuel : Nat)
    (mark : Mark) (functor : String) (arguments : List Expr) :
    (evaluator ctx (fuel + 1)).resolve env depth (.call mark functor arguments) m =
      resolveCall ctx (evaluator ctx fuel) env depth mark functor arguments m :=
  congrFun (if_neg (Nat.not_lt.mpr hdepth)) m

/-- The argument asks for the rule again, inside no other rule, and so for its body. -/
theorem argument_asked (htable : ctx.table = table) {fuel : Nat}
    (ih : ∀ k < fuel, ∀ m f, Entered m f →
      ∃ m', (evaluator ctx k).resolve [f, 0] 1 reentrantRule.body m = .error .outOfFuel m')
    (h : Entered m f) :
    ∃ m', (evaluator ctx fuel).expression [f, 0]
      (.logic (.call ⟨5, {}⟩ "p" [.reference ⟨⟨6, {}⟩, "x"⟩])) m = .error .outOfFuel m' := by
  suffices hresolve : ∀ k < fuel, ∃ m', (evaluator ctx k).resolve [f, 0] 0
      (.call ⟨5, {}⟩ "p" [.reference ⟨⟨6, {}⟩, "x"⟩]) m = .error .outOfFuel m' by
    cases fuel with
    | zero => exact ⟨m, rfl⟩
    | succ k =>
      obtain ⟨m', hm'⟩ := hresolve k (by omega)
      exact ⟨m', attach_of_outOfFuel (bind_of_error hm')⟩
  intro k hk
  match k with
  | 0 => exact ⟨m, rfl⟩
  | 1 =>
    rw [resolve_call (Nat.zero_le _), resolveCall_of_rule (entry_of_entered htable h (by simp)),
      (resolveRule_of_fits (fits htable (by simp [Expr.mark, Expr.ref]))).2 .outOfFuel m rfl]
    exact ⟨m, rfl⟩
  | k + 2 =>
    obtain ⟨v, hv⟩ := h.argument
    have hargs : expressions (evaluator ctx (k + 1)) [f, 0] [.reference ⟨⟨6, {}⟩, "x"⟩] m =
        .ok [v] m := by
      have hvalue : argumentValues? ctx.table ([f, 0].map m.frame) [.reference ⟨⟨6, {}⟩, "x"⟩] =
          some [v] := by
        obtain ⟨hscope, d, hd, hassignable⟩ := attributes_name
        cases d with
        | var | parameter | placeholder =>
          simp [argumentValues?, Expr.value?, Reference.value?, htable, hscope, hd, List.find?,
            h.inner, hv]
        | _ => cases hassignable
      have hgives : Gives (expressions (evaluator ctx (k + 1)) [f, 0]
          [.reference ⟨⟨6, {}⟩, "x"⟩]) m _ := gives_expressions rfl k
      rw [hvalue] at hgives
      exact hgives
    rw [resolve_call (Nat.zero_le _), resolveCall_of_rule (entry_of_entered htable h (by simp)),
      (resolveRule_of_fits (fits htable (by simp [Expr.mark, Expr.ref]))).1 [v] hargs]
    exact ih (k + 1) (by omega) _ _ (entered_body h.root h.rule h.within)

theorem never_resolved (htable : ctx.table = table) (hdepth : 0 < ctx.maxDepth) (fuel : Nat)
    (h : Entered m f) :
    ∃ m', (evaluator ctx fuel).resolve [f, 0] 1 reentrantRule.body m = .error .outOfFuel m' := by
  induction fuel using Nat.strongRecOn generalizing m f with
  | ind fuel ih =>
    cases fuel with
    | zero => exact ⟨m, rfl⟩
    | succ fuel =>
      obtain ⟨m', hm'⟩ := argument_asked htable
        (fun k hk m f h => ih k (Nat.lt_succ_of_lt hk) h) h
      have hargs : expressions (evaluator ctx fuel) [f, 0]
          [.logic (.call ⟨5, {}⟩ "p" [.reference ⟨⟨6, {}⟩, "x"⟩])] m = .error .outOfFuel m' :=
        bind_of_error hm'
      refine ⟨m', ?_⟩
      rw [reentrantRule, resolve_call hdepth,
        resolveCall_of_rule (entry_of_entered htable h (by simp)),
        (resolveRule_of_fits (fits htable (by simp [Expr.mark, Expr.ref, Goal.ref]))).2 _ _ hargs]

def declared : Machine :=
  ((({} : Machine).push 0).2.setStore 0 ⟨⟨[("p", .rule ⟨reentrantRule, 1, [0]⟩)]⟩⟩).log
    (.ruleRegistered "p" 1)

theorem declareRule_apply (htable : ctx.table = table) :
    declareRule ctx [0] reentrantRule (({} : Machine).push 0).2 = .ok () declared := by
  have hscope : scopeOf ctx ⟨.ruleDeclaration, reentrantRule.mark⟩ (({} : Machine).push 0).2 =
      .ok 0 (({} : Machine).push 0).2 := by
    simp only [scopeOf, htable, reentrantRule, attributes_rule.1]
    rfl
  have hframe : storeFrame ctx [0] ⟨.ruleDeclaration, reentrantRule.mark⟩
      (({} : Machine).push 0).2 = .ok 0 (({} : Machine).push 0).2 := bind_of_ok hscope
  have hbody : (ctx.table.attributes reentrantRule.mark.id).bodyScope = some 1 := by
    rw [htable]
    exact attributes_rule.2
  simp only [declareRule, hbody]
  exact bind_of_ok hframe

theorem call_never_resolved (htable : ctx.table = table) (hdepth : 0 < ctx.maxDepth) (fuel : Nat) :
    ∃ m', (evaluator ctx (fuel + 2)).resolve [0] 0
      (.call ⟨8, {}⟩ "p" [.bool ⟨9, {}⟩ true]) declared = .error .outOfFuel m' := by
  have hentry : found? ctx.table ([0].map declared.frame) ⟨8, {}⟩ "p" =
      some (.rule ⟨reentrantRule, 1, [0]⟩) := by
    obtain ⟨hscope, d, hd⟩ := attributes_call 8 (by simp)
    simp only [found?, htable, hscope, hd]
    rfl
  rw [resolve_call (Nat.zero_le _), resolveCall_of_rule hentry,
    (resolveRule_of_fits (fits htable (by simp [Expr.mark, Expr.ref]))).1 [.bool true] rfl]
  exact never_resolved htable hdepth _ (entered_body rfl rfl (by decide))

theorem outOfFuel (htable : ctx.table = table) (hdepth : 0 < ctx.maxDepth) (fuel : Nat) :
    (reentrant.run ctx fuel).outcome = .error .outOfFuel := by
  suffices hmore : (reentrant.run ctx (fuel + 4)).outcome = .error .outOfFuel by
    refine Classical.byContradiction fun h => h ?_
    rwa [run_of_le (Nat.le_add_right fuel 4) h] at hmore
  obtain ⟨m', hm'⟩ := call_never_resolved htable hdepth fuel
  have hroot : (ctx.table.attributes reentrant.mark.id).scope = some 0 := by
    rw [htable]
    exact attributes_root
  have hdeclared : (evaluator ctx (fuel + 4)).statement [0] (.rule reentrantRule)
      (({} : Machine).push 0).2 = .ok .normal declared :=
    attach_of_ok (bind_of_ok (declareRule_apply htable))
  have hasked : (evaluator ctx (fuel + 3)).expression [0]
      (.logic (.call ⟨8, {}⟩ "p" [.bool ⟨9, {}⟩ true])) declared = .error .outOfFuel m' :=
    attach_of_outOfFuel (bind_of_error hm')
  have hcalled : (evaluator ctx (fuel + 4)).statement [0]
      (.expr ⟨7, {}⟩ (.logic (.call ⟨8, {}⟩ "p" [.bool ⟨9, {}⟩ true]))) declared =
      .error .outOfFuel m' := attach_of_outOfFuel (bind_of_error hasked)
  have hrun : reentrant.execute (evaluator ctx (fuel + 4)) 0 (({} : Machine).push 0).2 =
      .error .outOfFuel m' :=
    bind_of_error ((bind_of_ok hdeclared).trans (bind_of_error hcalled))
  unfold run runBy
  rw [hroot]
  dsimp only [Machine.push, Array.size_empty] at hrun ⊢
  rw [hrun]

end Reentrant

/-- The limit does not cut off all recursion of rules. There is neither a function call nor a loop
in the program, and the analysis has nothing against it, but it never ends. -/
theorem reentrant_never_ends : reentrant.OnlyRulesRecur ∧ (analyze reentrant).2 = [] ∧
    ∀ limit, 0 < limit → ∀ fuel,
      (reentrant.run ⟨(analyze reentrant).1, limit⟩ fuel).outcome = .error .outOfFuel := by
  refine ⟨?_, by decide +kernel, fun limit hlimit fuel => Reentrant.outOfFuel ?_ hlimit fuel⟩
  · unfold OnlyRulesRecur
    decide
  · rw [Reentrant.table]

end Program

end LogicScript
