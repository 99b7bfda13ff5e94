import LogicScript.Proofs.Completeness

/-! Where Void gets into the state of a run.

A call that does not return gives Void. The value of an initializer and the arguments of a fact are
looked at before they are stored. Nobody looks at the elements of an array, the arguments of a call
or of a predicate, and what is assigned or meets a placeholder; so Void is stored with them, and with
nothing else. -/
namespace LogicScript

open Eval

theorem Object.All.mono {V W : Value → Prop} {object : Object} (h : object.All V)
    (hVW : ∀ v, V v → W v) : object.All W := by
  cases object with
  | array elements => exact fun v hv => hVW v (h v hv)
  | struct d fields => exact fun name v hv => hVW v (h name v hv)

theorem Object.All.and {V W : Value → Prop} {object : Object} (h : object.All V)
    (h' : object.All W) : object.All fun v => V v ∧ W v := by
  cases object with
  | array elements => exact fun v hv => ⟨h v hv, h' v hv⟩
  | struct d fields => exact fun name v hv => ⟨h name v hv, h' name v hv⟩

namespace PredicateStore

variable {s s' : PredicateStore} {functor name : String} {tuple t : List Value} {r : Rule}
  {tuples : List (List Value)}

theorem mem_facts_of_addFact (h : s.addFact functor tuple = .ok s')
    (hname : s'.get? name = some (.facts tuples)) (ht : t ∈ tuples) :
    t = tuple ∨ ∃ old, s.get? name = some (.facts old) ∧ t ∈ old := by
  have hset : ∀ added, (⟨s.entries.set functor (.facts added)⟩ : PredicateStore).get? name =
      some (.facts tuples) → name = functor ∧ tuples = added ∨
        s.get? name = some (.facts tuples) := by
    intro added hget
    by_cases hn : name = functor
    · subst hn
      simp only [get?, Bindings.get?_set_self, Option.some.injEq, Entry.facts.injEq] at hget
      exact .inl ⟨rfl, hget.symm⟩
    · simp only [get?, Bindings.get?_set_ne _ _ hn] at hget
      exact .inr hget
  unfold addFact at h
  split at h
  · cases h
    rcases hset _ hname with ⟨-, rfl⟩ | hold
    · exact .inl (List.mem_singleton.mp ht)
    · exact .inr ⟨tuples, hold, ht⟩
  · cases h
  · rename_i old hfacts
    split at h
    · cases h
    · cases h
      rcases hset _ hname with ⟨rfl, rfl⟩ | hold
      · rcases List.mem_append.mp ht with hmem | hmem
        · exact .inr ⟨old, hfacts, hmem⟩
        · exact .inl (List.mem_singleton.mp hmem)
      · exact .inr ⟨tuples, hold, ht⟩

theorem facts_of_setRule (h : s.setRule functor r = .ok s')
    (hname : s'.get? name = some (.facts tuples)) : s.get? name = some (.facts tuples) := by
  unfold setRule at h
  split at h
  · cases h
  · cases h
    by_cases hn : name = functor
    · subst hn
      simp [get?] at hname
    · simpa only [get?, Bindings.get?_set_ne _ _ hn] using hname

end PredicateStore

/-- All facts of a machine are such tuples. -/
def Machine.AllFacts (P : List Value → Prop) (m : Machine) : Prop :=
  ∀ f functor tuples, (m.frame f).predicates.get? functor = some (.facts tuples) →
    ∀ tuple ∈ tuples, P tuple

namespace Machine.AllFacts

variable {P : List Value → Prop} {m m' : Machine} {f : FrameId} {functor : String}
  {tuple : List Value} {r : Rule} {store : PredicateStore}

theorem empty : ({} : Machine).AllFacts P := by
  intro f functor tuples ht
  have hstore : (({} : Machine).frame f).predicates = {} := rfl
  simp [hstore, PredicateStore.get?] at ht

theorem of_eq (hm : m.AllFacts P) (h : ∀ f, (m'.frame f).predicates = (m.frame f).predicates) :
    m'.AllFacts P := fun f functor tuples ht => hm f functor tuples (h f ▸ ht)

theorem setStore (hm : m.AllFacts P)
    (h : ∀ functor tuples, store.get? functor = some (.facts tuples) → ∀ tuple ∈ tuples, P tuple) :
    (m.setStore f store).AllFacts P := by
  intro i functor tuples ht
  rw [Machine.setStore, frame_updateFrame] at ht
  split at ht
  · exact h functor tuples ht
  · exact hm i functor tuples ht

theorem addFact (hm : m.AllFacts P) (ht : P tuple)
    (h : (m.frame f).predicates.addFact functor tuple = .ok store) :
    (m.setStore f store).AllFacts P := by
  refine hm.setStore fun name tuples hname t hmem => ?_
  rcases PredicateStore.mem_facts_of_addFact h hname hmem with rfl | ⟨old, hold, hmem⟩
  · exact ht
  · exact hm f name old hold t hmem

theorem setRule (hm : m.AllFacts P) (h : (m.frame f).predicates.setRule functor r = .ok store) :
    (m.setStore f store).AllFacts P :=
  hm.setStore fun name tuples hname => hm f name tuples (PredicateStore.facts_of_setRule h hname)

end Machine.AllFacts

/-- No fact holds Void, whatever else happens. -/
def factContract : Contract where
  Inv := Machine.AllFacts fun tuple => ∀ v ∈ tuple, v.kind ≠ .void
  Leads _ _ := True
  Blame _ := True
  Stop _ := True
  refl _ := trivial
  trans _ _ := trivial
  blame_attach _ := trivial
  stop_attach _ := trivial

theorem factContract_permits : factContract.Permits :=
  .of_frames (fun _ => trivial) (fun _ => trivial) (fun _ => trivial)
    (fun hm hframes => ⟨hm.of_eq fun f => by rw [Machine.frame_of_frames hframes], trivial⟩)
    (fun hm => ⟨hm.of_eq fun f => Machine.predicates_define .., trivial⟩)
    (fun hm => ⟨hm.of_eq fun f => Machine.predicates_push .., trivial⟩)
    (fun hm htuple h => ⟨hm.addFact htuple h, trivial⟩) fun hm h => ⟨hm.setRule h, trivial⟩

namespace Program

variable {p : Program} {ctx : Context} {sub : Evaluator} {m : Machine} {env : Env}

/-- The value of the expression may be stored without a look at it. -/
def Unchecked (p : Program) (e : Expr) : Prop :=
  ∃ whole, .expression whole ∈ p.nodes ∧ e ∈ whole.unchecked

/-- Functions and rules come from the program, and nothing that is bound or held is Void. -/
def voidContract (p : Program) : Contract where
  Inv m := p.Sources m ∧ m.AllValues (· ≠ .void)
  Leads _ _ := True
  Blame _ := True
  Stop _ := False
  refl _ := trivial
  trans _ _ := trivial
  blame_attach _ := trivial
  stop_attach h := h

/-- Functions come from the program, and there is something. -/
def Holds (p : Program) (v : Value) : Prop := p.Owns v ∧ v ≠ .void

theorem holds_withVoid (p : Program) : Contract.WithVoid p.Holds p.Owns where
  stored _ hv := hv.1
  void := p.owns_void
  checked v hv hkind := ⟨hv, by rintro rfl; exact hkind rfl⟩

theorem voidContract_admits (p : Program) : p.voidContract.Admits p.Holds := by
  have hs := p.attributeContract_admits
  exact {
    faults := fun _ _ _ => trivial
    plain := fun v hv => ⟨hs.plain v hv, hv.2⟩
    bound := fun h hv => ⟨hs.bound h.1 hv, h.2.bound _ _ _ hv⟩
    held := fun h ho => (hs.held h.1 ho).and (h.2.held _ _ ho)
    define := fun hf h hv => ⟨⟨(hs.define hf h.1 hv.1).1, h.2.define hv.2⟩, trivial⟩
    push := fun h => ⟨⟨(hs.push h.1).1, h.2.push⟩, trivial⟩
    alloc := fun h ho =>
      ⟨⟨(hs.alloc h.1 (ho.mono fun _ hv => hv.1)).1, h.2.alloc (ho.mono fun _ hv => hv.2)⟩, trivial⟩
    setElement := fun h hv => ⟨⟨(hs.setElement h.1 hv.1).1,
      h.2.updateObject fun object ho => ho.setElement hv.2 _⟩, trivial⟩
    setField := fun h hv hfield => ⟨⟨(hs.setField h.1 hv.1 hfield).1,
      h.2.updateObject fun object ho => ho.setField hv.2 _⟩, trivial⟩
    print := fun h => ⟨⟨(hs.print h.1).1, ⟨h.2.bound, h.2.held⟩⟩, trivial⟩
    log := fun h => ⟨⟨(hs.log h.1).1, ⟨h.2.bound, h.2.held⟩⟩, trivial⟩
    addFact := fun hf h ht hstore => ⟨⟨(hs.addFact hf h.1 ht hstore).1, h.2.setStore⟩, trivial⟩ }

theorem voidContract_sees (p : Program) (node : NodeRef) : p.voidContract.Sees m env ctx node := by
  intro m' _
  unfold Contract.Locates
  split <;> simp [voidContract]

/-- All requests for nodes of the program are met within the contract, and some expressions are never
Void. -/
structure AvoidsVoid (p : Program) (S : Expr → Prop) (sub : Evaluator) : Prop where
  expression : ∀ m env e, e.nodes ⊆ p.nodes →
    p.voidContract.Honours m (sub.expression env e) (sub.expression env e)
      fun _ v => p.Owns v ∧ (S e → v ≠ .void)
  statement : ∀ m env st, st.nodes ⊆ p.nodes →
    p.voidContract.Honours m (sub.statement env st) (sub.statement env st)
      fun _ done => done.All p.Owns
  rounds : ∀ m env condition body, condition.nodes ⊆ p.nodes → body.nodes ⊆ p.nodes →
    p.voidContract.Honours m (sub.rounds env condition body) (sub.rounds env condition body)
      fun _ done => done.All p.Owns
  resolve : ∀ m env depth goal, goal.nodes ⊆ p.nodes →
    p.voidContract.Honours m (sub.resolve env depth goal) (sub.resolve env depth goal)
      fun _ _ => True

namespace AvoidsVoid

theorem exhausted {S : Expr → Prop} : p.AvoidsVoid S Eval.exhausted :=
  ⟨fun _ _ _ _ => .exhaust trivial trivial, fun _ _ _ _ => .exhaust trivial trivial,
    fun _ _ _ _ _ _ => .exhaust trivial trivial, fun _ _ _ _ _ => .exhaust trivial trivial⟩

theorem evaluates (h : p.AvoidsVoid p.Unchecked sub) {e : Expr} (he : e.nodes ⊆ p.nodes) :
    p.voidContract.Evaluates p.Owns sub sub m env e :=
  fun m' _ => (h.expression m' env e he).weaken fun _ _ _ hv => hv.1

theorem evaluates_unchecked (h : p.AvoidsVoid p.Unchecked sub) {e : Expr} (he : e.nodes ⊆ p.nodes)
    (hu : p.Unchecked e) : p.voidContract.Evaluates p.Holds sub sub m env e :=
  fun m' _ => (h.expression m' env e he).weaken fun _ _ _ hv => ⟨hv.1, hv.2 hu⟩

theorem expression_step (hp : p.Numbered)
    (hd : ∀ id d, (ctx.table.attributes id).decl = some (.function d) → d ∈ p.functions)
    (h : p.AvoidsVoid p.Unchecked sub) {e : Expr} (he : e.nodes ⊆ p.nodes) :
    p.voidContract.Honours m (Eval.expression ctx sub env e) (Eval.expression ctx sub env e)
      fun _ v => p.Owns v := by
  have ha := p.voidContract_admits
  have hparts : ∀ e' ∈ e.parts, e'.nodes ⊆ p.nodes := fun e' he' =>
    List.Subset.trans (Expr.nodes_parts he') he
  refine Contract.Honours.expression ha p.holds_withVoid (fun e' he' => h.evaluates (hparts e' he'))
    (fun e' he' hu => h.evaluates_unchecked (hparts e' he') ⟨e, he e.self_mem_nodes, hu⟩)
    (fun goal hgoal m' _ => ?_) (fun r _ => p.voidContract_sees _)
    (fun r _ => ⟨fun _ => trivial, fun d hdecl => ?_⟩) (fun _ _ _ _ => trivial) ?_
  · exact h.resolve m' env 0 goal (List.Subset.trans (Expr.nodes_goal hgoal) he)
  · refine ⟨?_, by simp⟩
    rintro _ ⟨⟩
    exact hd _ d hdecl
  · intro _ d hholds m' args _ hargs
    have hmem := Program.mem_functions.mp (hholds.1 d rfl)
    refine Contract.Honours.callFunction ha p.holds_withVoid hargs (fun _ => trivial)
      fun scope m₁ _ _ _ => ?_
    refine h.statement m₁ _ _ (List.Subset.trans ?_ (nodes_inside hp hmem rfl))
    rw [Node.nodes, Stmt.nodes_function]
    exact List.subset_append_right ..

theorem resolve_step (h : p.AvoidsVoid p.Unchecked sub) {depth : Nat} {goal : Goal}
    (hg : goal.nodes ⊆ p.nodes) :
    p.voidContract.Honours m (Eval.resolve ctx sub env depth goal)
      (Eval.resolve ctx sub env depth goal) fun _ _ => True := by
  have ha := p.voidContract_admits
  refine Contract.Honours.resolve ha (fun g hpart m' _ => ?_) ?_
  · exact h.resolve m' env depth g (List.Subset.trans (Goal.nodes_parts hpart) hg)
  · rintro _ mark functor arguments rfl
    have hargs : ∀ e ∈ arguments, p.voidContract.Evaluates p.Holds sub sub m env e := fun e he =>
      h.evaluates_unchecked (List.Subset.trans (Goal.nodes_arguments he) hg)
        ⟨_, hg (Goal.self_mem_nodes _), he⟩
    refine Contract.Honours.resolveCall hargs fun scope f r _ _ hrule hm => ?_
    exact Contract.Honours.resolveRule ha hargs (fun m₁ m₂ _ _ _ =>
      h.resolve m₂ _ _ _ (hm.1.rules f functor r hrule)) hm

theorem statement_step (h : p.AvoidsVoid p.Unchecked sub) {st : Stmt} (hst : st.nodes ⊆ p.nodes) :
    p.voidContract.Honours m (Eval.statement ctx sub env st) (Eval.statement ctx sub env st)
      fun _ done => done.All p.Owns := by
  have ha := p.voidContract_admits
  have hparts : ∀ e ∈ st.parts, e.nodes ⊆ p.nodes := fun e he =>
    List.Subset.trans (Stmt.nodes_parts he) hst
  refine Contract.Honours.statement ha p.holds_withVoid (fun e he => h.evaluates (hparts e he))
    (fun e he hu => h.evaluates_unchecked (hparts e he) ?_) (fun node _ => p.voidContract_sees node)
    (fun st' hst' m' _ => ?_) ?_ ?_ (fun _ _ _ => trivial) ?_ ?_ ?_
  · cases st with
    | unify mark left right =>
      rcases List.mem_append.mp hu with hmem | hmem
      · exact ⟨.logic left.goal, hst (by simp [Stmt.nodes, Goal.self_mem_nodes]), hmem⟩
      · exact ⟨.logic right.goal, hst (by simp [Stmt.nodes, Goal.self_mem_nodes]), hmem⟩
    | _ => cases hu
  · exact h.statement m' env st' (List.Subset.trans (Stmt.nodes_branches hst') hst)
  · rintro d rfl
    refine ⟨?_, by simp⟩
    rintro _ ⟨⟩
    exact Program.mem_functions.mpr (hst (Stmt.self_mem_nodes _))
  · rintro d rfl
    refine Contract.Honours.declareRule ha (fun _ => trivial) (p.voidContract_sees _).now ?_
    intro scope f store _ _ hset hm
    refine ⟨⟨⟨hm.1.rules.setRule ?_ hset, hm.1.values.setStore⟩, hm.2.setStore⟩, trivial⟩
    exact fun n hn => hst (by simp [Stmt.nodes, RuleDecl.nodes, hn])
  · rintro b rfl scope _ m' _ _ st' hst' m'' _
    exact h.statement m'' _ st' (List.Subset.trans (Stmt.nodes_statements hst') hst)
  · rintro mark condition b rfl scope _ m' _ _ m'' _
    refine h.rounds m'' env condition _ (fun n hn => hst ?_) fun n hn => hst ?_
    · simp [Stmt.nodes, hn]
    · obtain ⟨st', hst', hn⟩ := Stmt.mem_nodesOfList.mp hn
      have hn : n ∈ (Stmt.block b).nodes := Stmt.nodes_statements hst' hn
      exact List.mem_cons_of_mem _ (List.mem_append_right _ hn)
  · rintro mark condition body rfl _ m' _
    refine h.rounds m' env condition _ (fun n hn => hst ?_) fun n hn => hst ?_
    · simp [Stmt.nodes, hn]
    · have hn : n ∈ body.nodes := hn
      simp [Stmt.nodes, hn]

theorem rounds_step (h : p.AvoidsVoid p.Unchecked sub) {condition : Expr} {body : LoopBody}
    (hcondition : condition.nodes ⊆ p.nodes) (hbody : body.nodes ⊆ p.nodes) :
    p.voidContract.Honours m (Eval.rounds sub env condition body)
      (Eval.rounds sub env condition body) fun _ done => done.All p.Owns := by
  refine Contract.Honours.rounds p.voidContract_admits (h.evaluates hcondition) (fun m' _ => ?_)
    fun m' _ => h.rounds m' env condition body hcondition hbody
  refine Contract.Honours.round ?_ ?_
  · rintro inner b rfl st hst m'' _
    exact h.statement m'' inner st fun n hn => hbody (Stmt.mem_nodesOfList.mpr ⟨st, hst, hn⟩)
  · rintro st rfl m'' _
    exact h.statement m'' env st hbody

theorem step (hp : p.Numbered)
    (hd : ∀ id d, (ctx.table.attributes id).decl = some (.function d) → d ∈ p.functions)
    (h : p.AvoidsVoid p.Unchecked sub) : p.AvoidsVoid (fun _ => False) (Eval.step ctx sub) where
  expression _ _ _ he := (h.expression_step hp hd he).weaken fun _ _ _ hv => ⟨hv, False.elim⟩
  statement _ _ _ hst := h.statement_step hst
  rounds _ _ _ _ hc hb := h.rounds_step hc hb
  resolve _ _ _ _ hg := h.resolve_step hg

/-- The observer sees to it that some expressions are never Void. -/
theorem watch {S S' : Expr → Prop} {o : Moment → Machine → Option Fault} (h : p.AvoidsVoid S sub)
    (ho : ∀ env e m, S' e → o (.expression env e (some .void)) m ≠ none) :
    p.AvoidsVoid S' (sub.watch o) where
  expression m env e he := by
    refine ((h.expression m env e he).watched_self (o := fun v => o (.expression env e v))
      fun _ _ _ _ => trivial).weaken ?_
    rintro m' v - ⟨⟨hv, -⟩, hseen⟩
    refine ⟨hv, ?_⟩
    rintro hS rfl
    exact ho env e m' hS hseen
  statement m env st hst :=
    ((h.statement m env st hst).watched_self (o := fun done => o (.statement env st done))
      fun _ _ _ _ => trivial).weaken fun _ _ _ hv => hv.1
  rounds m env condition body hc hb :=
    ((h.rounds m env condition body hc hb).watched_self
      (o := fun done => o (.rounds env condition body done)) fun _ _ _ _ => trivial).weaken
      fun _ _ _ hv => hv.1
  resolve m env depth goal hg :=
    ((h.resolve m env depth goal hg).watched_self
      (o := fun answer => o (.goal env depth goal answer)) fun _ _ _ _ => trivial).weaken
      fun _ _ _ hv => hv.1

end AvoidsVoid

end Program

/-- The observer stops the run before Void is stored without a look at it. -/
def Observer.Guards (o : Observer) (p : Program) : Prop :=
  ∀ level env e m, p.Unchecked e → o level (.expression env e (some .void)) m ≠ none

/-- Stops a run as soon as any expression is Void. -/
def Observer.wary : Observer
  | _, .expression _ e (some .void), _ => some ⟨.notCallable .void, some e.ref⟩
  | _, _, _ => none

namespace Program

variable {p : Program} {ctx : Context}

theorem AvoidsVoid.observed (hp : p.Numbered)
    (hd : ∀ id d, (ctx.table.attributes id).decl = some (.function d) → d ∈ p.functions)
    {o : Observer} (ho : o.Guards p) (fuel level : Nat) :
    p.AvoidsVoid p.Unchecked (Eval.observed ctx o fuel level) := by
  induction fuel generalizing level with
  | zero => exact exhausted
  | succ fuel ih => exact ((ih (level + 1)).step hp hd).watch fun env e m => ho level env e m

theorem facts_without_void {m : Machine} (h : p.Reaches ctx m) : m.AllFacts (.void ∉ ·) := by
  obtain ⟨o, fuel, rfl⟩ := h
  have hcompares : factContract.Compares (p.watchedRun ctx o fuel) (p.watchedRun ctx o fuel) :=
    factContract_permits.compares (fun _ => trivial) .empty (.refl o) trivial (fun _ _ _ _ _ => trivial)
      (Nat.le_refl fuel)
  intro f functor tuples htuples tuple htuple hvoid
  exact hcompares.inv f functor tuples htuples tuple htuple .void hvoid rfl

theorem values_without_void (hp : p.Numbered)
    (hd : ∀ id d, (ctx.table.attributes id).decl = some (.function d) → d ∈ p.functions)
    {o : Observer} (ho : o.Guards p) (fuel : Nat) :
    (p.watchedRun ctx o fuel).machine.AllValues (· ≠ .void) := by
  have hkeeps : p.AvoidsVoid p.Unchecked (Eval.observed ctx o fuel 0) := .observed hp hd ho fuel 0
  have hcompares : p.voidContract.Compares (p.watchedRun ctx o fuel) (p.watchedRun ctx o fuel) := by
    refine .of_statements (W := p.Owns) p.voidContract_admits ⟨p.sources_empty, .empty⟩
      (fun _ => trivial) ?_
    intro scope _ st hst m _
    exact hkeeps.statement m [0] st fun n hn =>
      List.mem_cons_of_mem _ (Stmt.mem_nodesOfList.mpr ⟨st, hst, hn⟩)
  exact hcompares.inv.2

/-- No fact of a run ever has Void in it. Nothing that is bound or held is Void either, as long as no
operand turns out to be Void whose value is stored without a look at it. -/
theorem void_stored_unchecked_only (hp : p.Numbered) (maxDepth : Nat) :
    (∀ m, p.Reaches ⟨(analyze p).1, maxDepth⟩ m → m.AllFacts (.void ∉ ·)) ∧
    ∀ o : Observer, o.Guards p → ∀ fuel,
      (p.watchedRun ⟨(analyze p).1, maxDepth⟩ o fuel).machine.AllValues (· ≠ .void) := by
  have hd : ∀ id d, ((analyze p).1.attributes id).decl = some (.function d) → d ∈ p.functions :=
    fun _ _ h => functions_known hp h
  generalize (analyze p).1 = t at hd
  exact ⟨fun m hm => facts_without_void hm, fun o ho fuel => values_without_void hp hd ho fuel⟩

/-- A variable is set to what a function gives that does not return. -/
def unreturned : Program where
  mark := ⟨0, {}⟩
  statements := [
    .function ⟨⟨1, {}⟩, "f", [], none, ⟨⟨2, {}⟩, []⟩⟩,
    .var ⟨⟨3, {}⟩, "x", none, some (.int ⟨4, {}⟩ 1)⟩,
    .expr ⟨5, {}⟩ (.assign ⟨6, {}⟩ (.reference ⟨⟨7, {}⟩, "x"⟩)
      (.call ⟨8, {}⟩ (.reference ⟨⟨9, {}⟩, "f"⟩) []))]

theorem unreturned_numbered : unreturned.Numbered := by
  unfold Numbered Distinct
  decide

theorem unreturned_stopped :
    unreturned.Numbered ∧ Observer.wary.Guards unreturned ∧
    (∀ m, unreturned.Reaches ⟨(analyze unreturned).1, 1⟩ m → m.AllFacts (.void ∉ ·)) ∧
    (unreturned.watchedRun ⟨(analyze unreturned).1, 1⟩ .wary 9).machine.AllValues (· ≠ .void) := by
  have hguards : Observer.wary.Guards unreturned := fun _ _ _ _ _ => Option.some_ne_none _
  obtain ⟨hfacts, hvalues⟩ := void_stored_unchecked_only unreturned_numbered 1
  exact ⟨unreturned_numbered, hguards, hfacts, hvalues .wary hguards 9⟩

/-- A program is accepted and yet its run leaves a variable with Void. -/
theorem accepted_stores_void :
    ¬ ∀ p : Program, p.Numbered → (analyze p).2 = [] → ∀ maxDepth m,
      p.Reaches ⟨(analyze p).1, maxDepth⟩ m → m.AllValues (· ≠ .void) := by
  intro h
  have haccepted : (analyze unreturned).2 = [] := List.isEmpty_iff.mp (by decide +kernel)
  have hbound : ((((unreturned.run ⟨(analyze unreturned).1, 1⟩ 9).machine.frame 0).bindings.get?
      "x").any fun v => v.equal .void) = true := by decide +kernel
  obtain ⟨v, hv, hvoid⟩ := (Option.any_eq_true ..).mp hbound
  have hne := (h unreturned unreturned_numbered haccepted 1 _
    (reaches_run _ _ 9)).bound 0 "x" v hv
  cases v <;> simp [Value.equal] at hvoid hne

end Program
end LogicScript
