import LogicScript.Proofs.Observation
import LogicScript.Proofs.Placement
import LogicScript.Proofs.Stores

/-! Frames and scopes.

A chain of frames does not always have a frame for every scope around: a function is called under
the root frame, wherever it was declared. In a program whose functions use nothing of the scopes
between their own and the outermost one, the chain has a frame for each scope that is consulted. -/
namespace LogicScript

open Eval

/-- No node in the body of a function belongs to a scope around the function, unless it is the scope
of the whole program. -/
def Program.ClosureFree (p : Program) (t : Table) : Prop :=
  ∀ d ∈ p.functions, ∀ body ∈ (t.attributes d.mark.id).bodyScope,
    ∀ node ∈ (Stmt.block d.body).nodes, ∀ i ∈ (t.attributes node.mark.id).scope,
      i ∈ (t.scopes.get body).outer → (t.attributes p.mark.id).scope = some i

instance (p : Program) (t : Table) : Decidable (p.ClosureFree t) :=
  inferInstanceAs (Decidable (∀ d ∈ p.functions, ∀ body ∈ (t.attributes d.mark.id).bodyScope,
    ∀ node ∈ (Stmt.block d.body).nodes, ∀ i ∈ (t.attributes node.mark.id).scope,
      i ∈ (t.scopes.get body).outer → (t.attributes p.mark.id).scope = some i))

/-- Whether a scope had no active frame. -/
def Cause.lacksFrame : Cause → Bool
  | .noFrame _ | .noFrameToRead _ _ | .noFrameToWrite _ _ => true
  | _ => false

theorem Cause.lacksFrame_of_isStatic {cause : Cause} (h : cause.isStatic = false) :
    cause.lacksFrame = false := by
  cases cause <;> first | rfl | cases h

namespace Machine

/-- The scopes of the frames on a chain. -/
def scopes (m : Machine) (env : Env) : List ScopeId := env.map fun f => (m.frame f).scope

/-- The frames are kept with their scopes. -/
def FramesKept (m m' : Machine) : Prop :=
  m.frames.size ≤ m'.frames.size ∧
    ∀ f < m.frames.size, (m'.frame f).scope = (m.frame f).scope

theorem FramesKept.refl (m : Machine) : m.FramesKept m := ⟨Nat.le_refl _, fun _ _ => rfl⟩

theorem FramesKept.trans {m m' m'' : Machine} (h : m.FramesKept m') (h' : m'.FramesKept m'') :
    m.FramesKept m'' :=
  ⟨Nat.le_trans h.1 h'.1, fun f hf => (h'.2 f (Nat.lt_of_lt_of_le hf h.1)).trans (h.2 f hf)⟩

theorem FramesKept.push (m : Machine) (scope : ScopeId) : m.FramesKept (m.push scope).2 := by
  refine ⟨by simp, fun f hf => ?_⟩
  rw [frame_push, if_neg (Nat.ne_of_lt hf)]

/-- A chain ends in the root frame and has no two frames of one scope. -/
structure Stands (m : Machine) (env : Env) : Prop where
  there : ∀ f ∈ env, f < m.frames.size
  last : env.getLast? = some 0
  root : (m.frame 0).scope = 0
  nodup : (m.scopes env).Nodup

/-- Every scope that a node belongs to has a frame on the chain. -/
def Covers (t : Table) (m : Machine) (env : Env) (nodes : List Node) : Prop :=
  ∀ node ∈ nodes, ∀ i, (t.attributes node.mark.id).scope = some i → i ∈ m.scopes env

section Kept

variable {t : Table} {m m' : Machine} {env : Env} {nodes nodes' : List Node} {scope : ScopeId}

theorem FramesKept.scopes (h : m.FramesKept m') (henv : ∀ f ∈ env, f < m.frames.size) :
    m'.scopes env = m.scopes env :=
  List.map_congr_left fun f hf => h.2 f (henv f hf)

theorem Stands.mono (h : m.Stands env) (hk : m.FramesKept m') : m'.Stands env where
  there f hf := Nat.lt_of_lt_of_le (h.there f hf) hk.1
  last := h.last
  root := (hk.2 0 (h.there 0 (List.mem_of_getLast? h.last))).trans h.root
  nodup := by rw [hk.scopes h.there]; exact h.nodup

theorem Covers.mono (h : Covers t m env nodes) (henv : m.Stands env) (hk : m.FramesKept m') :
    Covers t m' env nodes := by
  intro node hnode i hi
  rw [hk.scopes henv.there]
  exact h node hnode i hi

theorem Covers.subset (h : Covers t m env nodes) (hsub : nodes' ⊆ nodes) :
    Covers t m env nodes' := fun node hnode => h node (hsub hnode)

theorem Stands.enter (h : m.Stands env) (hk : m.FramesKept m') (he : m.Entered scope m')
    (hfresh : scope ∉ m.scopes env) :
    m'.Stands (m.frames.size :: env) ∧
      m'.scopes (m.frames.size :: env) = scope :: m.scopes env := by
  have hscopes : m'.scopes (m.frames.size :: env) = scope :: m.scopes env := by
    have hrest := hk.scopes h.there
    unfold Machine.scopes at hrest ⊢
    rw [List.map_cons, he.2, hrest]
  refine ⟨⟨fun f hf => ?_, ?_, (h.mono hk).root, ?_⟩, hscopes⟩
  · rcases List.mem_cons.mp hf with rfl | hf
    · exact he.1
    · exact (h.mono hk).there f hf
  · rw [List.getLast?_cons, h.last]
    rfl
  · rw [hscopes]
    exact List.nodup_cons.mpr ⟨hfresh, h.nodup⟩

end Kept

end Machine

/-- Where a rule was declared, its scope is not yet on the chain, and with it all of its body is
covered. -/
structure Machine.Houses (t : Table) (m : Machine) (r : Rule) : Prop where
  stands : m.Stands r.env
  fresh : r.scope ∉ m.scopes r.env
  body : ∀ node ∈ r.decl.body.nodes, ∀ i, (t.attributes node.mark.id).scope = some i →
    i ∈ r.scope :: m.scopes r.env

theorem Machine.Houses.mono {t : Table} {m m' : Machine} {r : Rule} (h : m.Houses t r)
    (hk : m.FramesKept m') : m'.Houses t r := by
  have hscopes := hk.scopes h.stands.there
  exact ⟨h.stands.mono hk, hscopes ▸ h.fresh, hscopes ▸ h.body⟩

/-- A function is one of the program's. -/
def Program.Owns (p : Program) (v : Value) : Prop := ∀ d, v = .function d → d ∈ p.functions

theorem Program.owns_void (p : Program) : p.Owns .void := by
  rintro d ⟨⟩

/-- All rules can be asked, and all functions can be called. -/
structure Machine.Fitting (p : Program) (t : Table) (m : Machine) : Prop where
  rules : m.AllRules fun _ r => m.Houses t r
  values : m.AllValues p.Owns

namespace Machine.Fitting

variable {p : Program} {t : Table} {m m' : Machine} {f : FrameId} {store : PredicateStore}

theorem of_eq (h : m.Fitting p t) (hk : m.FramesKept m') (hvalues : m'.AllValues p.Owns)
    (hstores : ∀ f, (m'.frame f).predicates = (m.frame f).predicates) : m'.Fitting p t :=
  ⟨fun f functor r hr => (h.rules.of_eq hstores f functor r hr).mono hk, hvalues⟩

theorem setStore (h : m.Fitting p t)
    (hstore : (m.setStore f store).AllRules fun _ r => m.Houses t r) :
    (m.setStore f store).Fitting p t ∧ m.FramesKept (m.setStore f store) := by
  have hk : m.FramesKept (m.setStore f store) := ⟨by simp, fun i _ => by simp⟩
  exact ⟨⟨fun i functor r hr => (hstore i functor r hr).mono hk, h.values.setStore⟩, hk⟩

end Machine.Fitting

/-- Frames are kept, and none is ever missing. -/
def Program.frameContract (p : Program) (t : Table) : Contract where
  Inv := Machine.Fitting p t
  Leads := Machine.FramesKept
  Blame halt := ∀ f, halt = .fault f → f.cause.lacksFrame = false
  Stop _ := False
  refl := .refl
  trans := .trans
  blame_attach {f _} h := by
    rintro _ ⟨⟩
    exact h f rfl
  stop_attach h := h

theorem Program.frameContract_admits (p : Program) (t : Table) :
    (p.frameContract t).Admits p.Owns := by
  have hobjects : ∀ {m m' : Machine}, m.Fitting p t → m'.frames = m.frames →
      m'.AllValues p.Owns → m'.Fitting p t ∧ m.FramesKept m' := by
    intro m m' h hframes hvalues
    have hframe := Machine.frame_of_frames hframes
    have hk : m.FramesKept m' := ⟨Nat.le_of_eq (by rw [hframes]), fun f _ => by rw [hframe]⟩
    exact ⟨h.of_eq hk hvalues fun f => by rw [hframe], hk⟩
  exact {
    faults := by
      rintro cause node h _ ⟨⟩
      exact Cause.lacksFrame_of_isStatic h
    endless := fun _ h => nomatch h
    plain := by
      rintro v hv d rfl
      exact absurd rfl hv.1
    bound := fun h => h.values.bound _ _ _
    held := fun h => h.values.held _ _
    define := fun {m f name v} _ h hv => by
      have hk : m.FramesKept (m.define f name v) := ⟨by simp, fun i _ => by simp⟩
      exact ⟨h.of_eq hk (h.values.define hv) fun i => by simp, hk⟩
    push := fun {m scope} h =>
      have hk := Machine.FramesKept.push m scope
      ⟨h.of_eq hk h.values.push fun f => Machine.predicates_push .., hk⟩
    alloc := fun h ho => hobjects h rfl (h.values.alloc ho)
    setElement := fun h hv =>
      hobjects h rfl (h.values.updateObject fun object ho => ho.setElement hv _)
    setField := fun h hv _ =>
      hobjects h rfl (h.values.updateObject fun object ho => ho.setField hv _)
    print := fun h => hobjects h rfl ⟨h.values.bound, h.values.held⟩
    log := fun h => hobjects h rfl ⟨h.values.bound, h.values.held⟩
    addFact := fun _ h _ hs => h.setStore (h.rules.addFact hs) }

/-- What the analysis of a program gives, if the program is free of closures. -/
structure Program.Analysed (p : Program) (s : Analysis.State) : Prop where
  sound : s.Sound (· ∈ p.functions)
  root : (s.table.attributes p.mark.id).scope = some 0
  placed : Analysis.PlacedAll s [0] p.statements
  free : p.ClosureFree s.table

/-- A statement is placed in scopes of which the chain has all that the statement needs. -/
structure Machine.Ready (p : Program) (s : Analysis.State) (m : Machine) (env : Env) (st : Stmt) :
    Prop where
  stands : m.Stands env
  inside : st.nodes ⊆ p.nodes
  placed : ∃ around, Analysis.Placed s around st ∧ m.scopes env ⊆ around ∧
    ∀ node ∈ st.nodes, ∀ i ∈ around, (s.table.attributes node.mark.id).scope = some i →
      i ∈ m.scopes env

/-- The body of a loop can be executed. -/
def Machine.LoopReady (p : Program) (s : Analysis.State) (m : Machine) (env : Env) : LoopBody → Prop
  | .block inner b => ∀ st ∈ b.statements, m.Ready p s inner st
  | .statement st => m.Ready p s env st

namespace Machine.Ready

variable {p : Program} {s : Analysis.State} {m m' : Machine} {env : Env} {st st' : Stmt} {e : Expr}

theorem mono (h : m.Ready p s env st) (hk : m.FramesKept m') : m'.Ready p s env st := by
  refine ⟨h.stands.mono hk, h.inside, ?_⟩
  rw [hk.scopes h.stands.there]
  exact h.placed

theorem parts (h : m.Ready p s env st) (he : e ∈ st.parts) : Covers s.table m env e.nodes := by
  obtain ⟨around, hp, -, hall⟩ := h.placed
  intro node hnode i hi
  exact hall node (Stmt.nodes_parts he hnode) i ((hp.parts he node hnode).1 i hi) hi

theorem branches (h : m.Ready p s env st) (hst : st' ∈ st.branches) : m.Ready p s env st' := by
  obtain ⟨around, hp, hsub, hall⟩ := h.placed
  exact ⟨h.stands, List.Subset.trans (Stmt.nodes_branches hst) h.inside, around, hp.branches hst, hsub,
    fun node hnode => hall node (Stmt.nodes_branches hst hnode)⟩

theorem slots {node : NodeRef} (h : m.Ready p s env st) (hnode : node ∈ st.slots) {i : ScopeId}
    (hi : (s.table.attributes node.mark.id).scope = some i) : i ∈ m.scopes env := by
  obtain ⟨around, hp, -, hall⟩ := h.placed
  obtain ⟨n, hn, hmark⟩ := Stmt.slots_mark hnode
  exact hall n hn i ((hp.slots hnode).1 i hi) (hmark ▸ hi)

theorem block {b : Block} {scope : ScopeId} (h : m.Ready p s env (.block b))
    (hscope : (s.table.attributes b.mark.id).scope = some scope) (hk : m.FramesKept m')
    (he : m.Entered scope m') (hst : st ∈ b.statements) :
    m'.Ready p s (m.frames.size :: env) st := by
  obtain ⟨mark, body⟩ := b
  obtain ⟨around, ⟨i, hi, hfresh, hbody⟩, hsub, hall⟩ := h.placed
  have heq : i = scope := Option.some.inj (hi.1.symm.trans hscope)
  subst heq
  obtain ⟨hstands, hscopes⟩ := h.stands.enter hk he fun hmem => hfresh (hsub hmem)
  refine ⟨hstands, List.Subset.trans (Stmt.nodes_statements hst) h.inside, i :: around,
    Analysis.Placed.of_mem hbody hst, ?_, ?_⟩
  · rw [hscopes]
    exact List.cons_subset_cons i hsub
  · intro node hnode j hj hscope
    rw [hscopes]
    rcases List.mem_cons.mp hj with rfl | hj
    · exact List.mem_cons_self
    · exact List.mem_cons_of_mem _ (hall node (Stmt.nodes_statements hst hnode) j hj hscope)

theorem loop {mark : Mark} {condition : Expr} {body : Stmt}
    (h : m.Ready p s env (.loop mark condition body)) :
    Covers s.table m env condition.nodes ∧ m.Ready p s env body := by
  obtain ⟨around, ⟨ho, hp⟩, hsub, hall⟩ := h.placed
  constructor
  · intro node hnode i hi
    exact hall node (by simp [Stmt.nodes, hnode]) i ((ho node hnode).1 i hi) hi
  · have hnodes : body.nodes ⊆ (Stmt.loop mark condition body).nodes := fun node hnode => by
      simp [Stmt.nodes, hnode]
    exact ⟨h.stands, List.Subset.trans hnodes h.inside, around, hp, hsub, fun node hnode =>
      hall node (hnodes hnode)⟩

theorem rule {d : RuleDecl} {scope : ScopeId} (h : m.Ready p s env (.rule d))
    (hscope : (s.table.attributes d.mark.id).bodyScope = some scope) :
    m.Houses s.table ⟨d, scope, env⟩ := by
  obtain ⟨around, ⟨-, b, hb, hfresh, hbody⟩, hsub, hall⟩ := h.placed
  have heq : b = scope := Option.some.inj (hb.symm.trans hscope)
  subst heq
  refine ⟨h.stands, fun hmem => hfresh (hsub hmem), fun node hnode i hi => ?_⟩
  rcases List.mem_cons.mp ((hbody node hnode).1 i hi) with rfl | hmem
  · exact List.mem_cons_self
  · refine List.mem_cons_of_mem _ (hall node ?_ i hmem hi)
    simp [Stmt.nodes, RuleDecl.nodes, hnode]

end Machine.Ready

theorem Machine.Stands.rootOnly {m : Machine} {env : Env} (h : m.Stands env) :
    m.Stands [0] ∧ m.scopes [0] = [0] := by
  have hscopes : m.scopes [0] = [0] := congrArg ([·]) h.root
  have hmem : 0 < m.frames.size := h.there 0 (List.mem_of_getLast? h.last)
  refine ⟨⟨fun f hf => ?_, rfl, h.root, ?_⟩, hscopes⟩
  · rw [List.mem_singleton.mp hf]
    exact hmem
  · simp [hscopes]

/-- The body of a function is ready under the root frame, wherever the function was declared. -/
theorem Program.Analysed.call {p : Program} {s : Analysis.State} (hp : p.Analysed s)
    {d : FunctionDecl} (hd : d ∈ p.functions) {b : ScopeId}
    (hb : (s.table.attributes d.mark.id).bodyScope = some b) {m m' : Machine} {env : Env}
    (h : m.Stands env) (hk : m.FramesKept m') (he : m.Entered b m') :
    m'.Ready p s (callEnv env m.frames.size) (.block d.body) := by
  have hnodes : .statement (.function d) ∈ Stmt.nodesOfList p.statements := by
    simpa [Program.nodes] using Program.mem_functions.mp hd
  obtain ⟨hinside, around, hroot, hplaced⟩ :=
    Analysis.placedAll_function p.statements hp.placed hnodes
  have hfree := hp.free d hd b hb
  rw [Stmt.nodes_function] at hinside
  have hbodyInside : (Stmt.block d.body).nodes ⊆ p.nodes :=
    fun node hnode => List.mem_cons_of_mem _ (hinside (List.mem_append_right _ hnode))
  obtain ⟨mark, name, params, returnType, ⟨block, body⟩⟩ := d
  obtain ⟨-, b', hb', -, hfresh, houter, hbody⟩ := hplaced
  have heq : b' = b := Option.some.inj (hb'.symm.trans hb)
  subst heq
  obtain ⟨hstands, hscopes⟩ := h.rootOnly
  have hb₀ : b' ∉ m.scopes [0] := by
    rw [hscopes]
    exact fun hmem => hfresh (hroot hmem)
  obtain ⟨hstands', hscopes'⟩ := hstands.enter hk he hb₀
  rw [hscopes] at hscopes'
  have henv : callEnv env m.frames.size = [m.frames.size, 0] := by simp [callEnv, h.last]
  rw [henv]
  refine ⟨hstands', hbodyInside, b' :: around, hbody, ?_, fun node hnode i hi hscope => ?_⟩
  · rw [hscopes']
    exact List.cons_subset_cons b' hroot
  · rw [hscopes']
    rcases List.mem_cons.mp hi with rfl | hi
    · exact List.mem_cons_self
    · have hi₀ := hfree node hnode i hscope (houter ▸ hi)
      rw [hp.root] at hi₀
      cases hi₀
      exact List.mem_cons_of_mem _ List.mem_cons_self

section Serve

variable {p : Program} {s : Analysis.State} {ctx : Context} {sub sub' : Evaluator}

/-- All requests for which the chain is ready are met within the contract. -/
structure Program.Serves (p : Program) (s : Analysis.State) (sub sub' : Evaluator) : Prop where
  expression : ∀ m env e, m.Stands env → Machine.Covers s.table m env e.nodes →
    (p.frameContract s.table).Honours m (sub.expression env e) (sub'.expression env e)
      fun _ v => p.Owns v
  statement : ∀ m env st, m.Ready p s env st →
    (p.frameContract s.table).Honours m (sub.statement env st) (sub'.statement env st)
      fun _ done => done.All p.Owns
  rounds : ∀ m env condition body, m.Stands env →
    Machine.Covers s.table m env condition.nodes → m.LoopReady p s env body →
    (p.frameContract s.table).Honours m (sub.rounds env condition body)
      (sub'.rounds env condition body) fun _ done => done.All p.Owns
  resolve : ∀ m env depth goal, m.Stands env → Machine.Covers s.table m env goal.nodes →
    (p.frameContract s.table).Honours m (sub.resolve env depth goal) (sub'.resolve env depth goal)
      fun _ _ => True

theorem Machine.Stands.sees {m : Machine} {env : Env} {node : NodeRef} (h : m.Stands env)
    (hscope : ∀ i, (ctx.table.attributes node.mark.id).scope = some i → i ∈ m.scopes env) :
    (p.frameContract ctx.table).Sees m env ctx node := by
  intro m' hk
  unfold Contract.Locates
  split
  · rintro _ ⟨⟩
    rfl
  · rename_i i hi
    refine ⟨fun hnone => ?_, fun _ _ => trivial⟩
    have hmem := hscope i hi
    rw [← Machine.FramesKept.scopes hk h.there] at hmem
    obtain ⟨f, hf, heq⟩ := List.mem_map.mp hmem
    have := List.find?_eq_none.mp hnone f hf
    simp [heq] at this

namespace Program.Serves

variable {m : Machine} {env : Env}

theorem exhausted : p.Serves s Eval.exhausted Eval.exhausted where
  expression _ _ _ _ _ := .exhaust (by rintro _ ⟨⟩) trivial
  statement _ _ _ _ := .exhaust (by rintro _ ⟨⟩) trivial
  rounds _ _ _ _ _ _ _ := .exhaust (by rintro _ ⟨⟩) trivial
  resolve _ _ _ _ _ _ := .exhaust (by rintro _ ⟨⟩) trivial

theorem expression_step (hp : p.Analysed s) (htable : ctx.table = s.table)
    (h : p.Serves s sub sub') {e : Expr} (henv : m.Stands env)
    (hcovers : Machine.Covers s.table m env e.nodes) :
    (p.frameContract s.table).Honours m (Eval.expression ctx sub env e)
      (Eval.expression ctx sub' env e) fun _ v => p.Owns v := by
  have ha := p.frameContract_admits s.table
  have hparts : ∀ e' ∈ e.parts, (p.frameContract s.table).Evaluates p.Owns sub sub' m env e' :=
    fun e' he' m' hk => h.expression m' env e' (henv.mono hk)
      ((hcovers.subset (Expr.nodes_parts he')).mono henv hk)
  refine Contract.Honours.expression ha (.same p.owns_void) hparts (fun e' he' _ => hparts e' he')
    (fun goal hgoal m' hk => ?_) (fun r hr => ?_) (fun r hr => ⟨fun _ => ?_, fun d hd => ?_⟩)
    (fun mark name _ _ => ?_) ?_
  · exact h.resolve m' env 0 goal (henv.mono hk)
      ((hcovers.subset (Expr.nodes_goal hgoal)).mono henv hk)
  · rw [← htable]
    refine henv.sees fun i hi => hcovers r.node (Expr.slot_mem_nodes hr) i ?_
    rw [← htable]
    exact hi
  · rintro _ ⟨⟩
    rfl
  · rintro _ ⟨⟩
    rw [htable] at hd
    exact hp.sound.decl _ d hd
  · rintro _ ⟨⟩
    rfl
  · intro _ d hd m' args hk hargs
    refine Contract.Honours.callFunction ha (.same p.owns_void) hargs (fun _ => ?_)
      fun scope m₁ hscope hk₁ hentered => ?_
    · rintro _ ⟨⟩
      rfl
    · rw [htable] at hscope
      exact h.statement m₁ _ _ (hp.call (hd d rfl) hscope (henv.mono hk) hk₁ hentered)

theorem resolve_step (h : p.Serves s sub sub') {depth : Nat}
    {goal : Goal} (henv : m.Stands env) (hcovers : Machine.Covers s.table m env goal.nodes) :
    (p.frameContract s.table).Honours m (Eval.resolve ctx sub env depth goal)
      (Eval.resolve ctx sub' env depth goal) fun _ _ => True := by
  have ha := p.frameContract_admits s.table
  refine Contract.Honours.resolve ha (fun g hg m' hk => ?_) ?_
  · exact h.resolve m' env depth g (henv.mono hk)
      ((hcovers.subset (Goal.nodes_parts hg)).mono henv hk)
  · rintro _ mark functor arguments rfl
    have hargs : ∀ e ∈ arguments,
        (p.frameContract s.table).Evaluates p.Owns sub sub' m env e := fun e he m' hk =>
      h.expression m' env e (henv.mono hk)
        ((hcovers.subset (Goal.nodes_arguments he)).mono henv hk)
    refine Contract.Honours.resolveCall hargs fun scope f r _ _ hrule => ?_
    intro hm
    have hhouse : m.Houses s.table r := hm.rules f functor r hrule
    refine Contract.Honours.resolveRule ha hargs (fun m₁ m₂ hk₁ hk₂ hentered => ?_) hm
    have hhouse₁ := hhouse.mono hk₁
    obtain ⟨hstands, hscopes⟩ := hhouse₁.stands.enter hk₂ hentered hhouse₁.fresh
    refine h.resolve m₂ _ _ _ hstands fun node hnode i hi => ?_
    rw [hscopes]
    exact hhouse₁.body node hnode i hi

theorem statement_step (h : p.Serves s sub sub') (htable : ctx.table = s.table) {st : Stmt}
    (hready : m.Ready p s env st) :
    (p.frameContract s.table).Honours m (Eval.statement ctx sub env st)
      (Eval.statement ctx sub' env st) fun _ done => done.All p.Owns := by
  have ha := p.frameContract_admits s.table
  have hsees : ∀ node ∈ st.slots, (p.frameContract s.table).Sees m env ctx node := by
    intro node hnode
    rw [← htable]
    refine hready.stands.sees fun i hi => hready.slots hnode ?_
    rw [← htable]
    exact hi
  have hparts : ∀ e ∈ st.parts, (p.frameContract s.table).Evaluates p.Owns sub sub' m env e :=
    fun e he m' hk => h.expression m' env e (hready.stands.mono hk)
      ((hready.parts he).mono hready.stands hk)
  refine Contract.Honours.statement ha (.same p.owns_void) hparts (fun e he _ => hparts e he) hsees
    (fun st' hst' m' hk => ?_) ?_ ?_ (fun b _ _ => ?_) ?_ ?_ ?_
  · exact h.statement m' env st' ((hready.branches hst').mono hk)
  · rintro d rfl _ ⟨⟩
    exact Program.mem_functions.mpr (hready.inside (Stmt.self_mem_nodes _))
  · rintro d rfl
    refine Contract.Honours.declareRule ha (fun _ => ?_) (hsees _ List.mem_cons_self).now ?_
    · rintro _ ⟨⟩
      rfl
    · intro scope f store hscope _ hset hm
      rw [htable] at hscope
      exact hm.setStore (hm.rules.setRule (hready.rule hscope) hset)
  · rintro _ ⟨⟩
    rfl
  · rintro b rfl scope hscope m' hk hentered st' hst' m'' hk'
    rw [htable] at hscope
    exact h.statement m'' _ st' ((hready.block hscope hk hentered hst').mono hk')
  · rintro mark condition b rfl scope hscope m' hk hentered m'' hk'
    rw [htable] at hscope
    obtain ⟨hcondition, hbody⟩ := hready.loop
    have hk'' := Machine.FramesKept.trans hk hk'
    exact h.rounds m'' env condition _ (hready.stands.mono hk'')
      (hcondition.mono hready.stands hk'') fun st' hst' =>
        (hbody.block hscope hk hentered hst').mono hk'
  · rintro mark condition body rfl _ m' hk
    obtain ⟨hcondition, hbody⟩ := hready.loop
    exact h.rounds m' env condition _ (hready.stands.mono hk) (hcondition.mono hready.stands hk)
      (hbody.mono hk)

theorem rounds_step (h : p.Serves s sub sub') {condition : Expr} {body : LoopBody}
    (henv : m.Stands env) (hcovers : Machine.Covers s.table m env condition.nodes)
    (hbody : m.LoopReady p s env body) :
    (p.frameContract s.table).Honours m (Eval.rounds sub env condition body)
      (Eval.rounds sub' env condition body) fun _ done => done.All p.Owns := by
  have ha := p.frameContract_admits s.table
  have hlater : ∀ m', m.FramesKept m' → m'.LoopReady p s env body := by
    intro m' hk
    cases body with
    | block inner b => exact fun st hst => (hbody st hst).mono hk
    | statement st => exact Machine.Ready.mono hbody hk
  refine Contract.Honours.rounds ha (fun m' hk => ?_) (fun m' hk => ?_) fun m' hk => ?_
  · exact h.expression m' env condition (henv.mono hk) (hcovers.mono henv hk)
  · refine Contract.Honours.round ?_ ?_
    · rintro inner b rfl st hst m'' hk'
      exact h.statement m'' inner st ((hlater m' hk st hst).mono hk')
    · rintro st rfl m'' hk'
      exact h.statement m'' env st (Machine.Ready.mono (hlater m' hk) hk')
  · exact h.rounds m' env condition body (henv.mono hk) (hcovers.mono henv hk) (hlater m' hk)

end Program.Serves

end Serve

namespace Moment

/-- The chain of frames in which a request is met. -/
def env : Moment → Env
  | .expression env _ _ | .statement env _ _ | .rounds env _ _ _ | .goal env _ _ _ => env

/-- The nodes whose scope is consulted to meet a request: to read or to write a binding, to add to a
store or to search one. The nodes of the requests it makes in turn are not among them. -/
def consults : Moment → List Mark
  | .expression _ e _ => e.slot?.toList.map (·.mark)
  | .statement _ st _ => st.slots.map (·.mark)
  | .goal _ _ (.call mark _ _) _ => [mark]
  | _ => []

/-- The chain has no two frames of one scope, and each scope that is consulted has a frame on the
chain. -/
structure Framed (t : Table) (moment : Moment) (m : Machine) : Prop where
  nodup : (moment.env.map fun f => (m.frame f).scope).Nodup
  consulted : ∀ mark ∈ moment.consults, ∀ i, (t.attributes mark.id).scope = some i →
    ∃ f ∈ moment.env, f < m.frames.size ∧ (m.frame f).scope = i

variable {t : Table} {m m' : Machine}

theorem framed_of_stands (moment : Moment) (h : m.Stands moment.env)
    (hscopes : ∀ mark ∈ moment.consults, ∀ i, (t.attributes mark.id).scope = some i →
      i ∈ m.scopes moment.env) (hk : m.FramesKept m') : moment.Framed t m' := by
  have h' := h.mono hk
  refine ⟨h'.nodup, fun mark hmark i hi => ?_⟩
  have hmem := hscopes mark hmark i hi
  rw [← hk.scopes h.there] at hmem
  obtain ⟨f, hf, hfi⟩ := List.mem_map.mp hmem
  exact ⟨f, hf, h'.there f hf, hfi⟩

end Moment

theorem Program.Analysed.serves {p : Program} {s : Analysis.State} (hp : p.Analysed s)
    {ctx : Context} (htable : ctx.table = s.table) {o : Observer}
    (ho : ∀ level moment m, moment.Framed s.table m → o level moment m = none) (fuel level : Nat) :
    p.Serves s (observed ctx o fuel level) (evaluator ctx fuel) := by
  induction fuel generalizing level with
  | zero => exact .exhausted
  | succ fuel ih =>
    have hstep := ih (level + 1)
    refine ⟨fun m env e henv hcovers => ?_, fun m env st hready => ?_,
      fun m env condition body henv hcovers hbody => ?_, fun m env depth goal henv hcovers => ?_⟩
    · refine (hstep.expression_step hp htable henv hcovers).unnoticed fun a m' hk =>
        ho _ _ _ (Moment.framed_of_stands (.expression env e a) henv ?_ hk)
      intro mark hmark i hi
      obtain ⟨r, hr, rfl⟩ := List.mem_map.mp hmark
      exact hcovers r.node (Expr.slot_mem_nodes (Option.mem_toList.mp hr)) i hi
    · refine (hstep.statement_step htable hready).unnoticed fun a m' hk =>
        ho _ _ _ (Moment.framed_of_stands (.statement env st a) hready.stands ?_ hk)
      intro mark hmark i hi
      obtain ⟨node, hnode, rfl⟩ := List.mem_map.mp hmark
      exact hready.slots hnode hi
    · exact (hstep.rounds_step henv hcovers hbody).unnoticed fun a m' hk => ho _ _ _
        (Moment.framed_of_stands (.rounds env condition body a) henv (by simp [Moment.consults]) hk)
    · refine (hstep.resolve_step henv hcovers).unnoticed fun a m' hk =>
        ho _ _ _ (Moment.framed_of_stands (.goal env depth goal a) henv ?_ hk)
      intro mark hmark i hi
      cases goal with
      | call mark' functor arguments =>
        rw [List.mem_singleton.mp hmark] at hi
        exact hcovers _ (Goal.self_mem_nodes _) i hi
      | _ => simp [Moment.consults] at hmark

theorem Program.Analysed.ready {p : Program} {s : Analysis.State} (hp : p.Analysed s) {st : Stmt}
    (hst : st ∈ p.statements) : (({} : Machine).push 0).2.Ready p s [0] st := by
  have hscopes : (({} : Machine).push 0).2.scopes [0] = [0] := rfl
  refine ⟨⟨by simp, rfl, rfl, by simp [hscopes]⟩, ?_, [0], Analysis.Placed.of_mem hp.placed hst,
    by simp [hscopes], fun node _ i hi _ => by simpa [hscopes] using hi⟩
  exact fun node hnode => List.mem_cons_of_mem _ (Stmt.mem_nodesOfList.mpr ⟨st, hst, hnode⟩)

theorem Machine.fitting_empty (p : Program) (t : Table) : Machine.Fitting p t {} :=
  ⟨.empty, .empty⟩

theorem Program.Analysed.compares {p : Program} {s : Analysis.State} (hp : p.Analysed s)
    (maxDepth : Nat) {o : Observer}
    (ho : ∀ level moment m, moment.Framed s.table m → o level moment m = none) (fuel : Nat) :
    (p.frameContract s.table).Compares (p.watchedRun ⟨s.table, maxDepth⟩ o fuel)
      (p.run ⟨s.table, maxDepth⟩ fuel) := by
  refine Contract.Compares.of_statements (W := p.Owns) (p.frameContract_admits _)
    (Machine.fitting_empty p _) ?_ ?_
  · rintro - _ ⟨⟩
    rfl
  · intro scope hscope st hst m' hk
    have h₀ : scope = 0 := (Option.some.inj (hp.root.symm.trans hscope)).symm
    subst h₀
    exact (hp.serves rfl ho fuel 0).statement m' [0] st ((hp.ready hst).mono hk)

theorem Program.analysed {p : Program} (hp : p.Numbered) (hfree : p.ClosureFree (analyze p).1) :
    ∃ s, (analyze p).1 = s.table ∧ p.Analysed s := by
  have htable : (analyze p).1 = (Analysis.program p {}).2.table := by
    unfold analyze StateT.run
    with_reducible rfl
  rw [htable] at hfree
  obtain ⟨hsound, -, hroot, hplaced⟩ := Analysis.Does.program hp (Analysis.sound_empty _)
  exact ⟨_, htable, hsound, hroot, hplaced, hfree⟩

/-- If no function of a program uses anything of the scopes between its own and the outermost one,
frames and scopes match in all runs of the program: no fault ever tells of a missing frame, the
chain never has two frames of one scope, and each scope that is consulted has a frame on it. -/
theorem Program.frames_match_scopes {p : Program} (hp : p.Numbered)
    (hfree : p.ClosureFree (analyze p).1) (maxDepth : Nat) :
    (∀ fuel f, (p.run ⟨(analyze p).1, maxDepth⟩ fuel).outcome = .error (.fault f) →
      f.cause.lacksFrame = false) ∧
    p.Always ⟨(analyze p).1, maxDepth⟩ (Moment.Framed (analyze p).1) := by
  obtain ⟨s, htable, ha⟩ := Program.analysed hp hfree
  rw [htable]
  refine ⟨fun fuel f hf => ?_, fun o ho fuel => ?_⟩
  · exact (ha.compares maxDepth (o := .silent) (fun _ _ _ _ => rfl) fuel).blame _ hf f rfl
  · rcases (ha.compares maxDepth ho fuel).stopped with heq | ⟨-, -, halt, -, hstop⟩
    · exact heq
    · exact hstop.elim

/-- A rule of the outermost scope is replaced in a block by one that asks for a variable of the
block, and a function queries it when the block has ended. -/
def Program.outliving : Program where
  mark := ⟨0, {}⟩
  statements := [
    .fact ⟨⟨1, {}⟩, "q", [.int ⟨2, {}⟩ 1]⟩,
    .rule ⟨⟨3, {}⟩, "r", [⟨⟨4, {}⟩, "x", .simple ⟨5, {}⟩ "Int"⟩],
      .call ⟨6, {}⟩ "q" [.reference ⟨⟨7, {}⟩, "x"⟩]⟩,
    .function ⟨⟨8, {}⟩, "f", [⟨⟨9, {}⟩, "n", .simple ⟨10, {}⟩ "Int"⟩], none, ⟨⟨11, {}⟩,
      [.ret ⟨12, {}⟩ (some (.logic (.call ⟨13, {}⟩ "r" [.reference ⟨⟨14, {}⟩, "n"⟩])))]⟩⟩,
    .block ⟨⟨15, {}⟩, [
      .var ⟨⟨16, {}⟩, "y", none, some (.int ⟨17, {}⟩ 1)⟩,
      .rule ⟨⟨18, {}⟩, "r", [⟨⟨19, {}⟩, "x", .simple ⟨20, {}⟩ "Int"⟩],
        .call ⟨21, {}⟩ "q" [.reference ⟨⟨22, {}⟩, "y"⟩]⟩]⟩,
    .ret ⟨23, {}⟩ (some (.call ⟨24, {}⟩ (.reference ⟨⟨25, {}⟩, "f"⟩) [.int ⟨26, {}⟩ 2]))]

theorem Program.outliving_framed :
    outliving.Numbered ∧ (analyze outliving).2.isEmpty = true ∧
    outliving.ClosureFree (analyze outliving).1 ∧
    (∀ fuel f, (outliving.run ⟨(analyze outliving).1, 1⟩ fuel).outcome = .error (.fault f) →
      f.cause.lacksFrame = false) ∧
    outliving.Always ⟨(analyze outliving).1, 1⟩ (Moment.Framed (analyze outliving).1) := by
  have hnumbered : outliving.Numbered := by
    unfold Numbered Distinct
    decide
  have hfree : outliving.ClosureFree (analyze outliving).1 := by decide +kernel
  exact ⟨hnumbered, by decide +kernel, hfree, frames_match_scopes hnumbered hfree 1⟩

end LogicScript
