import LogicScript.Proofs.Completeness
import LogicScript.Proofs.Consistency

/-! Which frames an evaluation changes.

A block puts a new frame on the chain, and a call begins a chain of its own under the root frame. A
rule is asked under the frames it was declared in, which may be no longer active. Where no rule is
declared in a block, these are the root frame alone, so whatever is bound or stored goes to a frame
of the chain or to one that was not there before. -/
namespace LogicScript

open Eval

def Stmt.Ruleless (st : Stmt) : Prop := ∀ node ∈ st.nodes, node.rule?.isNone

def Node.block? : Node → Option Block
  | .statement (.block b) => some b
  | _ => none

/-- The blocks of a program, the bodies of its functions among them. -/
def Program.blocks (p : Program) : List Block := p.nodes.filterMap Node.block?

/-- No rule is declared inside a block. -/
def Program.RulesOutermost (p : Program) : Prop := ∀ b ∈ p.blocks, (Stmt.block b).Ruleless

instance (p : Program) : Decidable p.RulesOutermost :=
  inferInstanceAs (Decidable (∀ b ∈ p.blocks, ∀ node ∈ (Stmt.block b).nodes, node.rule?.isNone))

namespace Stmt.Ruleless

variable {st st' : Stmt}

theorem mono (h : st.Ruleless) (hsub : st'.nodes ⊆ st.nodes) : st'.Ruleless :=
  fun node hnode => h node (hsub hnode)

theorem not_rule {d : RuleDecl} (h : (Stmt.rule d).Ruleless) : False := by
  have hnone := h _ (Stmt.self_mem_nodes _)
  simp [Node.rule?] at hnone

end Stmt.Ruleless

theorem Program.RulesOutermost.block {p : Program} (h : p.RulesOutermost) {b : Block}
    (hb : .statement (.block b) ∈ p.nodes) : (Stmt.block b).Ruleless :=
  h b (List.mem_filterMap.mpr ⟨_, hb, rfl⟩)

namespace Machine

/-- No frame is gone, and only those on the chain may differ. -/
def SameOutside (env : Env) (m m' : Machine) : Prop :=
  m.frames.size ≤ m'.frames.size ∧ ∀ f < m.frames.size, f ∉ env → m'.frame f = m.frame f

theorem frame_define_ne {m : Machine} {f i : FrameId} {name : String} {v : Value} (h : f ≠ i) :
    (m.define f name v).frame i = m.frame i := by
  rw [define, frame_updateFrame, if_neg fun hi => h hi.1]

theorem frame_setStore_ne {m : Machine} {f i : FrameId} {store : PredicateStore} (h : f ≠ i) :
    (m.setStore f store).frame i = m.frame i := by
  rw [setStore, frame_updateFrame, if_neg fun hi => h hi.1]

end Machine

/-- Functions come from the program, and rules were declared under the root frame alone. -/
structure Program.Rooted (p : Program) (m : Machine) : Prop where
  rules : m.AllRules fun _ r => r.env = [0]
  values : m.AllValues p.Owns

theorem Program.rooted_empty (p : Program) : p.Rooted {} := ⟨.empty, .empty⟩

/-- Some frames may be changed, and new ones added to them; the others stay as they are. -/
def Program.localContract (p : Program) (own : FrameId → Prop) : Contract where
  Inv m := p.Rooted m ∧ ∀ f, m.frames.size ≤ f → own f
  Leads m m' := m.frames.size ≤ m'.frames.size ∧ (∀ f, ¬ own f → m'.frame f = m.frame f) ∧
    (p.Rooted m → p.Rooted m')
  Own := own
  Blame _ := True
  Stop _ := False
  refl _ := ⟨Nat.le_refl _, fun _ _ => rfl, id⟩
  trans h h' := ⟨Nat.le_trans h.1 h'.1, fun f hf => (h'.2.1 f hf).trans (h.2.1 f hf),
    h'.2.2 ∘ h.2.2⟩
  blame_attach _ := trivial
  stop_attach h := h

namespace Program

variable {p : Program} {own : FrameId → Prop} {m m' : Machine} {env : Env} {ctx : Context}
  {sub sub' : Evaluator}

theorem localContract_goes (hm : (p.localContract own).Inv m)
    (hsize : m.frames.size ≤ m'.frames.size) (hframes : ∀ f, ¬ own f → m'.frame f = m.frame f)
    (hrooted : p.Rooted m') :
    (p.localContract own).Inv m' ∧ (p.localContract own).Leads m m' :=
  ⟨⟨hrooted, fun f hf => hm.2 f (Nat.le_trans hsize hf)⟩, hsize, hframes, fun _ => hrooted⟩

theorem localContract_setStore (hm : (p.localContract own).Inv m) {f : FrameId} (hf : own f)
    {store : PredicateStore} (hrules : (m.setStore f store).AllRules fun _ r => r.env = [0]) :
    (p.localContract own).Inv (m.setStore f store) ∧
      (p.localContract own).Leads m (m.setStore f store) :=
  localContract_goes hm (by simp)
    (fun _ hi => Machine.frame_setStore_ne fun heq => hi (heq ▸ hf)) ⟨hrules, hm.1.values.setStore⟩

theorem localContract_admits (p : Program) (own : FrameId → Prop) :
    (p.localContract own).Admits p.Owns := by
  have hframes : ∀ {m m' : Machine}, (p.localContract own).Inv m → m'.frames = m.frames →
      m'.AllValues p.Owns →
      (p.localContract own).Inv m' ∧ (p.localContract own).Leads m m' := by
    intro m m' h hframes hvalues
    have hframe := Machine.frame_of_frames hframes
    exact localContract_goes h (Nat.le_of_eq (by rw [hframes])) (fun f _ => hframe f)
      ⟨h.1.rules.of_eq fun f => by rw [hframe], hvalues⟩
  exact {
    faults := fun _ _ _ => trivial
    plain := by
      rintro v hv d rfl
      exact absurd rfl hv.1
    bound := fun h => h.1.values.bound _ _ _
    held := fun h => h.1.values.held _ _
    fresh := fun h => h.2 _ (Nat.le_refl _)
    define := fun hf h hv => localContract_goes h (by simp)
      (fun _ hi => Machine.frame_define_ne fun heq => hi (heq ▸ hf))
      ⟨h.1.rules.of_eq fun i => by simp, h.1.values.define hv⟩
    push := fun {m scope} h => by
      refine localContract_goes h (by simp) (fun f hf => ?_)
        ⟨h.1.rules.of_eq fun f => Machine.predicates_push .., h.1.values.push⟩
      rw [Machine.frame_push, if_neg]
      rintro rfl
      exact hf (h.2 _ (Nat.le_refl _))
    alloc := fun h ho => hframes h rfl (h.1.values.alloc ho)
    setElement := fun h hv =>
      hframes h rfl (h.1.values.updateObject fun object ho => ho.setElement hv _)
    setField := fun h hv _ =>
      hframes h rfl (h.1.values.updateObject fun object ho => ho.setField hv _)
    print := fun h => hframes h rfl ⟨h.1.values.bound, h.1.values.held⟩
    log := fun h => hframes h rfl ⟨h.1.values.bound, h.1.values.held⟩
    addFact := fun hf h _ hs => localContract_setStore h hf (h.1.rules.addFact hs) }

/-- What an evaluation within the contract leaves behind, if the frames on a chain may be changed. -/
theorem sameOutside_of_honours {α : Type} {x y : Eval α} {Q : Machine → α → Prop}
    (h : (p.localContract fun f => f ∈ env ∨ m.frames.size ≤ f).Honours m x y Q)
    (hm : p.Rooted m) : m.SameOutside env (after (y m)) := by
  obtain ⟨hends, -⟩ := h ⟨hm, fun f hf => .inr hf⟩
  obtain ⟨hsize, hframes, -⟩ := hends.leads
  refine ⟨hsize, fun f hf hnot => hframes f ?_⟩
  rintro (hmem | hle)
  · exact hnot hmem
  · omega

/-- A chain ends in the root frame, and its frames may be changed. -/
structure Chain (own : FrameId → Prop) (env : Env) : Prop where
  owned : ∀ f ∈ env, own f
  last : env.getLast? = some 0

namespace Chain

theorem root (h : Chain own env) : own 0 := h.owned 0 (List.mem_of_getLast? h.last)

theorem cons (h : Chain own env) {f : FrameId} (hf : own f) : Chain own (f :: env) := by
  refine ⟨List.forall_mem_cons.mpr ⟨hf, h.owned⟩, ?_⟩
  rw [List.getLast?_cons, h.last]
  rfl

theorem single (h : own 0) : Chain own [0] := ⟨by simpa using h, rfl⟩

/-- Wherever a function is called, its body is executed under the root frame. -/
theorem call (h : Chain own env) {f : FrameId} (hf : own f) : Chain own (callEnv env f) := by
  have henv : callEnv env f = [f, 0] := by simp [callEnv, h.last]
  rw [henv]
  exact (single h.root).cons hf

theorem sees (h : Chain own env) (node : NodeRef) : (p.localContract own).Sees m env ctx node := by
  intro m' _
  unfold Contract.Locates
  split
  · trivial
  · exact ⟨fun _ => ⟨trivial, fun _ => ⟨trivial, trivial⟩⟩,
      fun f hf => h.owned f (List.mem_of_find?_eq_some hf)⟩

end Chain

/-- A statement of the program stands outside of all blocks, or declares no rule. -/
def Suits (p : Program) (env : Env) (st : Stmt) : Prop :=
  st.nodes ⊆ p.nodes ∧ (env = [0] ∨ st.Ruleless)

def SuitsLoop (p : Program) (own : FrameId → Prop) (env : Env) : LoopBody → Prop
  | .block inner b => Chain own inner ∧ ∀ st ∈ b.statements, p.Suits inner st
  | .statement st => p.Suits env st

theorem Suits.mono {st st' : Stmt} (h : p.Suits env st) (hsub : st'.nodes ⊆ st.nodes) :
    p.Suits env st' :=
  ⟨List.Subset.trans hsub h.1, h.2.imp_right fun hr => hr.mono hsub⟩

theorem RulesOutermost.suits (hp : p.RulesOutermost) {b : Block} (hb : (Stmt.block b).nodes ⊆ p.nodes)
    {st : Stmt} (hst : st ∈ b.statements) (env : Env) : p.Suits env st := by
  have hsub := Stmt.nodes_statements hst
  exact ⟨List.Subset.trans hsub hb, .inr ((hp.block (hb (Stmt.self_mem_nodes _))).mono hsub)⟩

/-- All requests under a chain whose frames may be changed are met within the contract. -/
structure Confines (p : Program) (own : FrameId → Prop) (sub sub' : Evaluator) : Prop where
  expression : ∀ m env e, Chain own env →
    (p.localContract own).Honours m (sub.expression env e) (sub'.expression env e)
      fun _ v => p.Owns v
  statement : ∀ m env st, Chain own env → p.Suits env st →
    (p.localContract own).Honours m (sub.statement env st) (sub'.statement env st)
      fun _ done => done.All p.Owns
  rounds : ∀ m env condition body, Chain own env → p.SuitsLoop own env body →
    (p.localContract own).Honours m (sub.rounds env condition body) (sub'.rounds env condition body)
      fun _ done => done.All p.Owns
  resolve : ∀ m env depth goal, Chain own env →
    (p.localContract own).Honours m (sub.resolve env depth goal) (sub'.resolve env depth goal)
      fun _ _ => True

/-- What is asked of a program and its table. -/
structure Confined (p : Program) (t : Table) : Prop where
  numbered : p.Numbered
  outermost : p.RulesOutermost
  known : ∀ id d, (t.attributes id).decl = some (.function d) → d ∈ p.functions

namespace Confines

theorem exhausted : p.Confines own Eval.exhausted Eval.exhausted where
  expression _ _ _ _ := .exhaust trivial trivial
  statement _ _ _ _ _ := .exhaust trivial trivial
  rounds _ _ _ _ _ _ := .exhaust trivial trivial
  resolve _ _ _ _ _ := .exhaust trivial trivial

/-- A call changes the root frame and new frames only, so the frames on the chain of the call need
not be among those that may be changed. -/
theorem callFunction (hp : p.Confined ctx.table) (h : p.Confines own sub sub') (hown : own 0)
    {d : FunctionDecl} (hd : d ∈ p.functions) {args : List Value} (hargs : ∀ v ∈ args, p.Owns v)
    (hlast : env.getLast? = some 0) :
    (p.localContract own).Honours m (callFunction ctx sub env d args)
      (callFunction ctx sub' env d args) fun _ v => p.Owns v := by
  intro hm
  have henv : callEnv env m.frames.size = callEnv [0] m.frames.size := by simp [callEnv, hlast]
  refine Contract.Honours.callFunction (p.localContract_admits own) (.same p.owns_void) hargs
    (fun _ => trivial) (fun scope m' _ _ _ => ?_) hm
  have hbody : (Stmt.block d.body).nodes ⊆ p.nodes := by
    refine List.Subset.trans ?_ (nodes_inside hp.numbered (mem_functions.mp hd) rfl)
    rw [Node.nodes, Stmt.nodes_function]
    exact List.subset_append_right ..
  rw [henv]
  exact h.statement m' _ _ ((Chain.single hown).call (hm.2 _ (Nat.le_refl _)))
    ⟨hbody, .inr (hp.outermost.block (hbody (Stmt.self_mem_nodes _)))⟩

theorem call (hp : p.Confined ctx.table) (h : p.Confines own sub sub') (hown : own 0)
    {callee : Value} (hcallee : p.Owns callee) {args : List Value} (hargs : ∀ v ∈ args, p.Owns v)
    (hlast : env.getLast? = some 0) :
    (p.localContract own).Honours m (call ctx sub env callee args) (call ctx sub' env callee args)
      fun _ v => p.Owns v := by
  refine Contract.Honours.call (p.localContract_admits own) (.same p.owns_void) hargs ?_
  intro d hd m' args' _ hargs'
  exact callFunction hp h hown (hcallee d hd) hargs' hlast

theorem expression_step (hp : p.Confined ctx.table) (h : p.Confines own sub sub')
    (henv : Chain own env) (e : Expr) :
    (p.localContract own).Honours m (Eval.expression ctx sub env e)
      (Eval.expression ctx sub' env e) fun _ v => p.Owns v := by
  refine Contract.Honours.expression (p.localContract_admits own) (.same p.owns_void)
    (fun e' _ m' _ => h.expression m' env e' henv) (fun e' _ _ m' _ => h.expression m' env e' henv)
    (fun goal _ m' _ => h.resolve m' env 0 goal henv) (fun r _ => henv.sees _)
    (fun r _ => ⟨fun _ => trivial, fun d hd => ?_⟩) (fun _ _ _ _ => trivial) ?_
  · rintro _ ⟨⟩
    exact hp.known _ d hd
  · intro _ d hd m' args _ hargs
    exact callFunction hp h henv.root (hd d rfl) hargs henv.last

theorem statement_step (hp : p.Confined ctx.table) (h : p.Confines own sub sub')
    (henv : Chain own env) {st : Stmt} (hst : p.Suits env st) :
    (p.localContract own).Honours m (Eval.statement ctx sub env st)
      (Eval.statement ctx sub' env st) fun _ done => done.All p.Owns := by
  intro hm
  have hnew : ∀ f, m.frames.size = f → Chain own (f :: env) := fun f hf =>
    henv.cons (hm.2 f (Nat.le_of_eq hf))
  refine Contract.Honours.statement (p.localContract_admits own) (.same p.owns_void)
    (fun e _ m' _ => h.expression m' env e henv) (fun e _ _ m' _ => h.expression m' env e henv)
    (fun node _ => henv.sees node)
    (fun st' hst' m' _ => h.statement m' env st' henv (hst.mono (Stmt.nodes_branches hst')))
    ?_ ?_ (fun _ _ _ => trivial) ?_ ?_ ?_ hm
  · rintro d rfl _ ⟨⟩
    exact mem_functions.mpr (hst.1 (Stmt.self_mem_nodes _))
  · rintro d rfl
    refine Contract.Honours.declareRule (p.localContract_admits own) (fun _ => trivial)
      (henv.sees _).now fun scope f store _ hf hset hm => ?_
    have hroot : env = [0] := hst.2.resolve_right fun hr => hr.not_rule
    exact localContract_setStore hm hf (hm.1.rules.setRule hroot hset)
  · rintro b rfl scope _ m' _ _ st' hst' m'' _
    exact h.statement m'' _ st' (hnew _ rfl) (hp.outermost.suits hst.1 hst' _)
  · rintro mark condition b rfl scope _ m' _ _ m'' _
    have hb : (Stmt.block b).nodes ⊆ p.nodes := fun n hn =>
      hst.1 (List.mem_cons_of_mem _ (List.mem_append_right _ hn))
    exact h.rounds m'' env condition _ henv
      ⟨hnew _ rfl, fun st' hst' => hp.outermost.suits hb hst' _⟩
  · rintro mark condition body rfl _ m' _
    refine h.rounds m' env condition _ henv (hst.mono fun n hn => ?_)
    exact List.mem_cons_of_mem _ (List.mem_append_right _ hn)

theorem rounds_step (h : p.Confines own sub sub') (henv : Chain own env) {condition : Expr}
    {body : LoopBody} (hbody : p.SuitsLoop own env body) :
    (p.localContract own).Honours m (Eval.rounds sub env condition body)
      (Eval.rounds sub' env condition body) fun _ done => done.All p.Owns := by
  refine Contract.Honours.rounds (p.localContract_admits own)
    (fun m' _ => h.expression m' env condition henv) (fun m' _ => ?_)
    fun m' _ => h.rounds m' env condition body henv hbody
  refine Contract.Honours.round ?_ ?_
  · rintro inner b rfl st hst m'' _
    exact h.statement m'' inner st hbody.1 (hbody.2 st hst)
  · rintro st rfl m'' _
    exact h.statement m'' env st henv hbody

/-- A rule was declared under the root frame, which is on every chain. -/
theorem resolve_step (h : p.Confines own sub sub') (henv : Chain own env) (depth : Nat)
    (goal : Goal) :
    (p.localContract own).Honours m (Eval.resolve ctx sub env depth goal)
      (Eval.resolve ctx sub' env depth goal) fun _ _ => True := by
  have ha := p.localContract_admits own
  refine Contract.Honours.resolve ha (fun g _ m' _ => h.resolve m' env depth g henv) ?_
  rintro _ mark functor arguments rfl
  have hargs : ∀ e ∈ arguments, (p.localContract own).Evaluates p.Owns sub sub' m env e :=
    fun e _ m' _ => h.expression m' env e henv
  refine Contract.Honours.resolveCall hargs fun scope f r _ _ hrule hm => ?_
  refine Contract.Honours.resolveRule ha hargs (fun m₁ m₂ h₁ _ _ => ?_) hm
  have hroot : r.env = [0] := hm.1.rules f functor r hrule
  rw [hroot]
  exact h.resolve m₂ _ _ _ ((Chain.single henv.root).cons (hm.2 _ h₁.1))

theorem step (hp : p.Confined ctx.table) (h : p.Confines own sub sub') :
    p.Confines own (Eval.step ctx sub) (Eval.step ctx sub') where
  expression _ _ e henv := h.expression_step hp henv e
  statement _ _ _ henv hst := h.statement_step hp henv hst
  rounds _ _ _ _ henv hbody := h.rounds_step henv hbody
  resolve _ _ depth goal henv := h.resolve_step henv depth goal

theorem evaluator (hp : p.Confined ctx.table) (fuel : Nat) :
    p.Confines own (Eval.evaluator ctx fuel) (Eval.evaluator ctx fuel) := by
  induction fuel with
  | zero => exact .exhausted
  | succ fuel ih => exact ih.step hp

end Confines

end Program

namespace Moment

/-- The frames that a request is met in. The block of a loop has had its frame since the first
round. -/
def reach : Moment → List FrameId
  | .rounds env _ (.block inner _) _ => inner ++ env
  | moment => moment.env

/-- The machine that a request leaves behind if it is met from a machine on. -/
def leaves (sub : Evaluator) (m : Machine) : Moment → Machine
  | .expression env e _ => after (sub.expression env e m)
  | .statement env st _ => after (sub.statement env st m)
  | .rounds env condition body _ => after (sub.rounds env condition body m)
  | .goal env depth question _ => after (sub.resolve env depth question m)

/-- From a machine on, the request changes frames of its chain only. So does any expression that is
evaluated on a chain to the root frame, and any statement of the program where it may stand; and a
call, when its arguments have values, changes the root frame only. -/
structure Local (p : Program) (ctx : Context) (moment : Moment) (m : Machine) : Prop where
  last : moment.env.getLast? = some 0
  request : ∀ fuel, m.SameOutside moment.reach (moment.leaves (evaluator ctx fuel) m)
  expression : ∀ fuel env e, env.getLast? = some 0 →
    m.SameOutside env (after ((evaluator ctx fuel).expression env e m))
  statement : ∀ fuel env st, env.getLast? = some 0 → p.Suits env st →
    m.SameOutside env (after ((evaluator ctx fuel).statement env st m))
  call : ∀ fuel env callee arguments f args m₁ m₂, env.getLast? = some 0 →
    (evaluator ctx fuel).expression env callee m = .ok f m₁ →
    expressions (evaluator ctx fuel) env arguments m₁ = .ok args m₂ →
    m₂.SameOutside [0] (after (Eval.call ctx (evaluator ctx fuel) env f args m₂))

/-- What a request has to be like for its place in the program. -/
def Suits (p : Program) : Moment → Prop
  | .statement env st _ => p.Suits env st
  | .rounds env _ body _ => p.SuitsLoop (fun _ => True) env body
  | _ => True

variable {p : Program} {ctx : Context} {m : Machine} {moment : Moment}

theorem leaves_sameOutside (moment : Moment) (hp : p.Confined ctx.table) (hm : p.Rooted m)
    (hlast : moment.env.getLast? = some 0) (hsuits : moment.Suits p) (fuel : Nat) :
    m.SameOutside moment.reach (moment.leaves (evaluator ctx fuel) m) := by
  let own (f : FrameId) : Prop := f ∈ moment.reach ∨ m.frames.size ≤ f
  have hsub : p.Confines own (evaluator ctx fuel) (evaluator ctx fuel) := .evaluator hp fuel
  cases moment with
  | expression env e value =>
    exact Program.sameOutside_of_honours (hsub.expression m env e ⟨fun f hf => .inl hf, hlast⟩) hm
  | statement env st done =>
    exact Program.sameOutside_of_honours
      (hsub.statement m env st ⟨fun f hf => .inl hf, hlast⟩ hsuits) hm
  | goal env depth question answer =>
    exact Program.sameOutside_of_honours
      (hsub.resolve m env depth question ⟨fun f hf => .inl hf, hlast⟩) hm
  | rounds env condition body done =>
    cases body with
    | statement st =>
      exact Program.sameOutside_of_honours
        (hsub.rounds m env condition (.statement st) ⟨fun f hf => .inl hf, hlast⟩ hsuits) hm
    | block inner b =>
      have henv : Program.Chain own env := ⟨fun f hf => .inl (List.mem_append_right _ hf), hlast⟩
      have hinner : Program.Chain own inner :=
        ⟨fun f hf => .inl (List.mem_append_left _ hf), hsuits.1.last⟩
      exact Program.sameOutside_of_honours
        (hsub.rounds m env condition (.block inner b) henv ⟨hinner, hsuits.2⟩) hm

/-- Functions that are called are those of the program, whatever expression they come from. -/
theorem call_sameOutside (hp : p.Confined ctx.table) (hm : p.Rooted m) {fuel : Nat} {env : Env}
    {callee : Expr} {arguments : List Expr} {f : Value} {args : List Value} {m₁ m₂ : Machine}
    (hlast : env.getLast? = some 0)
    (hcallee : (evaluator ctx fuel).expression env callee m = .ok f m₁)
    (hargs : expressions (evaluator ctx fuel) env arguments m₁ = .ok args m₂) :
    m₂.SameOutside [0] (after (Eval.call ctx (evaluator ctx fuel) env f args m₂)) := by
  have hall : p.Confines (fun _ => True) (evaluator ctx fuel) (evaluator ctx fuel) :=
    .evaluator hp fuel
  have henv : Program.Chain (fun _ => True) env := ⟨fun _ _ => trivial, hlast⟩
  obtain ⟨⟨h₁, -, hf⟩, -⟩ := hcallee ▸ hall.expression m env callee henv ⟨hm, fun _ _ => trivial⟩
  obtain ⟨⟨h₂, -, hvalues⟩, -⟩ := hargs ▸ Contract.Honours.expressions
    (fun e _ m' _ => hall.expression m' env e henv) h₁
  exact Program.sameOutside_of_honours
    (Program.Confines.call hp (.evaluator hp fuel) (.inl List.mem_cons_self) hf hvalues hlast) h₂.1

theorem local_of_rooted (hp : p.Confined ctx.table) (hm : p.Rooted m)
    (hlast : moment.env.getLast? = some 0) (hsuits : moment.Suits p) : moment.Local p ctx m where
  last := hlast
  request := leaves_sameOutside moment hp hm hlast hsuits
  expression fuel env e h :=
    leaves_sameOutside (.expression env e none) hp hm h trivial fuel
  statement fuel env st h hst :=
    leaves_sameOutside (.statement env st none) hp hm h hst fuel
  call _ _ _ _ _ _ _ _ h hcallee hargs := call_sameOutside hp hm h hcallee hargs

end Moment

namespace Program

variable {p : Program} {ctx : Context}

theorem Confined.confines (hp : p.Confined ctx.table) {o : Observer}
    (ho : ∀ level moment m, moment.Local p ctx m → o level moment m = none) (fuel level : Nat) :
    p.Confines (fun _ => True) (observed ctx o fuel level) (evaluator ctx fuel) := by
  induction fuel generalizing level with
  | zero => exact .exhausted
  | succ fuel ih =>
    have hstep := (ih (level + 1)).step hp
    have hnone : ∀ moment m m', moment.env.getLast? = some 0 → moment.Suits p →
        (p.localContract fun _ => True).Inv m → (p.localContract fun _ => True).Leads m m' →
        o level moment m' = none := fun moment m m' hlast hsuits hm hl =>
      ho _ _ _ (Moment.local_of_rooted hp (hl.2.2 hm.1) hlast hsuits)
    refine ⟨fun m env e henv hm => ?_, fun m env st henv hst hm => ?_,
      fun m env condition body henv hbody hm => ?_, fun m env depth goal henv hm => ?_⟩
    · exact (hstep.expression m env e henv).unnoticed
        (fun a m' => hnone (.expression env e a) m m' henv.last trivial hm) hm
    · exact (hstep.statement m env st henv hst).unnoticed
        (fun a m' => hnone (.statement env st a) m m' henv.last hst hm) hm
    · exact (hstep.rounds m env condition body henv hbody).unnoticed
        (fun a m' => hnone (.rounds env condition body a) m m' henv.last hbody hm) hm
    · exact (hstep.resolve m env depth goal henv).unnoticed
        (fun a m' => hnone (.goal env depth goal a) m m' henv.last trivial hm) hm

/-- If no rule of a program is declared in a block, evaluation changes frames of its own chain only,
in every state that the runs of the program pass through and however the evaluation ends; a call
changes no frame but the root frame. -/
theorem changes_stay_on_chain {p : Program} (hp : p.Numbered) (hrules : p.RulesOutermost)
    (maxDepth : Nat) :
    p.Always ⟨(analyze p).1, maxDepth⟩ (Moment.Local p ⟨(analyze p).1, maxDepth⟩) := by
  have hc : p.Confined (analyze p).1 := ⟨hp, hrules, fun _ _ h => functions_known hp h⟩
  generalize (analyze p).1 = t at hc
  intro o ho fuel
  have hcompares : (p.localContract fun _ => True).Compares (p.watchedRun ⟨t, maxDepth⟩ o fuel)
      (p.run ⟨t, maxDepth⟩ fuel) := by
    refine .of_statements (W := p.Owns) (p.localContract_admits _) ⟨p.rooted_empty, fun _ _ => trivial⟩
      (fun _ => trivial) fun scope _ st hst m' _ => ?_
    refine (hc.confines ho fuel 0).statement m' [0] st ⟨fun _ _ => trivial, rfl⟩ ⟨?_, .inl rfl⟩
    exact fun n hn => List.mem_cons_of_mem _ (Stmt.mem_nodesOfList.mpr ⟨st, hst, hn⟩)
  rcases hcompares.stopped with heq | ⟨-, -, halt, -, hstop⟩
  · exact heq
  · exact hstop.elim

/-- A function assigns to a variable of the program and queries a rule; it is called in a block that
has a variable of the same name. -/
def masking : Program where
  mark := ⟨0, {}⟩
  statements := [
    .var ⟨⟨1, {}⟩, "x", none, some (.int ⟨2, {}⟩ 1)⟩,
    .fact ⟨⟨3, {}⟩, "q", [.int ⟨4, {}⟩ 2]⟩,
    .rule ⟨⟨5, {}⟩, "r", [⟨⟨6, {}⟩, "n", .simple ⟨7, {}⟩ "Int"⟩],
      .call ⟨8, {}⟩ "q" [.reference ⟨⟨9, {}⟩, "n"⟩]⟩,
    .function ⟨⟨10, {}⟩, "f", [⟨⟨11, {}⟩, "n", .simple ⟨12, {}⟩ "Int"⟩], none, ⟨⟨13, {}⟩, [
      .expr ⟨14, {}⟩ (.assign ⟨15, {}⟩ (.reference ⟨⟨16, {}⟩, "x"⟩) (.reference ⟨⟨17, {}⟩, "n"⟩)),
      .ret ⟨18, {}⟩ (some (.logic (.call ⟨19, {}⟩ "r" [.reference ⟨⟨20, {}⟩, "n"⟩])))]⟩⟩,
    .block ⟨⟨21, {}⟩, [.var ⟨⟨22, {}⟩, "x", none,
      some (.call ⟨23, {}⟩ (.reference ⟨⟨24, {}⟩, "f"⟩) [.int ⟨25, {}⟩ 2])⟩]⟩,
    .ret ⟨26, {}⟩ (some (.reference ⟨⟨27, {}⟩, "x"⟩))]

theorem masking_local :
    masking.Numbered ∧ masking.RulesOutermost ∧
    (masking.run ⟨(analyze masking).1, 1⟩ 12).outcome.isOk = true ∧
    masking.Always ⟨(analyze masking).1, 1⟩
      (Moment.Local masking ⟨(analyze masking).1, 1⟩) := by
  have hnumbered : masking.Numbered := by
    unfold Numbered Distinct
    decide
  have hrules : masking.RulesOutermost := by decide +kernel
  exact ⟨hnumbered, hrules, by decide +kernel, changes_stay_on_chain hnumbered hrules 1⟩

end Program

end LogicScript
