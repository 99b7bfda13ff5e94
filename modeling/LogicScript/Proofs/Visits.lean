import LogicScript.Proofs.Filing

/-! The visits of the analysis.

The analysis walks a program and comes to each node once, in a scope and in a state. What it did
before a visit and what it does after it concerns other nodes: so what is filed for a node is what
its own visit filed, and each declaration that a visit found stays. -/
namespace LogicScript

namespace Analysis

/-- The analysis comes to a node, in a scope and in a state. -/
structure Visit where
  node : Node
  scope : ScopeId
  state : State

theorem after_bind {α β : Type} (s : State) (x : Pass α) (f : α → Pass β) :
    s.after (x >>= f) = (s.after x).after (f (x s).1) := rfl

/-- The pass over the node. -/
def Visit.pass (v : Visit) : Pass Unit :=
  match v.node with
  | .expression e => discard (expression e v.scope)
  | .statement st => statement st v.scope
  | .parameter p => discard (parameter p v.scope)
  | _ => pure ()

def Visit.after (v : Visit) : State := v.state.after v.pass

/-- The type of a function is filed, and the scope of its parameters is opened. -/
def openFunction (m : Mark) (params : List Parameter) (returnType : Option TypeExpr)
    (scope : ScopeId) : Pass ScopeId := do
  setType m (← functionType m params returnType scope)
  let body ← openScope ⟨.functionDeclaration, m⟩ (some scope)
  setBodyScope m body
  return body

theorem signature_eq (m : Mark) (params : List Parameter) (returnType : Option TypeExpr)
    (scope : ScopeId) :
    signature m params returnType scope = (openFunction m params returnType scope >>= fun body =>
      discard (parameters params body) >>= fun _ => pure body) := rfl

/-- The scope of a rule's parameters is opened. -/
def openRule (d : RuleDecl) (scope : ScopeId) : Pass ScopeId := do
  let body ← openScope ⟨.ruleDeclaration, d.mark⟩ (some scope)
  setBodyScope d.mark body
  return body

theorem rule_eq (d : RuleDecl) (scope : ScopeId) :
    rule d scope = (openRule d scope >>= fun body => parameters d.parameters body >>= fun params =>
      predicate (.rule d.mark d.functor) d.mark d.functor params scope >>= fun _ =>
        discard (logic d.body body)) := rfl

end Analysis

open Analysis

mutual

/-- The visits to the nodes of an expression. -/
def Expr.visits : Expr → ScopeId → State → List Visit
  | e@(.array _ elements), i, s => ⟨.expression e, i, s⟩ :: Expr.visitsOfList elements i s
  | e@(.field _ stem _), i, s => ⟨.expression e, i, s⟩ :: stem.visits i s
  | e@(.index _ array index), i, s => ⟨.expression e, i, s⟩ ::
    (array.visits i s ++ index.visits i (s.after (expression array i)))
  | e@(.call _ callee arguments), i, s => ⟨.expression e, i, s⟩ ::
    (callee.visits i s ++ Expr.visitsOfList arguments i (s.after (expression callee i)))
  | e@(.not _ operand), i, s => ⟨.expression e, i, s⟩ :: operand.visits i s
  | e@(.binary _ _ left right), i, s => ⟨.expression e, i, s⟩ ::
    (left.visits i s ++ right.visits i (s.after (expression left i)))
  | e@(.assign _ target value), i, s => ⟨.expression e, i, s⟩ ::
    (value.visits i s ++ target.visits i (s.after (expression value i)))
  | e@(.paren _ inner), i, s => ⟨.expression e, i, s⟩ :: inner.visits i s
  | e@(.query _ target question), i, s => ⟨.expression e, i, s⟩ :: ⟨target.node, i, s⟩ ::
    question.visits i (s.after (reference target i))
  | .logic goal, i, s => goal.visits i s
  | e, i, s => [⟨.expression e, i, s⟩]

def Expr.visitsOfList : List Expr → ScopeId → State → List Visit
  | [], _, _ => []
  | e :: es, i, s => e.visits i s ++ Expr.visitsOfList es i (s.after (expression e i))

def Goal.visits : Goal → ScopeId → State → List Visit
  | g@(.atom _ _), i, s => [⟨.expression (.logic g), i, s⟩]
  | g@(.call _ _ arguments), i, s => ⟨.expression (.logic g), i, s⟩ ::
    Expr.visitsOfList arguments i s
  | g@(.paren _ inner), i, s => ⟨.expression (.logic g), i, s⟩ :: inner.visits i s
  | g@(.not _ operand), i, s => ⟨.expression (.logic g), i, s⟩ :: operand.visits i s
  | g@(.binary _ _ left right), i, s => ⟨.expression (.logic g), i, s⟩ ::
    (left.visits i s ++ right.visits i (s.after (logic left i)))

end

def Parameter.visitsOfList : List Parameter → ScopeId → State → List Visit
  | [], _, _ => []
  | p :: ps, i, s => ⟨.parameter p, i, s⟩ :: visitsOfList ps i (s.after (parameter p i))

def VarDecl.visits (d : VarDecl) (i : ScopeId) (s : State) : List Visit :=
  ⟨.statement (.var d), i, s⟩ :: (d.initializer.map fun e => e.visits i s).getD []

def FactDecl.visits (d : FactDecl) (i : ScopeId) (s : State) : List Visit :=
  ⟨.statement (.fact d), i, s⟩ :: Expr.visitsOfList d.arguments i s

def RuleDecl.visits (d : RuleDecl) (i : ScopeId) (s : State) : List Visit :=
  let body := (openRule d i s).1
  let s₁ := s.after (openRule d i)
  let params := (Analysis.parameters d.parameters body s₁).1
  let s₂ := s₁.after (Analysis.parameters d.parameters body)
  ⟨.statement (.rule d), i, s⟩ :: (Parameter.visitsOfList d.parameters body s₁ ++
    d.body.visits body (s₂.after (predicate (.rule d.mark d.functor) d.mark d.functor params i)))

mutual

/-- The visits to the nodes of a statement. -/
def Stmt.visits : Stmt → ScopeId → State → List Visit
  | st@(.block ⟨m, body⟩), i, s =>
    let inner := (openBlock m i s).1
    let s₁ := s.after (openBlock m i)
    ⟨.statement st, i, s⟩ :: Stmt.visitsOfList body inner (s₁.after (hoist body inner))
  | st@(.function ⟨m, _, params, returnType, ⟨bodyMark, body⟩⟩), i, s =>
    let outer := (openFunction m params returnType i s).1
    let s₁ := s.after (openFunction m params returnType i)
    let s₂ := s₁.after (Analysis.parameters params outer)
    let inner := (openBlock bodyMark outer s₂).1
    let s₃ := s₂.after (openBlock bodyMark outer)
    ⟨.statement st, i, s⟩ :: (Parameter.visitsOfList params outer s₁ ++
      ⟨.statement (.block ⟨bodyMark, body⟩), outer, s₂⟩ ::
        Stmt.visitsOfList body inner (s₃.after (hoist body inner)))
  | st@(.cond _ condition yes none), i, s => ⟨.statement st, i, s⟩ ::
    (condition.visits i s ++ yes.visits i (s.after (expression condition i)))
  | st@(.cond _ condition yes (some no)), i, s =>
    let s₁ := s.after (expression condition i)
    ⟨.statement st, i, s⟩ ::
      (condition.visits i s ++ yes.visits i s₁ ++ no.visits i (s₁.after (statement yes i)))
  | st@(.loop _ condition body), i, s => ⟨.statement st, i, s⟩ ::
    (condition.visits i s ++ body.visits i (s.after (expression condition i)))
  | .var d, i, s => d.visits i s
  | .fact d, i, s => d.visits i s
  | .rule d, i, s => d.visits i s
  | st@(.expr _ e), i, s => ⟨.statement st, i, s⟩ :: e.visits i s
  | st@(.ret _ (some e)), i, s => ⟨.statement st, i, s⟩ :: e.visits i s
  | st@(.unify _ left right), i, s => ⟨.statement st, i, s⟩ ::
    (left.goal.visits i s ++ right.goal.visits i (s.after (logic left.goal i)))
  | st, i, s => [⟨.statement st, i, s⟩]

def Stmt.visitsOfList : List Stmt → ScopeId → State → List Visit
  | [], _, _ => []
  | st :: rest, i, s => st.visits i s ++ Stmt.visitsOfList rest i (s.after (statement st i))

end

namespace Program

/-- The outermost scope is opened, with the builtins and the functions and structs of the program
declared in it. -/
def opening (p : Program) : Pass ScopeId := do
  let root ← openScope ⟨.root, p.mark⟩ none
  setScope p.mark root
  enterAll root builtins
  hoist p.statements root
  return root

theorem program_eq (p : Program) :
    Analysis.program p = (p.opening >>= fun root => Analysis.statements p.statements root >>= fun _ =>
      get >>= fun s => settleAll s.pending) := by
  unfold Analysis.program opening
  simp only [bind_assoc, pure_bind]

theorem root_eq (p : Program) : (p.opening {}).1 = 0 := by
  have hroot : Ends {} (openScope ⟨.root, p.mark⟩ none) fun _ root => root = 0 := rfl
  have hany : ∀ {s : State} {x : Pass Unit}, Ends s x fun _ _ => True := trivial
  refine (hroot.bind ?_ : Ends {} p.opening fun _ root => root = 0)
  rintro s root rfl
  exact hany.bind fun _ _ _ => hany.bind fun _ _ _ => hany.bind fun _ _ _ => rfl

/-- The state in which the walk over the statements begins. -/
def opened (p : Program) : State := ({} : State).after p.opening

/-- The state in which the walk ends. Then the postponed names are resolved. -/
def walked (p : Program) : State := p.opened.after (Analysis.statements p.statements 0)

/-- The visits to the nodes of a program. -/
def visits (p : Program) : List Visit := Stmt.visitsOfList p.statements 0 p.opened

theorem after_program (p : Program) :
    ({} : State).after (Analysis.program p) = p.walked.after (settleAll p.walked.pending) := by
  rw [program_eq, after_bind, after_bind, root_eq]
  rfl

end Program

namespace Analysis

namespace Share

/-- A share lies inside another one. -/
def Within (I K : Share) : Prop := ∀ duty id, I duty id → K duty id

def or (I J : Share) : Share := fun duty id => I duty id ∨ J duty id

theorem Within.refl (I : Share) : I.Within I := fun _ _ h => h

theorem Within.trans {I J K : Share} (h : I.Within J) (h' : J.Within K) : I.Within K :=
  fun duty id hi => h' duty id (h duty id hi)

theorem Apart.symm {I J : Share} (h : I.Apart J) : J.Apart I := fun duty id hj hi => h duty id hi hj

theorem Apart.mono {I J K L : Share} (h : K.Apart L) (hI : I.Within K) (hJ : J.Within L) :
    I.Apart J := fun duty id hi hj => h duty id (hI duty id hi) (hJ duty id hj)

theorem Apart.or_left {I J K : Share} (h : I.Apart K) (h' : J.Apart K) : (I.or J).Apart K := by
  rintro duty id (hi | hj)
  · exact h duty id hi
  · exact h' duty id hj

theorem Apart.or_right {I J K : Share} (h : K.Apart I) (h' : K.Apart J) : K.Apart (I.or J) :=
  (h.symm.or_left h'.symm).symm

theorem Within.or {I J K : Share} (h : I.Within K) (h' : J.Within K) : (I.or J).Within K := by
  rintro duty id (hi | hj)
  · exact h duty id hi
  · exact h' duty id hj

theorem apart_of_distinct {I J : Share} {l l' : List Node} (h : Distinct (l ++ l'))
    (hI : ∀ duty id, I duty id → Marks l id) (hJ : ∀ duty id, J duty id → Marks l' id) :
    I.Apart J := fun duty id hi hj => h.apart id (hI duty id hi) (hJ duty id hj)

end Share

/-- What the pass over a statement itself does: the scope of a function or struct is filed ahead of
the pass. -/
def stmtShare (st : Stmt) : Share := fun duty id =>
  files st.nodes duty id ∧ ¬ (duty = .scope ∧ isHoisted st = true ∧ id = st.ref.mark.id)

/-- What the pass over a node does. -/
def nodeShare : Node → Share
  | .statement st => stmtShare st
  | n => files n.nodes

theorem stmtShare_eq {st : Stmt} (h : isHoisted st = false) : stmtShare st = files st.nodes := by
  funext duty id
  simp [stmtShare, h]

theorem nodeShare_within (n : Node) : (nodeShare n).Within (files n.nodes) := by
  intro duty id h
  cases n with
  | statement st => exact h.1
  | _ => exact h

theorem nodeShare_bodyScope (n : Node) : nodeShare n .bodyScope n.mark.id := by
  have hself : files n.nodes .bodyScope n.mark.id :=
    files_self n.self_mem_nodes (by unfold duties; split <;> first | rfl | contradiction)
  cases n with
  | statement st => exact ⟨hself, by rintro ⟨⟨⟩, -⟩⟩
  | _ => exact hself

/-- A visit on the way from one state to another, with what was done before it and what is done
after it. -/
structure Between (all : List Node) (K I J : Share) (s s' : State) (v : Visit) : Prop where
  before : Step all I s v.state
  after : Kept all J v.after s'
  past : I.Apart (nodeShare v.node)
  future : (nodeShare v.node).Apart J
  apart : I.Apart J
  past_within : I.Within K
  future_within : J.Within K
  within : (nodeShare v.node).Within K
  there : v.scope < v.state.table.scopes.all.size
  known : v.state.Known all
  inside : v.node.nodes ⊆ all
  distinct : Distinct v.node.nodes

/-- The second visit is inside the first one, or begins with what that one left. -/
def Trails (all : List Node) (v w : Visit) : Prop :=
  Marks v.node.nodes w.node.mark.id ∨ Kept all (fun _ _ => True) v.after w.state

/-- A pass with a share makes some visits, in an order. -/
structure Trace (all : List Node) (K : Share) (s s' : State) (vs : List Visit) : Prop where
  step : Step all K s s'
  met : ∀ v ∈ vs, ∃ I J, Between all K I J s s' v
  ordered : vs.Pairwise (Trails all)

namespace Trace

variable {all : List Node} {I K L M : Share} {s s' s'' : State} {vs ws : List Visit}

theorem of_step (h : Step all K s s') : Trace all K s s' [] := ⟨h, by simp, .nil⟩

theorem mono (h : Trace all K s s' vs) (hK : K.Within M) : Trace all M s s' vs := by
  refine ⟨h.step.mono hK, fun v hv => ?_, h.ordered⟩
  obtain ⟨I, J, hb⟩ := h.met v hv
  exact ⟨I, J, { hb with
    past_within := hb.past_within.trans hK
    future_within := hb.future_within.trans hK
    within := hb.within.trans hK }⟩

theorem append (h : Trace all K s s' vs) (h' : Trace all L s' s'' ws) (hapart : K.Apart L)
    (hK : K.Within M) (hL : L.Within M) : Trace all M s s'' (vs ++ ws) := by
  have hfollows : ∀ v ∈ vs, ∀ w ∈ ws, Trails all v w := by
    intro v hv w hw
    obtain ⟨_, _, hv⟩ := h.met v hv
    obtain ⟨_, _, hw⟩ := h'.met w hw
    exact .inr ((hv.after.mono fun _ _ _ => trivial).trans
      (hw.before.toKept.mono fun _ _ _ => trivial))
  refine ⟨h.step.trans h'.step hK hL hapart, fun v hv => ?_,
    List.pairwise_append.mpr ⟨h.ordered, h'.ordered, hfollows⟩⟩
  rcases List.mem_append.mp hv with hv | hv
  · obtain ⟨I, J, hb⟩ := h.met v hv
    refine ⟨I, J.or L, hb.before, ?_, hb.past, ?_, ?_, hb.past_within.trans hK, ?_,
      hb.within.trans hK, hb.there, hb.known, hb.inside, hb.distinct⟩
    · exact (hb.after.mono fun _ _ hj => .inl hj).trans (h'.step.toKept.mono fun _ _ hl => .inr hl)
    · exact hb.future.or_right (hapart.mono hb.within (.refl L))
    · exact hb.apart.or_right (hapart.mono hb.past_within (.refl L))
    · exact (hb.future_within.trans hK).or hL
  · obtain ⟨I, J, hb⟩ := h'.met v hv
    refine ⟨K.or I, J, ?_, hb.after, ?_, hb.future, ?_, ?_, hb.future_within.trans hL,
      hb.within.trans hL, hb.there, hb.known, hb.inside, hb.distinct⟩
    · exact h.step.trans hb.before (fun _ _ hk => .inl hk) (fun _ _ hi => .inr hi)
        (hapart.mono (.refl K) hb.past_within)
    · exact (hapart.mono (.refl K) hb.within).or_left hb.past
    · exact (hapart.mono (.refl K) hb.future_within).or_left hb.apart
    · exact hK.or (hb.past_within.trans hL)

theorem join (h : Trace all K s s' vs) (h' : Trace all L s' s'' ws) (hapart : K.Apart L) :
    Trace all (K.or L) s s'' (vs ++ ws) :=
  h.append h' hapart (fun _ _ hk => .inl hk) fun _ _ hl => .inr hl

theorem visit {v : Visit} (h : Trace all K s v.after vs) (hs : v.state = s)
    (hK : nodeShare v.node = K) (hthere : v.scope < s.table.scopes.all.size) (hknown : s.Known all)
    (hinside : v.node.nodes ⊆ all) (hdistinct : Distinct v.node.nodes) :
    Trace all K s v.after (v :: vs) := by
  have hinner : ∀ w ∈ vs, Trails all v w := by
    intro w hw
    obtain ⟨_, _, hb⟩ := h.met w hw
    exact .inl (nodeShare_within _ _ _ (hK ▸ hb.within _ _ (nodeShare_bodyScope w.node))).marks
  refine ⟨h.step, fun w hw => ?_, List.pairwise_cons.mpr ⟨hinner, h.ordered⟩⟩
  rcases List.mem_cons.mp hw with rfl | hw
  · subst hs
    exact ⟨fun _ _ => False, fun _ _ => False, .refl _, .refl _, fun _ _ h => h.elim,
      fun _ _ _ h => h.elim, fun _ _ h => h.elim, fun _ _ h => h.elim, fun _ _ h => h.elim,
      hK ▸ .refl _, hthere, hknown, hinside, hdistinct⟩
  · exact h.met w hw

end Trace

/-- All is set for a pass over some nodes in a scope. -/
structure Ready (all nodes : List Node) (i : ScopeId) (s : State) : Prop where
  distinct : Distinct nodes
  inside : nodes ⊆ all
  known : s.Known all
  there : i < s.table.scopes.all.size

namespace Ready

variable {all nodes nodes' : List Node} {i j : ScopeId} {s s' : State} {I : Share}

theorem sublist (h : Ready all nodes i s) (hsub : nodes'.Sublist nodes) : Ready all nodes' i s :=
  ⟨h.distinct.sublist (hsub.map _), fun _ hn => h.inside (hsub.subset hn), h.known, h.there⟩

theorem next (h : Ready all nodes i s) (hstep : Step all I s s') : Ready all nodes i s' :=
  ⟨h.distinct, h.inside, hstep.known h.known, Nat.lt_of_lt_of_le h.there hstep.size⟩

theorem at_scope (h : Ready all nodes i s) (hj : j < s.table.scopes.all.size) :
    Ready all nodes j s := ⟨h.distinct, h.inside, h.known, hj⟩

end Ready

/-- The type of the elements of an array. -/
def elementOf : Ty → Ty
  | .array element => element
  | _ => .void

/-- The type of the result of a function. -/
def resultOf : Ty → Ty
  | .function _ result => result
  | _ => .void

theorem expression_index (m : Mark) (array index : Expr) (i : ScopeId) :
    expression (.index m array index) i = typed m (expression array i >>= fun t =>
      discard (expression index i) >>= fun _ => pure (elementOf t)) := by
  conv => lhs; rw [expression]
  congr
  funext t
  cases t <;> rfl

theorem expression_call (m : Mark) (callee : Expr) (arguments : List Expr) (i : ScopeId) :
    expression (.call m callee arguments) i = typed m (expression callee i >>= fun t =>
      discard (expressions arguments i) >>= fun _ => pure (resultOf t)) := by
  conv => lhs; rw [expression]
  congr
  funext t
  cases t <;> rfl

namespace Trace

variable {all l l' : List Node} {s s' s'' : State} {vs ws : List Visit} {i : ScopeId} {n : Node}

theorem sequence (hd : Distinct (l ++ l')) (h : Trace all (files l) s s' vs)
    (h' : Trace all (files l') s' s'' ws) : Trace all (files (l ++ l')) s s'' (vs ++ ws) :=
  h.append h' (Share.apart_of_distinct hd (fun _ _ h => h.marks) fun _ _ h => h.marks)
    (fun _ _ h => files_append.mpr (.inl h)) fun _ _ h => files_append.mpr (.inr h)

/-- The pass over the nodes below a node, and then what is done for the node itself. -/
theorem own (h : Ready all (n :: l) i s) (hn : n.nodes = n :: l) (hshare : nodeShare n = files n.nodes)
    (hbelow : Trace all (files l) s s' vs) (hown : Step all (files [n]) s' s'')
    (hafter : Visit.after ⟨n, i, s⟩ = s'') : Trace all (files (n :: l)) s s'' (⟨n, i, s⟩ :: vs) := by
  have hd : Distinct ([n] ++ l) := h.distinct
  have hapart : (files l).Apart (files [n]) :=
    (Share.apart_of_distinct hd (fun _ _ h => h.marks) fun _ _ h => h.marks).symm
  have hpass : Trace all (files (n :: l)) s s'' vs := by
    have := hbelow.append (of_step hown) hapart (M := files (n :: l))
      (fun _ _ h => files_cons.mpr (.inr h)) fun _ _ h => files_cons.mpr (.inl h)
    rwa [List.append_nil] at this
  subst hafter
  refine visit hpass rfl ?_ h.there h.known ?_ ?_
  · rw [hshare, hn]
  · rw [hn]
    exact h.inside
  · rw [hn]
    exact h.distinct

theorem sequence_swap (hd : Distinct (l ++ l')) (h : Trace all (files l') s s' vs)
    (h' : Trace all (files l) s' s'' ws) : Trace all (files (l ++ l')) s s'' (vs ++ ws) :=
  h.append h' (Share.apart_of_distinct hd (fun _ _ h => h.marks) fun _ _ h => h.marks).symm
    (fun _ _ h => files_append.mpr (.inr h)) fun _ _ h => files_append.mpr (.inl h)

theorem nil (s : State) : Trace all (files []) s s [] := of_step (.refl s)

theorem typed {e : Expr} {t : Ty} (h : Ready all (.expression e :: l) i s)
    (hn : e.nodes = .expression e :: l) (hbelow : Trace all (files l) s s' vs)
    (hafter : s.after (expression e i) = s'.after (setType e.mark t)) :
    Trace all (files e.nodes) s (s.after (expression e i)) (⟨.expression e, i, s⟩ :: vs) := by
  have hduty : duties (.expression e) .type = true := by
    unfold duties
    split <;> simp_all
  have hown : Step all (files [.expression e]) s' (s'.after (setType e.mark t)) :=
    (Plain.setType (files_own (.expression e) _ hduty)).step
  rw [hn]
  exact own h hn rfl hbelow (hafter ▸ hown) rfl

theorem leaf {e : Expr} (h : Ready all e.nodes i s) (hn : e.nodes = [.expression e])
    (hown : Step all (files [.expression e]) s (s.after (expression e i))) :
    Trace all (files e.nodes) s (s.after (expression e i)) [⟨.expression e, i, s⟩] := by
  rw [hn] at h ⊢
  exact own h hn rfl (nil s) hown rfl

theorem reference {r : Reference} (h : Ready all [r.node] i s) :
    Trace all (files [r.node]) s (s.after (reference r i)) [⟨r.node, i, s⟩] :=
  own h rfl rfl (nil s) (Plain.reference h.known).step rfl

theorem postponed {g : Goal} {form : Form} {name : String} {t : Ty}
    (h : Ready all (.expression (.logic g) :: l) i s)
    (hn : g.nodes = .expression (.logic g) :: l) (hbelow : Trace all (files l) s s' vs)
    (hafter : s.after (logic g i) =
      (s'.after (postpone ⟨form, g.mark, name, i⟩)).after (setType g.mark t)) :
    Trace all (files g.nodes) s (s.after (logic g i)) (⟨.expression (.logic g), i, s⟩ :: vs) := by
  have hown : Step all (files [.expression (.logic g)]) s'
      ((s'.after (postpone ⟨form, g.mark, name, i⟩)).after (setType g.mark t)) :=
    (Plain.trans (.postpone (files_own (.expression (.logic g)) _ rfl))
      (.setType (files_own (.expression (.logic g)) _ rfl))).step
  have hnodes : (Node.expression (.logic g)).nodes = .expression (.logic g) :: l := by
    rw [← hn, Node.nodes, Expr.nodes]
  rw [hn]
  exact own h hnodes rfl hbelow (hafter ▸ hown) rfl

mutual

/-- The pass over an expression visits its nodes. -/
theorem expression (e : Expr) {s : State} (h : Ready all e.nodes i s) :
    Trace all (files e.nodes) s (s.after (expression e i)) (e.visits i s) := by
  match e with
  | .int m _ | .float m _ | .string m _ | .bool m _ | .null m => exact typed h rfl (nil s) rfl
  | .reference r => exact leaf h rfl (Plain.reference h.known).step
  | .constructor m name =>
    refine leaf h rfl (Plain.typed .constructorType ?_).step
    exact files_own (.expression (.constructor m name)) _ rfl
  | .array m elements =>
    have hbelow : Ready all (Expr.nodesOfList elements) i s := h.sublist (by simp [Expr.nodes])
    exact typed h rfl (expressions elements hbelow) rfl
  | .field m stem name =>
    have hbelow : Ready all stem.nodes i s := h.sublist (by simp [Expr.nodes])
    have hstem := expression stem hbelow
    have htype : Step all (fun _ _ => False) (s.after (Analysis.expression stem i))
        ((s.after (Analysis.expression stem i)).after
          (fieldType m (Analysis.expression stem i s).1 name i)) :=
      (Reports.fieldType m _ name).plain.step
    have := hstem.append (of_step htype) (fun _ _ _ h => h.elim) (.refl _) fun _ _ h => h.elim
    rw [List.append_nil] at this
    exact typed h rfl this rfl
  | .index m array index =>
    have hbelow : Ready all (array.nodes ++ index.nodes) i s := h.sublist (by simp [Expr.nodes])
    have ha := expression array (hbelow.sublist (List.sublist_append_left ..))
    have hi := expression index ((hbelow.sublist (List.sublist_append_right ..)).next ha.step)
    exact typed h rfl (sequence hbelow.distinct ha hi) (by rw [expression_index]; rfl)
  | .call m callee arguments =>
    have hbelow : Ready all (callee.nodes ++ Expr.nodesOfList arguments) i s :=
      h.sublist (by simp [Expr.nodes])
    have hc := expression callee (hbelow.sublist (List.sublist_append_left ..))
    have ha := expressions arguments ((hbelow.sublist (List.sublist_append_right ..)).next hc.step)
    exact typed h rfl (sequence hbelow.distinct hc ha) (by rw [expression_call]; rfl)
  | .not m operand =>
    have hbelow : Ready all operand.nodes i s := h.sublist (by simp [Expr.nodes])
    exact typed h rfl (expression operand hbelow) rfl
  | .binary m op left right =>
    have hbelow : Ready all (left.nodes ++ right.nodes) i s := h.sublist (by simp [Expr.nodes])
    have hl := expression left (hbelow.sublist (List.sublist_append_left ..))
    have hr := expression right ((hbelow.sublist (List.sublist_append_right ..)).next hl.step)
    exact typed h rfl (sequence hbelow.distinct hl hr) rfl
  | .assign m target value =>
    have hbelow : Ready all (target.nodes ++ value.nodes) i s := h.sublist (by simp [Expr.nodes])
    have hv := expression value (hbelow.sublist (List.sublist_append_right ..))
    have ht := expression target ((hbelow.sublist (List.sublist_append_left ..)).next hv.step)
    exact typed h rfl (sequence_swap hbelow.distinct hv ht) rfl
  | .paren m inner =>
    have hbelow : Ready all inner.nodes i s := h.sublist (by simp [Expr.nodes])
    exact typed h rfl (expression inner hbelow) rfl
  | .query m target question =>
    have hbelow : Ready all ([target.node] ++ question.nodes) i s :=
      h.sublist (by simp [Expr.nodes])
    have ht := reference (hbelow.sublist (List.sublist_append_left ..))
    have hq := expression question ((hbelow.sublist (List.sublist_append_right ..)).next ht.step)
    exact typed h rfl (sequence hbelow.distinct ht hq) rfl
  | .placeholder m name type =>
    have hown : Step all (files [.expression (.placeholder m name type)]) s
        (s.after (Analysis.expression (.placeholder m name type) i)) :=
      .placeholder (h.inside List.mem_cons_self)
    refine (visit (of_step (hown.mono ?_)) rfl rfl h.there h.known h.inside h.distinct : Trace _ _ _
      (Visit.after ⟨.expression (.placeholder m name type), i, s⟩) _)
    exact fun _ _ => files_mono (by simp [Node.nodes, Expr.nodes])
  | .logic goal => exact logic goal h

theorem expressions (es : List Expr) {s : State} (h : Ready all (Expr.nodesOfList es) i s) :
    Trace all (files (Expr.nodesOfList es)) s (s.after (expressions es i))
      (Expr.visitsOfList es i s) := by
  match es with
  | [] => exact nil s
  | e :: es =>
    have h' : Ready all (e.nodes ++ Expr.nodesOfList es) i s := h
    have he := expression e (h'.sublist (List.sublist_append_left ..))
    have hes := expressions es ((h'.sublist (List.sublist_append_right ..)).next he.step)
    exact sequence h'.distinct he hes

theorem logic (g : Goal) {s : State} (h : Ready all g.nodes i s) :
    Trace all (files g.nodes) s (s.after (logic g i)) (g.visits i s) := by
  match g with
  | .atom m name => exact postponed h rfl (nil s) rfl
  | .call m functor arguments =>
    have hbelow : Ready all (Expr.nodesOfList arguments) i s := h.sublist (by simp [Goal.nodes])
    exact postponed h rfl (expressions arguments hbelow) rfl
  | .paren m inner =>
    have hbelow : Ready all inner.nodes i s := h.sublist (by simp [Goal.nodes])
    exact typed h rfl (logic inner hbelow) rfl
  | .not m operand =>
    have hbelow : Ready all operand.nodes i s := h.sublist (by simp [Goal.nodes])
    exact typed h rfl (logic operand hbelow) rfl
  | .binary m op left right =>
    have hbelow : Ready all (left.nodes ++ right.nodes) i s := h.sublist (by simp [Goal.nodes])
    have hl := logic left (hbelow.sublist (List.sublist_append_left ..))
    have hr := logic right ((hbelow.sublist (List.sublist_append_right ..)).next hl.step)
    exact typed h rfl (sequence hbelow.distinct hl hr) rfl

end

theorem parameters (ps : List Parameter) {s : State}
    (h : Ready all (ps.flatMap Parameter.nodes) i s) :
    Trace all (files (ps.flatMap Parameter.nodes)) s (s.after (parameters ps i))
      (Parameter.visitsOfList ps i s) := by
  induction ps generalizing s with
  | nil => exact nil s
  | cons p ps ih =>
    have h' : Ready all (p.nodes ++ ps.flatMap Parameter.nodes) i s := by simpa using h
    have hp : Ready all p.nodes i s := h'.sublist (List.sublist_append_left ..)
    have hstep : Step all (files p.nodes) s (s.after (parameter p i)) :=
      (Step.parameter (hp.inside List.mem_cons_self)).mono fun _ _ =>
        files_mono (by simp [Parameter.nodes])
    have hfirst : Trace all (files p.nodes) s (s.after (parameter p i)) [⟨.parameter p, i, s⟩] :=
      visit (v := ⟨.parameter p, i, s⟩) (of_step hstep) rfl rfl hp.there hp.known hp.inside hp.distinct
    have hrest := ih ((h'.sublist (List.sublist_append_right ..)).next hstep)
    exact sequence h'.distinct hfirst hrest

theorem enclose (st : Stmt) (h : Ready all st.nodes i s) (hst : isHoisted st = false)
    (hpass : Trace all (files st.nodes) s (s.after (statement st i)) vs) :
    Trace all (stmtShare st) s (s.after (statement st i)) (⟨.statement st, i, s⟩ :: vs) := by
  rw [stmtShare_eq hst]
  exact visit (v := ⟨.statement st, i, s⟩) hpass rfl (stmtShare_eq hst) h.there h.known h.inside
    h.distinct

theorem varDecl {d : VarDecl} (h : Ready all d.nodes i s) :
    Trace all (stmtShare (.var d)) s (s.after (varDecl d i)) (d.visits i s) := by
  have hown : ∀ {s' : State} {t : Ty}, Step all (files [.statement (.var d)]) s'
      ((s'.after (declare i d.name (.var d.mark d.name) d.mark)).after (setType d.mark t)) :=
    Step.declareTyped (h.inside List.mem_cons_self) rfl rfl rfl
  rw [stmtShare_eq rfl]
  obtain ⟨m, name, type, initializer⟩ := d
  cases initializer with
  | none =>
    have hbelow : Trace all (files ((type.map TypeExpr.nodes).getD [] ++ [])) s s [] :=
      of_step (.refl s)
    cases type with
    | none => exact own h rfl (stmtShare_eq rfl) hbelow hown rfl
    | some t =>
      exact own h rfl (stmtShare_eq rfl) hbelow (.before (Reports.resolveType t).plain hown) rfl
  | some e =>
    have hready : Ready all e.nodes i s := h.sublist (by simp [VarDecl.nodes])
    have he := expression e hready
    have hbelow : Trace all (files ((type.map TypeExpr.nodes).getD [] ++ e.nodes)) s
        (s.after (Analysis.expression e i)) (e.visits i s) :=
      he.mono fun _ _ => files_mono (List.subset_append_right ..)
    cases type with
    | none => exact own h rfl (stmtShare_eq rfl) hbelow hown rfl
    | some t =>
      exact own h rfl (stmtShare_eq rfl) hbelow (.before (Reports.resolveType t).plain hown) rfl

theorem fact {d : FactDecl} (h : Ready all d.nodes i s) :
    Trace all (stmtShare (.fact d)) s (s.after (fact d i)) (d.visits i s) := by
  have hready : Ready all (Expr.nodesOfList d.arguments) i s := h.sublist (by simp [FactDecl.nodes])
  have hbelow := expressions d.arguments hready
  have hown : ∀ {s' : State} {params : List Ty}, Step all (files [.statement (.fact d)]) s'
      (s'.after (predicate (.fact d.mark d.functor) d.mark d.functor params i)) :=
    (Step.predicate (n := .statement (.fact d)) (h.inside List.mem_cons_self) rfl
      (files_own (.statement (.fact d)) _ rfl) (files_own (.statement (.fact d)) _ rfl)
      (files_own (.statement (.fact d)) _ rfl)).1
  rw [stmtShare_eq rfl]
  exact own h rfl (stmtShare_eq rfl) hbelow hown rfl

end Trace

section Opening

variable {all : List Node} {I : Share} {s : State} {i : ScopeId}

theorem openScope_fresh (all : List Node) (I : Share) (node : NodeRef) (parent : Option ScopeId) :
    Ends s (openScope node parent) fun s' j => j = s.table.scopes.all.size ∧
      j < s'.table.scopes.all.size ∧ Plain all I s s' := by
  refine ⟨rfl, ?_, .openScope⟩
  have hsize : (s.after (openScope node parent)).table.scopes.all.size =
      s.table.scopes.all.size + 1 := Array.size_push ..
  rw [hsize]
  exact Nat.lt_succ_self _

theorem openBlock_files (m : Mark) : Ends s (openBlock m i) fun s' inner =>
    Plain all (.one .scope m.id) s s' ∧ inner < s'.table.scopes.all.size ∧
      (s'.table.attributes m.id).scope = some inner := by
  refine (openScope_fresh all (.one .scope m.id) ⟨.block, m⟩ (some i)).bind fun s₁ inner h₁ => ?_
  have hset : Ends s₁ (setScope m inner) fun s' _ => Plain all (.one .scope m.id) s s' ∧
      inner < s'.table.scopes.all.size ∧ (s'.table.attributes m.id).scope = some inner :=
    ⟨h₁.2.2.trans (.setScope (Share.one_self ..)), h₁.2.1, Table.scope_setScope_self ..⟩
  exact hset.bind fun s₂ _ h₂ => h₂

theorem openRule_files (d : RuleDecl) : Ends s (openRule d i) fun s' body =>
    Plain all (.one .bodyScope d.mark.id) s s' ∧ body < s'.table.scopes.all.size ∧
      (s'.table.attributes d.mark.id).bodyScope = some body := by
  refine (openScope_fresh all (.one .bodyScope d.mark.id) ⟨.ruleDeclaration, d.mark⟩ (some i)).bind
    fun s₁ body h₁ => ?_
  have hset : Ends s₁ (setBodyScope d.mark body) fun s' _ =>
      Plain all (.one .bodyScope d.mark.id) s s' ∧ body < s'.table.scopes.all.size ∧
      (s'.table.attributes d.mark.id).bodyScope = some body :=
    ⟨h₁.2.2.trans (.setBodyScope (Share.one_self ..)), h₁.2.1,
      Table.bodyScope_setBodyScope_self ..⟩
  exact hset.bind fun s₂ _ h₂ => h₂

theorem Plain.setType_same {m : Mark} {t : Ty} (h : (s.table.attributes m.id).type = some t) :
    Plain all I s (s.after (Analysis.setType m t)) :=
  update m.id (fun a => { a with type := some t }) (fun _ => rfl) (fun _ => rfl) (fun _ => rfl)
    fun _ => .inl h.symm

theorem openFunction_files {m : Mark} {params : List Parameter} {returnType : Option TypeExpr}
    (hm : Function all m.id) : Ends s (openFunction m params returnType i) fun s' body =>
    Plain all (.one .bodyScope m.id) s s' ∧ body < s'.table.scopes.all.size ∧
      (s'.table.attributes m.id).bodyScope = some body := by
  have htype : Ends s (functionType m params returnType i) fun s' t =>
      Plain all (.one .bodyScope m.id) s s' ∧ (s'.table.attributes m.id).type = some t :=
    ⟨.functionType _ _ _ _ hm, (functionType_filed m params returnType i).2⟩
  refine htype.bind fun s₁ t h₁ => ?_
  have hset : Ends s₁ (setType m t) fun s' _ => Plain all (.one .bodyScope m.id) s s' :=
    h₁.1.trans (.setType_same h₁.2)
  refine hset.bind fun s₂ _ h₂ => ?_
  refine (openScope_fresh all (.one .bodyScope m.id) ⟨.functionDeclaration, m⟩ (some i)).bind
    fun s₃ body h₃ => ?_
  have hbody : Ends s₃ (setBodyScope m body) fun s' _ =>
      Plain all (.one .bodyScope m.id) s s' ∧ body < s'.table.scopes.all.size ∧
      (s'.table.attributes m.id).bodyScope = some body :=
    ⟨h₂.trans (h₃.2.2.trans (.setBodyScope (Share.one_self ..))), h₃.2.1,
      Table.bodyScope_setBodyScope_self ..⟩
  exact hbody.bind fun s₄ _ h₄ => h₄

end Opening

/-- What the passes over the statements of a list do. -/
def stmtsShare (ss : List Stmt) : Share := fun duty id => ∃ st ∈ ss, stmtShare st duty id

theorem stmtsShare_within (ss : List Stmt) :
    (stmtsShare ss).Within (files (Stmt.nodesOfList ss)) := by
  rintro duty id ⟨st, hst, h, -⟩
  exact files_mono (fun n hn => Stmt.mem_nodesOfList.mpr ⟨st, hst, hn⟩) h

theorem hoists_within (ss : List Stmt) : (hoists ss).Within (files (Stmt.nodesOfList ss)) := by
  rintro _ id ⟨rfl, st, hst, hh, rfl⟩
  refine ⟨.statement st, Stmt.mem_nodesOfList.mpr ⟨st, hst, st.self_mem_nodes⟩, rfl, ?_⟩
  cases st with
  | function d => rfl
  | struct d => rfl
  | _ => cases hh

theorem eq_of_marks {ss : List Stmt} (h : Distinct (Stmt.nodesOfList ss)) {st st' : Stmt} {id : Nat}
    (hst : st ∈ ss) (hst' : st' ∈ ss) (hid : Marks st.nodes id) (hid' : Marks st'.nodes id) :
    st = st' := by
  induction ss with
  | nil => cases hst
  | cons first rest ih =>
    have hd : Distinct (first.nodes ++ Stmt.nodesOfList rest) := h
    have hrest : ∀ {st}, st ∈ rest → Marks st.nodes id → Marks (Stmt.nodesOfList rest) id :=
      fun hst => Marks.mono (fun n hn => Stmt.mem_nodesOfList.mpr ⟨_, hst, hn⟩) id
    rcases List.mem_cons.mp hst with rfl | hmem
    · rcases List.mem_cons.mp hst' with rfl | hmem'
      · rfl
      · exact absurd (hrest hmem' hid') (hd.apart id hid)
    · rcases List.mem_cons.mp hst' with rfl | hmem'
      · exact absurd (hrest hmem hid) (hd.apart id hid')
      · exact ih (List.Nodup.sublist ((List.sublist_append_right _ _).map _) h) hmem hmem'

/-- Declaring functions and structs ahead and walking the list are different things. -/
theorem hoists_apart {ss : List Stmt} (h : Distinct (Stmt.nodesOfList ss)) :
    (hoists ss).Apart (stmtsShare ss) := by
  rintro _ id ⟨rfl, st, hst, hh, rfl⟩ ⟨st', hst', hfiles, hnot⟩
  have hsame : st = st' := eq_of_marks h hst hst' ⟨_, st.self_mem_nodes, rfl⟩ hfiles.marks
  subst hsame
  exact hnot ⟨rfl, hh, rfl⟩

theorem openBlock_hoist {all : List Node} {s : State} {i : ScopeId} {m : Mark} {body : List Stmt}
    (h : Ready all (.statement (.block ⟨m, body⟩) :: Stmt.nodesOfList body) i s) :
    Ends s (openBlock m i >>= fun inner => hoist body inner >>= fun _ => pure inner)
      fun s' inner => Step all ((Share.one .scope m.id).or (hoists body)) s s' ∧
        inner < s'.table.scopes.all.size ∧ (s'.table.attributes m.id).scope = some inner ∧
        ∀ st ∈ body, isHoisted st = true →
          (s'.table.attributes st.ref.mark.id).scope = some inner := by
  have hd : Distinct ([.statement (.block ⟨m, body⟩)] ++ Stmt.nodesOfList body) := h.distinct
  have hbody : Distinct (Stmt.nodesOfList body) := (List.nodup_cons.mp h.distinct).2
  have hmem : ∀ st ∈ body, .statement st ∈ all := fun st hst =>
    h.inside (List.mem_cons_of_mem _ (Stmt.mem_nodesOfList.mpr ⟨st, hst, st.self_mem_nodes⟩))
  have hapart : ¬ hoists body .scope m.id := fun hh =>
    hd.apart m.id ⟨_, List.mem_singleton_self _, rfl⟩ (hoists_within body _ _ hh).marks
  refine (openBlock_files m : Ends s _ fun s' inner => Plain all _ s s' ∧ _).bind
    fun s₁ inner h₁ => ?_
  have hhoist : Ends s₁ (hoist body inner) fun s' _ => Step all (hoists body) s₁ s' ∧
      ∀ st ∈ body, isHoisted st = true → (s'.table.attributes st.ref.mark.id).scope = some inner :=
    Step.hoist (hoists_nodup hbody) hmem
  refine hhoist.bind fun s₂ _ h₂ => ⟨?_, Nat.lt_of_lt_of_le h₁.2.1 h₂.1.size,
    (h₂.1.scope hapart).trans h₁.2.2, h₂.2⟩
  refine h₁.1.step.trans h₂.1 (fun _ _ h => .inl h) (fun _ _ h => .inr h) ?_
  rintro _ _ ⟨rfl, rfl⟩
  exact hapart

namespace Trace

variable {all : List Node} {s : State} {i : ScopeId}

/-- A block opens a scope, declares its functions and structs there, and is walked. -/
theorem block {m : Mark} {body : List Stmt}
    (hbody : ∀ {s : State} {j : ScopeId}, Ready all (Stmt.nodesOfList body) j s →
      Trace all (stmtsShare body) s (s.after (statements body j)) (Stmt.visitsOfList body j s))
    (h : Ready all (Stmt.block ⟨m, body⟩).nodes i s) :
    Trace all (stmtShare (.block ⟨m, body⟩)) s (s.after (statement (.block ⟨m, body⟩) i))
      ((Stmt.block ⟨m, body⟩).visits i s) := by
  refine enclose _ h rfl ?_
  have hd : Distinct ([.statement (.block ⟨m, body⟩)] ++ Stmt.nodesOfList body) := by
    simpa [Stmt.nodes] using h.distinct
  have hself : files (Stmt.block ⟨m, body⟩).nodes .scope m.id :=
    files_self (Stmt.self_mem_nodes (.block ⟨m, body⟩)) rfl
  have hbelow : (files (Stmt.nodesOfList body)).Within (files (Stmt.block ⟨m, body⟩).nodes) :=
    fun _ _ => files_mono (by simp [Stmt.nodes])
  have hapart : ((Share.one .scope m.id).or (hoists body)).Apart (stmtsShare body) := by
    refine Share.Apart.or_left ?_ (hoists_apart (List.nodup_cons.mp hd).2)
    rintro _ _ ⟨rfl, rfl⟩ hs
    exact hd.apart m.id ⟨_, List.mem_singleton_self _, rfl⟩ (stmtsShare_within body _ _ hs).marks
  obtain ⟨hopen, hinner, -⟩ := openBlock_hoist (by simpa [Stmt.nodes] using h)
  have hready : Ready all (Stmt.nodesOfList body) i s := h.sublist (by simp [Stmt.nodes])
  exact (of_step hopen).append (hbody ((hready.next hopen).at_scope hinner)) hapart
    (Share.Within.or (Share.one_le hself) ((hoists_within body).trans hbelow))
    ((stmtsShare_within body).trans hbelow)

theorem rule {d : RuleDecl} (h : Ready all d.nodes i s) :
    Trace all (stmtShare (.rule d)) s (s.after (rule d i)) (d.visits i s) := by
  refine enclose (.rule d) h rfl ?_
  let params := d.parameters.flatMap Parameter.nodes
  have hd : Distinct ([.statement (.rule d)] ++ (params ++ d.body.nodes)) := by
    simpa [RuleDecl.nodes] using h.distinct
  have hinner : Ready all (params ++ d.body.nodes) i s := h.sublist (by simp [RuleDecl.nodes, params])
  have hself : ∀ {duty}, duties (.statement (.rule d)) duty = true →
      files d.nodes duty d.mark.id := files_self List.mem_cons_self
  -- The declaration itself is worked for twice: its body scope is filed before, all else after the
  -- parameters.
  let own : Share := fun duty id => duty ≠ .bodyScope ∧ files [.statement (.rule d)] duty id
  have hown : ∀ {duty id}, own duty id → Marks [.statement (.rule d)] id := fun h => h.2.marks
  have hone : ∀ {duty id}, Share.one .bodyScope d.mark.id duty id →
      Marks [.statement (.rule d)] id := by
    rintro _ _ ⟨rfl, rfl⟩
    exact ⟨_, List.mem_singleton_self _, rfl⟩
  have hapart : ∀ {I : Share} {l : List Node}, l ⊆ params ++ d.body.nodes →
      (∀ {duty id}, I duty id → Marks [.statement (.rule d)] id) → I.Apart (files l) :=
    fun hsub hI => Share.apart_of_distinct hd (fun _ _ h => hI h) fun _ id h =>
      Marks.mono hsub id h.marks
  have hopen : Ends s (openRule d i) fun s' body => Plain all (.one .bodyScope d.mark.id) s s' ∧
      body < s'.table.scopes.all.size ∧ _ := openRule_files d
  obtain ⟨hopen, hbody, -⟩ := hopen
  have h₁ := (hinner.next hopen.step).at_scope hbody
  have hparams := parameters d.parameters (h₁.sublist (List.sublist_append_left ..))
  have h₂ := (of_step hopen.step).join hparams (hapart (List.subset_append_left ..) hone)
  have hpredicate : ∀ (s' : State) (types : List Ty), Step all own s'
      (s'.after (predicate (.rule d.mark d.functor) d.mark d.functor types i)) := by
    intro s' types
    have hfiles : ∀ duty, duty ≠ .bodyScope → duties (.statement (.rule d)) duty = true →
        own duty d.mark.id := fun duty hduty hd =>
      ⟨hduty, files_own (.statement (.rule d)) duty hd⟩
    exact (Step.predicate (n := .statement (.rule d)) (h.inside List.mem_cons_self) rfl
      (hfiles _ (by simp) rfl) (hfiles _ (by simp) rfl) (hfiles _ (by simp) rfl)).1
  have hboth : ((Share.one .bodyScope d.mark.id).or (files params)).Apart own := by
    refine Share.Apart.or_left ?_ (hapart (List.subset_append_left ..) hown).symm
    rintro _ _ ⟨rfl, rfl⟩ h
    exact h.1 rfl
  have hfiled := hpredicate
    ((openRule d i s).2.after (Analysis.parameters d.parameters (openRule d i s).1))
    (Analysis.parameters d.parameters (openRule d i s).1 (openRule d i s).2).1
  have h₃ := h₂.join (of_step hfiled) hboth
  have hlogic := logic d.body
    (((h₁.sublist (List.sublist_append_right ..)).next hparams.step).next hfiled)
  have h₄ := h₃.append hlogic (M := files d.nodes) ?_ ?_ ?_
  · rwa [List.append_nil] at h₄
  · refine Share.Apart.or_left (Share.Apart.or_left ?_ ?_) ?_
    · exact hapart (List.subset_append_right ..) hone
    · exact Share.apart_of_distinct hinner.distinct (fun _ _ h => h.marks) fun _ _ h => h.marks
    · exact hapart (List.subset_append_right ..) hown
  · refine Share.Within.or (Share.Within.or (Share.one_le (hself rfl)) ?_) ?_
    · exact fun _ _ => files_mono (by simp [RuleDecl.nodes])
    · exact fun _ _ h => files_mono (by simp [RuleDecl.nodes]) h.2
  · exact fun _ _ => files_mono (by simp [RuleDecl.nodes])

theorem function {d : FunctionDecl}
    (hbody : ∀ {s : State} {j : ScopeId}, Ready all (Stmt.nodesOfList d.body.statements) j s →
      Trace all (stmtsShare d.body.statements) s (s.after (statements d.body.statements j))
        (Stmt.visitsOfList d.body.statements j s))
    (h : Ready all (Stmt.function d).nodes i s) :
    Trace all (stmtShare (.function d)) s (s.after (statement (.function d) i))
      ((Stmt.function d).visits i s) := by
  obtain ⟨m, name, ps, returnType, ⟨bodyMark, body⟩⟩ := d
  let d : FunctionDecl := ⟨m, name, ps, returnType, ⟨bodyMark, body⟩⟩
  let params := ps.flatMap Parameter.nodes
  let blockNodes := (Stmt.block ⟨bodyMark, body⟩).nodes
  have hsub : ([Node.statement (.function d)] ++ (params ++ blockNodes)).Sublist
      (Stmt.function d).nodes := by
    rw [Stmt.nodes_function, FunctionDecl.head, List.singleton_append, List.cons_append,
      List.append_assoc]
    exact .cons_cons _ (.append_left (List.sublist_append_right ..) params)
  have hinner : Ready all (params ++ blockNodes) i s :=
    h.sublist ((List.sublist_append_right ..).trans hsub)
  have hd : Distinct ([.statement (.function d)] ++ (params ++ blockNodes)) :=
    (h.sublist hsub).distinct
  have hm : Function all m.id := ⟨d, h.inside (Stmt.self_mem_nodes _), rfl⟩
  have hone : ∀ {duty id}, Share.one .bodyScope m.id duty id → Marks [.statement (.function d)] id := by
    rintro _ _ ⟨rfl, rfl⟩
    exact ⟨_, List.mem_singleton_self _, rfl⟩
  -- Nothing but the body scope is filed for the function itself.
  have hwithin : ∀ {l : List Node}, l ⊆ params ++ blockNodes →
      (files l).Within (stmtShare (.function d)) := by
    intro l hl duty id hf
    refine ⟨files_mono (fun n hn => hsub.subset (List.mem_append_right _ (hl hn))) hf, ?_⟩
    rintro ⟨-, -, rfl⟩
    exact hd.apart _ ⟨_, List.mem_singleton_self _, rfl⟩ (Marks.mono hl _ hf.marks)
  have hopen : Ends s (openFunction m ps returnType i) fun s' outer =>
      Plain all (.one .bodyScope m.id) s s' ∧ outer < s'.table.scopes.all.size ∧ _ :=
    openFunction_files hm
  obtain ⟨hopen, houter, -⟩ := hopen
  have h₁ := (hinner.next hopen.step).at_scope houter
  have hparams := parameters ps (h₁.sublist (List.sublist_append_left ..))
  have h₂ := (of_step hopen.step).join hparams (Share.apart_of_distinct hd (fun _ _ h => hone h)
    fun _ id h => Marks.mono (List.subset_append_left ..) id h.marks)
  have hblock := block hbody ((h₁.sublist (List.sublist_append_right ..)).next hparams.step)
  rw [stmtShare_eq rfl] at hblock
  have hpass : Trace all (stmtShare (.function d)) s (s.after (statement (.function d) i)) _ :=
    h₂.append hblock ?_ ?_ (hwithin (List.subset_append_right ..))
  · exact visit (v := ⟨.statement (.function d), i, s⟩) hpass rfl rfl h.there h.known h.inside
      h.distinct
  · refine Share.Apart.or_left ?_ ?_
    · exact Share.apart_of_distinct hd (fun _ _ h => hone h) fun _ id h =>
        Marks.mono (List.subset_append_right ..) id h.marks
    · exact Share.apart_of_distinct hinner.distinct (fun _ _ h => h.marks) fun _ _ h => h.marks
  · refine Share.Within.or (Share.one_le ⟨?_, by rintro ⟨⟨⟩, -⟩⟩) (hwithin (List.subset_append_left ..))
    exact files_self (n := .statement (.function d)) (Stmt.self_mem_nodes _) rfl

theorem guarded {st : Stmt} {e : Expr} (h : Ready all (e.nodes ++ st.nodes) i s)
    (hst : ∀ {s : State}, Ready all st.nodes i s →
      Trace all (stmtShare st) s (s.after (statement st i)) (st.visits i s)) :
    Trace all (files (e.nodes ++ st.nodes)) s
      ((s.after (Analysis.expression e i)).after (statement st i))
      (e.visits i s ++ st.visits i (s.after (Analysis.expression e i))) := by
  have he := expression e (h.sublist (List.sublist_append_left ..))
  have hrest := hst ((h.sublist (List.sublist_append_right ..)).next he.step)
  exact sequence h.distinct he (hrest.mono fun _ _ h => h.1)

mutual

/-- The pass over a statement visits its nodes. -/
theorem statement (st : Stmt) {s : State} {i : ScopeId} (h : Ready all st.nodes i s) :
    Trace all (stmtShare st) s (s.after (statement st i)) (st.visits i s) := by
  match st with
  | .block ⟨m, body⟩ => exact block (fun h => statements body h) h
  | .function ⟨m, name, params, returnType, ⟨bodyMark, body⟩⟩ =>
    exact function (fun h => statements body h) h
  | .rule d => exact rule h
  | .var d => exact varDecl h
  | .fact d => exact fact h
  | .cond m condition yes none =>
    have hbelow : Ready all (condition.nodes ++ yes.nodes) i s := h.sublist (by simp [Stmt.nodes])
    refine enclose _ h rfl ((guarded hbelow fun h => statement yes h).mono ?_)
    exact fun _ _ => files_mono (by simp [Stmt.nodes])
  | .cond m condition yes (some no) =>
    have hbelow : Ready all (condition.nodes ++ yes.nodes ++ no.nodes) i s :=
      h.sublist (by simp [Stmt.nodes])
    have hyes := guarded (hbelow.sublist (List.sublist_append_left ..)) fun h => statement yes h
    have hno := statement no ((hbelow.sublist (List.sublist_append_right ..)).next hyes.step)
    refine enclose _ h rfl ((sequence hbelow.distinct hyes (hno.mono fun _ _ h => h.1)).mono ?_)
    exact fun _ _ => files_mono (by simp [Stmt.nodes])
  | .loop m condition body =>
    have hbelow : Ready all (condition.nodes ++ body.nodes) i s := h.sublist (by simp [Stmt.nodes])
    refine enclose _ h rfl ((guarded hbelow fun h => statement body h).mono ?_)
    exact fun _ _ => files_mono (by simp [Stmt.nodes])
  | .expr m e =>
    have hbelow : Ready all e.nodes i s := h.sublist (by simp [Stmt.nodes])
    refine enclose _ h rfl ((expression e hbelow).mono ?_)
    exact fun _ _ => files_mono (by simp [Stmt.nodes])
  | .ret m (some e) =>
    have hbelow : Ready all e.nodes i s := h.sublist (by simp [Stmt.nodes])
    refine enclose _ h rfl ((expression e hbelow).mono ?_)
    exact fun _ _ => files_mono (by simp [Stmt.nodes])
  | .ret m none => exact enclose _ h rfl (of_step (.refl s))
  | .atom d =>
    have hstep : Step all (files [.statement (.atom d)]) s (s.after (atom d i)) :=
      (Step.atom (h.inside (Stmt.self_mem_nodes _))).1
    exact enclose _ h rfl (of_step hstep)
  | .struct d =>
    have hfields : ∀ f ∈ d.fields, .field f ∈ (Stmt.struct d).nodes := fun f hf => by
      simp only [Stmt.nodes, StructDecl.nodes, List.mem_cons, List.mem_flatMap]
      exact .inr ⟨f, hf, List.mem_cons_self⟩
    have hfile : Plain all (stmtShare (.struct d)) s (s.after (Analysis.statement (.struct d) i)) :=
      .trans (.setType ⟨files_self (n := .statement (.struct d)) (Stmt.self_mem_nodes _) rfl,
        by rintro ⟨⟨⟩, -⟩⟩) (.fields fun f hf => ⟨files_self (hfields f hf) rfl, by rintro ⟨⟨⟩, -⟩⟩)
    exact visit (v := ⟨.statement (.struct d), i, s⟩) (of_step hfile.step) rfl rfl h.there h.known
      h.inside h.distinct
  | .unify m left right =>
    have hbelow : Ready all (left.goal.nodes ++ right.goal.nodes) i s :=
      h.sublist (by simp [Stmt.nodes])
    have hl := logic left.goal (hbelow.sublist (List.sublist_append_left ..))
    have hr := logic right.goal ((hbelow.sublist (List.sublist_append_right ..)).next hl.step)
    refine enclose _ h rfl ((sequence hbelow.distinct hl hr).mono ?_)
    exact fun _ _ => files_mono (by simp [Stmt.nodes])

theorem statements (ss : List Stmt) {s : State} {i : ScopeId}
    (h : Ready all (Stmt.nodesOfList ss) i s) :
    Trace all (stmtsShare ss) s (s.after (statements ss i)) (Stmt.visitsOfList ss i s) := by
  match ss with
  | [] => exact of_step (.refl s)
  | st :: rest =>
    have h' : Ready all (st.nodes ++ Stmt.nodesOfList rest) i s := h
    have hst := statement st (h'.sublist (List.sublist_append_left ..))
    have hrest := statements rest ((h'.sublist (List.sublist_append_right ..)).next hst.step)
    refine hst.append hrest ?_ ?_ ?_
    · exact Share.apart_of_distinct h'.distinct (fun _ _ h => h.1.marks) fun _ _ h =>
        (stmtsShare_within rest _ _ h).marks
    · exact fun _ _ h => ⟨st, List.mem_cons_self, h⟩
    · rintro _ _ ⟨st', hst', h⟩
      exact ⟨st', List.mem_cons_of_mem _ hst', h⟩

end

end Trace

end Analysis

end LogicScript
