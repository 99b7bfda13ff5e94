import LogicScript.Proofs.Evaluation
import LogicScript.Tree.Nodes

/-! The parts of expressions, logic expressions and statements are smaller, and their nodes are
nodes of the whole. -/
namespace LogicScript

theorem Expr.mem_nodesOfList {es : List Expr} {node : Node} :
    node ∈ Expr.nodesOfList es ↔ ∃ e ∈ es, node ∈ e.nodes := by
  induction es with
  | nil => simp [Expr.nodesOfList]
  | cons e es ih => simp [Expr.nodesOfList, ih]

theorem Stmt.mem_nodesOfList {ss : List Stmt} {node : Node} :
    node ∈ Stmt.nodesOfList ss ↔ ∃ s ∈ ss, node ∈ s.nodes := by
  induction ss with
  | nil => simp [Stmt.nodesOfList]
  | cons s ss ih => simp [Stmt.nodesOfList, ih]

namespace Goal

variable {goal g : Goal} {mark : Mark} {functor : String} {arguments : List Expr} {e : Expr}

theorem self_mem_nodes (goal : Goal) : .expression (.logic goal) ∈ goal.nodes := by
  cases goal <;> simp [nodes]

theorem nodes_parts (h : g ∈ goal.parts) : g.nodes ⊆ goal.nodes := by
  intro node hnode
  cases goal <;> simp only [parts, List.mem_cons, List.not_mem_nil, or_false] at h
  case paren => subst h; simp [nodes, hnode]
  case not => subst h; simp [nodes, hnode]
  case binary => rcases h with rfl | rfl <;> simp [nodes, hnode]

theorem nodes_arguments (h : e ∈ arguments) : e.nodes ⊆ (call mark functor arguments).nodes := by
  intro node hnode
  simp only [nodes, List.mem_cons, Expr.mem_nodesOfList]
  exact .inr ⟨e, h, hnode⟩

theorem sizeOf_parts (h : g ∈ goal.parts) : sizeOf g < sizeOf goal := by
  cases goal <;> simp only [parts, List.mem_cons, List.not_mem_nil, or_false] at h
  case paren => subst h; simp only [paren.sizeOf_spec]; omega
  case not => subst h; simp only [not.sizeOf_spec]; omega
  case binary => rcases h with rfl | rfl <;> (simp only [binary.sizeOf_spec]; omega)

theorem sizeOf_arguments (h : e ∈ arguments) : sizeOf e < sizeOf (call mark functor arguments) := by
  have := List.sizeOf_lt_of_mem h
  simp
  omega

end Goal

namespace Expr

variable {e e' : Expr} {goal : Goal}

theorem self_mem_nodes (e : Expr) : .expression e ∈ e.nodes := by
  cases e with
  | logic goal => simpa [nodes] using goal.self_mem_nodes
  | _ => simp [nodes]

theorem nodes_parts (h : e' ∈ e.parts) : e'.nodes ⊆ e.nodes := by
  intro node hnode
  cases e <;> simp only [parts, List.mem_cons, List.not_mem_nil, or_false] at h
  case array elements =>
    simp only [nodes, List.mem_cons, mem_nodesOfList]
    exact .inr ⟨e', h, hnode⟩
  case field => subst h; simp [nodes, hnode]
  case index => rcases h with rfl | rfl <;> simp [nodes, hnode]
  case call =>
    simp only [nodes, List.mem_cons, List.mem_append, mem_nodesOfList]
    rcases h with rfl | h
    · exact .inr (.inl hnode)
    · exact .inr (.inr ⟨e', h, hnode⟩)
  case not => subst h; simp [nodes, hnode]
  case binary => rcases h with rfl | rfl <;> simp [nodes, hnode]
  case assign target value =>
    cases target <;> simp only [List.mem_cons, List.not_mem_nil, or_false] at h
    case reference => subst h; simp [nodes, hnode]
    case index => rcases h with rfl | rfl | rfl <;> simp [nodes, hnode]
    case field => rcases h with rfl | rfl <;> simp [nodes, hnode]
  case paren => subst h; simp [nodes, hnode]

theorem nodes_goal (h : e.goal? = some goal) : goal.nodes ⊆ e.nodes := by
  intro node hnode
  unfold goal? at h
  split at h
  · cases h
    simp [nodes, hnode]
  · cases h
  · cases h
    simpa [nodes] using hnode
  · cases h

theorem slot_mem_nodes {r : Reference} (h : e.slot? = some r) : r.node ∈ e.nodes := by
  unfold slot? at h
  split at h
  · cases h
    simp [nodes, Reference.node]
  · cases h
    simp [nodes, Reference.node]
  · cases h
    simp [nodes]
  · cases h

theorem mark_placeholder {node : NodeRef} (h : e.placeholder? = some node) :
    node.mark = e.mark := by
  unfold placeholder? at h
  split at h
  · cases h
    rfl
  · cases h

theorem sizeOf_parts (h : e' ∈ e.parts) : sizeOf e' < sizeOf e := by
  cases e <;> simp only [parts, List.mem_cons, List.not_mem_nil, or_false] at h
  case array =>
    have := List.sizeOf_lt_of_mem h
    simp
    omega
  case field => subst h; simp; omega
  case index => rcases h with rfl | rfl <;> (simp only [index.sizeOf_spec]; omega)
  case call =>
    rcases h with rfl | h
    · simp; omega
    · have := List.sizeOf_lt_of_mem h
      simp
      omega
  case not => subst h; simp only [not.sizeOf_spec]; omega
  case binary => rcases h with rfl | rfl <;> (simp only [binary.sizeOf_spec]; omega)
  case assign target value =>
    cases target <;> simp only [List.mem_cons, List.not_mem_nil, or_false] at h
    case reference => subst h; simp only [assign.sizeOf_spec]; omega
    case index =>
      rcases h with rfl | rfl | rfl <;> (simp only [assign.sizeOf_spec, index.sizeOf_spec]; omega)
    case field =>
      rcases h with rfl | rfl <;> (simp only [assign.sizeOf_spec, field.sizeOf_spec]; omega)
  case paren => subst h; simp only [paren.sizeOf_spec]; omega

theorem sizeOf_goal (h : e.goal? = some goal) : sizeOf goal < sizeOf e := by
  unfold goal? at h
  split at h
  · cases h
    simp
    omega
  · cases h
  · cases h
    simp
  · cases h

end Expr

namespace Stmt

variable {s s' : Stmt} {e : Expr} {b : Block}

theorem self_mem_nodes (s : Stmt) : .statement s ∈ s.nodes := by
  cases s with
  | cond mark condition yes no => cases no <;> simp [nodes]
  | ret mark value => cases value <;> simp [nodes]
  | var d => simp [nodes, VarDecl.nodes]
  | struct d => simp [nodes, StructDecl.nodes]
  | fact d => simp [nodes, FactDecl.nodes]
  | rule d => simp [nodes, RuleDecl.nodes]
  | block b =>
    obtain ⟨mark, statements⟩ := b
    simp [nodes]
  | function d =>
    obtain ⟨mark, name, parameters, returnType, ⟨bodyMark, body⟩⟩ := d
    simp [nodes]
  | _ => simp [nodes]

theorem nodes_parts (h : e ∈ s.parts) : e.nodes ⊆ s.nodes := by
  intro node hnode
  cases s <;> simp only [parts, List.mem_cons, List.not_mem_nil, or_false, Option.mem_toList,
    List.mem_append] at h
  case expr => subst h; simp [nodes, hnode]
  case var d => simp [nodes, VarDecl.nodes, h, hnode]
  case cond mark condition yes no => subst h; cases no <;> simp [nodes, hnode]
  case ret mark value => subst h; simp [nodes, hnode]
  case fact d =>
    simp only [nodes, FactDecl.nodes, List.mem_cons, Expr.mem_nodesOfList]
    exact .inr ⟨e, h, hnode⟩
  case unify mark left right =>
    simp only [nodes, List.mem_cons, List.mem_append]
    rcases h with h | h
    · exact .inr (.inl (Goal.nodes_arguments h hnode))
    · exact .inr (.inr (Goal.nodes_arguments h hnode))

theorem nodes_branches (h : s' ∈ s.branches) : s'.nodes ⊆ s.nodes := by
  intro node hnode
  cases s <;> simp only [branches, List.mem_cons, List.not_mem_nil, Option.mem_toList] at h
  case cond mark condition yes no =>
    rcases h with rfl | h
    · cases no <;> simp [nodes, hnode]
    · subst h; simp [nodes, hnode]

theorem nodes_statements (h : s' ∈ b.statements) : s'.nodes ⊆ (block b).nodes := by
  intro node hnode
  obtain ⟨mark, statements⟩ := b
  simp only [nodes, List.mem_cons, mem_nodesOfList]
  exact .inr ⟨s', h, hnode⟩

/-- A name is bound or a store added to for the statement itself or for a placeholder in it. -/
theorem slots_cases {node : NodeRef} (h : node ∈ s.slots) :
    node.mark = s.ref.mark ∨ ∃ e ∈ s.parts, node.mark = e.mark := by
  cases s <;> simp only [slots, List.mem_cons, List.not_mem_nil, or_false] at h
  case unify mark left right =>
    obtain ⟨e, he, hnode⟩ := List.mem_filterMap.mp h
    exact .inr ⟨e, he, Expr.mark_placeholder hnode⟩
  all_goals
    subst h
    exact .inl rfl

theorem slots_mark {node : NodeRef} (h : node ∈ s.slots) : ∃ n ∈ s.nodes, n.mark = node.mark := by
  rcases slots_cases h with heq | ⟨e, he, heq⟩
  · exact ⟨_, s.self_mem_nodes, heq.symm⟩
  · exact ⟨_, nodes_parts he e.self_mem_nodes, heq.symm⟩

theorem sizeOf_parts (h : e ∈ s.parts) : sizeOf e < sizeOf s := by
  cases s <;> simp only [parts, List.mem_cons, List.not_mem_nil, or_false, Option.mem_toList,
    List.mem_append] at h
  case expr => subst h; simp only [expr.sizeOf_spec]; omega
  case var d =>
    obtain ⟨mark, name, type, initializer⟩ := d
    simp only at h
    subst h
    simp
    omega
  case cond mark condition yes no => subst h; simp; omega
  case ret mark value => subst h; simp; omega
  case fact d =>
    obtain ⟨mark, functor, arguments⟩ := d
    have := List.sizeOf_lt_of_mem h
    simp at this ⊢
    omega
  case unify mark left right =>
    obtain ⟨markl, functorl, argumentsl⟩ := left
    obtain ⟨markr, functorr, argumentsr⟩ := right
    rcases h with h | h
    all_goals
      have := List.sizeOf_lt_of_mem h
      simp at this ⊢
      omega

theorem sizeOf_branches (h : s' ∈ s.branches) : sizeOf s' < sizeOf s := by
  cases s <;> simp only [branches, List.mem_cons, List.not_mem_nil, Option.mem_toList] at h
  case cond mark condition yes no =>
    rcases h with rfl | h
    · simp; omega
    · subst h; simp; omega

theorem sizeOf_statements (h : s' ∈ b.statements) : sizeOf s' < sizeOf (block b) := by
  obtain ⟨mark, statements⟩ := b
  have := List.sizeOf_lt_of_mem h
  simp at this ⊢
  omega

end Stmt

/-! Statements are nodes of statements only. -/

theorem TypeExpr.statement_not_mem_nodes (t : TypeExpr) (s : Stmt) : .statement s ∉ t.nodes := by
  induction t with
  | simple m name => simp [nodes]
  | array m element ih => simp [nodes, ih]

mutual

theorem Expr.statement_not_mem_nodes (e : Expr) (s : Stmt) : .statement s ∉ e.nodes := by
  match e with
  | .int _ _ | .float _ _ | .string _ _ | .bool _ _ | .null _ | .reference _
  | .constructor _ _ => simp [Expr.nodes]
  | .array _ elements => simp [Expr.nodes, Expr.statement_not_mem_nodesOfList elements s]
  | .field _ stem _ => simp [Expr.nodes, stem.statement_not_mem_nodes s]
  | .index _ array index =>
    simp [Expr.nodes, array.statement_not_mem_nodes s, index.statement_not_mem_nodes s]
  | .call _ callee arguments =>
    simp [Expr.nodes, callee.statement_not_mem_nodes s,
      Expr.statement_not_mem_nodesOfList arguments s]
  | .not _ operand => simp [Expr.nodes, operand.statement_not_mem_nodes s]
  | .binary _ _ left right =>
    simp [Expr.nodes, left.statement_not_mem_nodes s, right.statement_not_mem_nodes s]
  | .assign _ target value =>
    simp [Expr.nodes, target.statement_not_mem_nodes s, value.statement_not_mem_nodes s]
  | .paren _ inner => simp [Expr.nodes, inner.statement_not_mem_nodes s]
  | .query _ target question =>
    simp [Expr.nodes, Reference.node, question.statement_not_mem_nodes s]
  | .placeholder _ _ type => simp [Expr.nodes, type.statement_not_mem_nodes s]
  | .logic goal => simpa [Expr.nodes] using goal.statement_not_mem_nodes s

theorem Expr.statement_not_mem_nodesOfList (es : List Expr) (s : Stmt) :
    .statement s ∉ Expr.nodesOfList es := by
  match es with
  | [] => simp [Expr.nodesOfList]
  | e :: es =>
    simp [Expr.nodesOfList, e.statement_not_mem_nodes s, Expr.statement_not_mem_nodesOfList es s]

theorem Goal.statement_not_mem_nodes (goal : Goal) (s : Stmt) : .statement s ∉ goal.nodes := by
  match goal with
  | .atom _ _ => simp [Goal.nodes]
  | .call _ _ arguments => simp [Goal.nodes, Expr.statement_not_mem_nodesOfList arguments s]
  | .paren _ inner => simp [Goal.nodes, inner.statement_not_mem_nodes s]
  | .not _ operand => simp [Goal.nodes, operand.statement_not_mem_nodes s]
  | .binary _ _ left right =>
    simp [Goal.nodes, left.statement_not_mem_nodes s, right.statement_not_mem_nodes s]

end

theorem Parameter.statement_not_mem_nodes (p : Parameter) (s : Stmt) : .statement s ∉ p.nodes := by
  simp [nodes, TypeExpr.statement_not_mem_nodes]

theorem TypeExpr.statement_not_mem_option (t : Option TypeExpr) (s : Stmt) :
    .statement s ∉ (t.map TypeExpr.nodes).getD [] := by
  cases t with
  | none => simp
  | some t => simpa using t.statement_not_mem_nodes s

theorem Expr.statement_not_mem_option (e : Option Expr) (s : Stmt) :
    .statement s ∉ (e.map Expr.nodes).getD [] := by
  cases e with
  | none => simp
  | some e => simpa using e.statement_not_mem_nodes s

end LogicScript
