import LogicScript.Tree.Nodes

/-! The nodes of a decoded program are numbered one after the other, in the order in which they
stand. -/
namespace LogicScript

/-- The numbers of some nodes. -/
def numbers (nodes : List Node) : List Nat := nodes.map fun node => node.mark.id

/-- Some nodes have different numbers. -/
def Distinct (nodes : List Node) : Prop := (numbers nodes).Nodup

/-- No two nodes of the program have the same number. -/
def Program.Numbered (p : Program) : Prop := Distinct p.nodes

@[simp] theorem numbers_nil : numbers [] = [] := rfl

@[simp] theorem numbers_cons (node : Node) (nodes : List Node) :
    numbers (node :: nodes) = node.mark.id :: numbers nodes := rfl

@[simp] theorem numbers_append (nodes nodes' : List Node) :
    numbers (nodes ++ nodes') = numbers nodes ++ numbers nodes' := List.map_append ..

/-- Some node has the number. -/
def Marks (nodes : List Node) (id : Nat) : Prop := ∃ node ∈ nodes, node.mark.id = id

theorem marks_of_mem {nodes : List Node} {node : Node} (h : node ∈ nodes) :
    Marks nodes node.mark.id := ⟨node, h, rfl⟩

theorem Marks.mono {nodes nodes' : List Node} (hsub : nodes ⊆ nodes') :
    ∀ id, Marks nodes id → Marks nodes' id := fun _ ⟨node, hmem, hid⟩ => ⟨node, hsub hmem, hid⟩

theorem Distinct.apart {nodes nodes' : List Node} (h : Distinct (nodes ++ nodes')) :
    ∀ id, Marks nodes id → ¬ Marks nodes' id := by
  rintro id ⟨node, hmem, hid⟩ ⟨node', hmem', hid'⟩
  unfold Distinct at h
  rw [numbers_append, List.nodup_append] at h
  exact h.2.2 id (List.mem_map.mpr ⟨node, hmem, hid⟩) id (List.mem_map.mpr ⟨node', hmem', hid'⟩) rfl

/-- A node with all nodes below it. -/
def Node.nodes : Node → List Node
  | .program p => p.nodes
  | .statement s => s.nodes
  | .expression e => e.nodes
  | .type t => t.nodes
  | .parameter p => p.nodes
  | .field f => f.nodes

namespace Decode

variable {α β : Type}

/-- A decoder gives out numbers one after the other; what it decodes fits to those given out. -/
def Gives (x : Decoder α) (Q : α → List Nat → Prop) : Prop :=
  ∀ n a n', x n = .ok (a, n') → n ≤ n' ∧ Q a (List.range' n (n' - n))

namespace Gives

variable {x : Decoder α} {P : α → List Nat → Prop}

theorem pure {a : α} (h : P a []) : Gives (Pure.pure a) P := by
  rintro n _ _ ⟨⟩
  simpa using h

theorem throw {e : DecodeError} : Gives (MonadExcept.throw e : Decoder α) P := by
  rintro n _ _ ⟨⟩

theorem bind {f : α → Decoder β} {Q : β → List Nat → Prop} (hx : Gives x P)
    (hf : ∀ a l, P a l → Gives (f a) fun b l' => Q b (l ++ l')) : Gives (x >>= f) Q := by
  intro n b n'' h
  have hstep : (x >>= f) n = (x n >>= fun r => f r.1 r.2) := rfl
  rw [hstep] at h
  cases hn : x n with
  | error e =>
    rw [hn] at h
    cases h
  | ok r =>
    obtain ⟨a, n'⟩ := r
    rw [hn] at h
    obtain ⟨hle, hP⟩ := hx n a n' hn
    obtain ⟨hle', hQ⟩ := hf a _ hP n' b n'' h
    refine ⟨Nat.le_trans hle hle', ?_⟩
    have happend := List.range'_append_1 (s := n) (m := n' - n) (n := n'' - n')
    rw [Nat.add_sub_cancel' hle] at happend
    rw [happend] at hQ
    have hsum : n' - n + (n'' - n') = n'' - n := by omega
    rw [hsum] at hQ
    exact hQ

theorem fresh : Gives fresh fun id l => l = [id] := by
  rintro n _ _ ⟨⟩
  refine ⟨Nat.le_succ n, ?_⟩
  rw [Nat.add_sub_cancel_left]
  rfl

theorem lift (e : Except DecodeError α) : Gives (liftM e) fun _ l => l = [] := by
  intro n a n' h
  cases e with
  | error e => cases h
  | ok a =>
    cases h
    simp

end Gives

section Children

variable {decode : Entries → Decoder Node}
  (hd : ∀ entries, Gives (decode entries) fun node l => numbers node.nodes = l)
include hd

theorem gives_childOf {wanted : Category} {select : Node → Option α} {f : α → List Node}
    (hf : ∀ node a, select node = some a → node.nodes = f a) (entries : Entries) (key : String) :
    Gives (childOf decode wanted select entries key) fun a l => numbers (f a) = l := by
  have hchild : Gives (child decode entries key) fun node l => numbers node.nodes = l := by
    unfold child
    split
    · exact hd _
    · exact .throw
  refine hchild.bind fun node l hl => ?_
  split
  · rename_i a ha
    refine .pure ?_
    rw [← hf node a ha, hl, List.append_nil]
  · exact .throw

theorem gives_expression (entries : Entries) (key : String) :
    Gives (expression decode entries key) fun e l => numbers e.nodes = l := by
  refine gives_childOf hd (fun node e h => ?_) entries key
  unfold asExpression? at h
  split at h <;> cases h
  rfl

theorem gives_statement (entries : Entries) (key : String) :
    Gives (statement decode entries key) fun st l => numbers st.nodes = l := by
  refine gives_childOf hd (fun node st h => ?_) entries key
  unfold asStatement? at h
  split at h <;> cases h
  rfl

theorem gives_block (entries : Entries) (key : String) :
    Gives (block decode entries key) fun b l => numbers (Stmt.block b).nodes = l := by
  refine gives_childOf hd (fun node b h => ?_) entries key
  unfold asBlock? at h
  split at h <;> cases h
  rfl

theorem gives_goal (entries : Entries) (key : String) :
    Gives (goal decode entries key) fun g l => numbers g.nodes = l := by
  refine gives_childOf hd (fun node g h => ?_) entries key
  unfold asGoal? at h
  split at h <;> cases h
  simp only [Node.nodes, Expr.nodes]

theorem gives_predicateCall (entries : Entries) (key : String) :
    Gives (predicateCall decode entries key) fun c l => numbers c.goal.nodes = l := by
  refine gives_childOf hd (fun node c h => ?_) entries key
  unfold asPredicateCall? at h
  split at h <;> cases h
  simp only [Node.nodes, Expr.nodes, PredicateCall.goal]

theorem gives_reference (entries : Entries) (key : String) :
    Gives (reference decode entries key) fun r l => numbers [r.node] = l := by
  unfold reference
  split
  · refine Gives.fresh.bind fun id l hl => .pure ?_
    rw [hl]
    rfl
  · refine gives_childOf hd (fun node r h => ?_) entries key
    unfold asReference? at h
    split at h <;> cases h
    simp only [Node.nodes, Expr.nodes, Reference.node]

theorem gives_type (entries : Entries) (key : String) :
    Gives (type decode entries key) fun t l => numbers t.nodes = l := by
  unfold type
  split
  · refine Gives.fresh.bind fun id l hl => .pure ?_
    rw [hl]
    rfl
  · refine gives_childOf hd (fun node t h => ?_) entries key
    unfold asType? at h
    split at h <;> cases h
    rfl

omit hd in
theorem gives_optional {get : Entries → String → Decoder α} {f : α → List Node}
    (hget : ∀ entries key, Gives (get entries key) fun a l => numbers (f a) = l)
    (entries : Entries) (key : String) :
    Gives (optional get entries key) fun o l => numbers ((o.map f).getD []) = l := by
  unfold optional
  split
  · exact .pure rfl
  · refine (hget entries key).bind fun a l hl => .pure ?_
    rw [List.append_nil]
    exact hl

theorem gives_statements (ds : List Document) :
    Gives (statements decode ds) fun sts l => numbers (Stmt.nodesOfList sts) = l := by
  fun_induction statements decode ds with
  | case1 => exact .pure rfl
  | case2 inner rest ih =>
    refine (hd inner).bind fun node l hl => ?_
    cases node with
    | statement st =>
      refine ih.bind fun sts l' hl' => .pure ?_
      simpa [Stmt.nodesOfList, hl', Node.nodes] using hl
    | _ => exact .throw
  | case3 => exact .throw

theorem gives_expressions (ds : List Document) :
    Gives (expressions decode ds) fun es l => numbers (Expr.nodesOfList es) = l := by
  fun_induction expressions decode ds with
  | case1 => exact .pure rfl
  | case2 inner rest ih =>
    refine (hd inner).bind fun node l hl => ?_
    cases node with
    | expression e =>
      refine ih.bind fun es l' hl' => .pure ?_
      simpa [Expr.nodesOfList, hl', Node.nodes] using hl
    | _ => exact .throw
  | case3 => exact .throw

theorem gives_parameters (ds : List Document) :
    Gives (parameters decode ds) fun ps l => numbers (ps.flatMap Parameter.nodes) = l := by
  fun_induction parameters decode ds with
  | case1 => exact .pure rfl
  | case2 inner rest ih =>
    refine (hd _).bind fun node l hl => ?_
    cases node with
    | parameter p =>
      refine ih.bind fun ps l' hl' => .pure ?_
      simpa [hl', Node.nodes] using hl
    | _ => exact .throw
  | case3 => exact .throw

theorem gives_fields (ds : List Document) :
    Gives (fields decode ds) fun fs l => numbers (fs.flatMap FieldDecl.nodes) = l := by
  fun_induction fields decode ds with
  | case1 => exact .pure rfl
  | case2 inner rest ih =>
    refine Gives.fresh.bind fun id l hl => (gives_type hd inner _).bind fun t l' ht =>
      ih.bind fun fs l'' hfs => .pure ?_
    simp [FieldDecl.nodes, Node.mark, hl, ht, hfs]
  | case3 => exact .throw

/-- A node stands before its children. -/
theorem gives_body (entries : Entries) (kind : NodeKind) :
    Gives (body decode entries kind) fun build l => ∀ m, numbers (build m).nodes = m.id :: l := by
  cases kind with
  | root =>
    refine (gives_statements hd _).bind fun sts l h => .pure fun m => ?_
    simp [Node.nodes, Program.nodes, Node.mark, h]
  | block =>
    refine (gives_statements hd _).bind fun sts l h => .pure fun m => ?_
    simp [Node.nodes, Stmt.nodes, Node.mark, Stmt.ref, h]
  | expressionStatement =>
    refine (gives_expression hd _ _).bind fun e l h => .pure fun m => ?_
    simp [Node.nodes, Stmt.nodes, Node.mark, Stmt.ref, h]
  | varDeclaration =>
    refine (gives_optional (gives_type hd) _ _).bind fun t l ht =>
      (gives_optional (gives_expression hd) _ _).bind fun e l' he => .pure fun m => ?_
    simp [Node.nodes, Stmt.nodes, VarDecl.nodes, Node.mark, Stmt.ref, ht, he]
  | parameter =>
    refine (gives_type hd _ _).bind fun t l h => .pure fun m => ?_
    simp [Node.nodes, Parameter.nodes, Node.mark, h]
  | functionDeclaration =>
    refine (gives_parameters hd _).bind fun ps l hps =>
      (gives_optional (gives_type hd) _ _).bind fun t l' ht =>
      (gives_block hd _ _).bind fun b l'' hb => .pure fun m => ?_
    obtain ⟨mark, sts⟩ := b
    rw [Stmt.nodes] at hb
    simp [Node.nodes, Stmt.nodes, Node.mark, Stmt.ref, hps, ht, ← hb]
  | fieldDeclaration =>
    refine (gives_type hd _ _).bind fun t l h => .pure fun m => ?_
    simp [Node.nodes, FieldDecl.nodes, Node.mark, h]
  | structDeclaration =>
    refine (gives_fields hd _).bind fun fs l h => .pure fun m => ?_
    simp [Node.nodes, Stmt.nodes, StructDecl.nodes, Node.mark, Stmt.ref, h]
  | ifStatement =>
    refine (gives_expression hd _ _).bind fun e l he => (gives_statement hd _ _).bind
      fun yes l' hyes => (gives_optional (gives_statement hd) _ _).bind
      fun no l'' hno => .pure fun m => ?_
    cases no with
    | none =>
      obtain rfl : [] = l'' := hno
      simp [Node.nodes, Stmt.nodes, Node.mark, Stmt.ref, he, hyes]
    | some no =>
      obtain rfl : numbers no.nodes = l'' := hno
      simp [Node.nodes, Stmt.nodes, Node.mark, Stmt.ref, he, hyes]
  | whileStatement =>
    refine (gives_expression hd _ _).bind fun e l he =>
      (gives_statement hd _ _).bind fun st l' hst => .pure fun m => ?_
    simp [Node.nodes, Stmt.nodes, Node.mark, Stmt.ref, he, hst]
  | returnStatement =>
    refine (gives_optional (gives_expression hd) _ _).bind fun e l h => .pure fun m => ?_
    cases e with
    | none =>
      obtain rfl : [] = l := h
      simp [Node.nodes, Stmt.nodes, Node.mark, Stmt.ref]
    | some e =>
      obtain rfl : numbers e.nodes = l := h
      simp [Node.nodes, Stmt.nodes, Node.mark, Stmt.ref]
  | intLiteral =>
    refine (Gives.lift _).bind fun i l h => .pure fun m => ?_
    simp [Node.nodes, Expr.nodes, Node.mark, Expr.mark, Expr.ref, h]
  | floatLiteral =>
    refine (Gives.lift _).bind fun x l h => .pure fun m => ?_
    simp [Node.nodes, Expr.nodes, Node.mark, Expr.mark, Expr.ref, h]
  | stringLiteral | boolLiteral | nullLiteral | reference | constructor =>
    refine .pure fun m => ?_
    simp [Node.nodes, Expr.nodes, Node.mark, Expr.mark, Expr.ref]
  | arrayLiteral =>
    refine (gives_expressions hd _).bind fun es l h => .pure fun m => ?_
    simp [Node.nodes, Expr.nodes, Node.mark, Expr.mark, Expr.ref, h]
  | fieldAccess | parenthesized =>
    refine (gives_expression hd _ _).bind fun e l h => .pure fun m => ?_
    simp [Node.nodes, Expr.nodes, Node.mark, Expr.mark, Expr.ref, h]
  | arrayAccess | assignment =>
    refine (gives_expression hd _ _).bind fun e l he =>
      (gives_expression hd _ _).bind fun e' l' he' => .pure fun m => ?_
    simp [Node.nodes, Expr.nodes, Node.mark, Expr.mark, Expr.ref, he, he']
  | functionCall =>
    refine (gives_expression hd _ _).bind fun e l he =>
      (gives_expressions hd _).bind fun es l' hes => .pure fun m => ?_
    simp [Node.nodes, Expr.nodes, Node.mark, Expr.mark, Expr.ref, he, hes]
  | unaryExpression =>
    refine (gives_expression hd _ _).bind fun e l h => ?_
    split
    · exact .throw
    · refine .pure fun m => ?_
      simp [Node.nodes, Expr.nodes, Node.mark, Expr.mark, Expr.ref, h]
  | binaryExpression =>
    refine (gives_expression hd _ _).bind fun e l he =>
      (gives_expression hd _ _).bind fun e' l' he' => ?_
    split
    · refine .pure fun m => ?_
      simp [Node.nodes, Expr.nodes, Node.mark, Expr.mark, Expr.ref, he, he']
    · exact .throw
  | simpleType =>
    refine .pure fun m => ?_
    simp [Node.nodes, TypeExpr.nodes, Node.mark, TypeExpr.ref]
  | arrayType =>
    refine (gives_type hd _ _).bind fun t l h => .pure fun m => ?_
    simp [Node.nodes, TypeExpr.nodes, Node.mark, TypeExpr.ref, h]
  | atomLiteral =>
    refine .pure fun m => ?_
    simp [Node.nodes, Expr.nodes, Goal.nodes, Node.mark, Expr.mark, Expr.ref, Goal.ref]
  | atomDeclaration =>
    refine .pure fun m => ?_
    simp [Node.nodes, Stmt.nodes, Node.mark, Stmt.ref]
  | factDeclaration =>
    refine (gives_expressions hd _).bind fun es l h => .pure fun m => ?_
    simp [Node.nodes, Stmt.nodes, FactDecl.nodes, Node.mark, Stmt.ref, h]
  | ruleDeclaration =>
    refine (gives_parameters hd _).bind fun ps l hps =>
      (gives_goal hd _ _).bind fun g l' hg => .pure fun m => ?_
    simp [Node.nodes, Stmt.nodes, RuleDecl.nodes, Node.mark, Stmt.ref, hps, hg]
  | predicateCall =>
    refine (gives_expressions hd _).bind fun es l h => .pure fun m => ?_
    simp [Node.nodes, Expr.nodes, Goal.nodes, Node.mark, Expr.mark, Expr.ref, Goal.ref, h]
  | unification =>
    refine (gives_predicateCall hd _ _).bind fun c l hc =>
      (gives_predicateCall hd _ _).bind fun c' l' hc' => .pure fun m => ?_
    simp [Node.nodes, Stmt.nodes, Node.mark, Stmt.ref, hc, hc']
  | unboundParameter =>
    refine (gives_type hd _ _).bind fun t l h => .pure fun m => ?_
    simp [Node.nodes, Expr.nodes, Node.mark, Expr.mark, Expr.ref, h]
  | logicParenthesized | logicNot =>
    refine (gives_goal hd _ _).bind fun g l h => .pure fun m => ?_
    simp [Node.nodes, Expr.nodes, Goal.nodes, Node.mark, Expr.mark, Expr.ref, Goal.ref, h]
  | logicBinary =>
    refine (gives_goal hd _ _).bind fun g l hg =>
      (gives_goal hd _ _).bind fun g' l' hg' => ?_
    split
    · refine .pure fun m => ?_
      simp [Node.nodes, Expr.nodes, Goal.nodes, Node.mark, Expr.mark, Expr.ref, Goal.ref, hg, hg']
    · exact .throw
  | boolQuery =>
    refine (gives_reference hd _ _).bind fun r l hr =>
      (gives_expression hd _ _).bind fun e l' he => .pure fun m => ?_
    simp [Node.nodes, Expr.nodes, Node.mark, Expr.mark, Expr.ref, ← hr, he]
  | builtinDeclaration => exact .throw

end Children

theorem gives_node (depth : Nat) (entries : Entries) :
    Gives (node depth entries) fun node l => numbers node.nodes = l := by
  induction depth generalizing entries with
  | zero => exact .throw
  | succ depth ih =>
    refine Gives.fresh.bind fun id l hl => ?_
    dsimp only
    split
    · refine (gives_body ih entries _).bind fun build l' hbuild =>
        (Gives.lift _).bind fun place l'' hplace => .pure ?_
      simp [hl, hplace, hbuild]
    · exact .throw

end Decode

/-- The nodes of a decoded program have the numbers from zero on, in the order in which they
stand. -/
theorem Program.decode_numbers {entries : List (String × Document)} {p : Program}
    (h : Program.decode entries = .ok p) : numbers p.nodes = List.range p.nodes.length := by
  unfold Program.decode at h
  cases hnode : (Decode.node (Document.mapping entries).depth entries).run 0 with
  | error e =>
    rw [hnode] at h
    cases h
  | ok r =>
    obtain ⟨node, n⟩ := r
    rw [hnode] at h
    obtain ⟨-, hnumbers⟩ := Decode.gives_node _ _ 0 node n hnode
    cases node with
    | program q =>
      cases h
      have hlength : p.nodes.length = n := by
        simpa [numbers, Node.nodes] using congrArg List.length hnumbers
      rw [hlength, List.range_eq_range']
      exact hnumbers
    | _ => cases h

theorem Program.decode_numbered {entries : List (String × Document)} {p : Program}
    (h : Program.decode entries = .ok p) : p.Numbered := by
  rw [Numbered, Distinct, decode_numbers h]
  exact List.nodup_range

end LogicScript
