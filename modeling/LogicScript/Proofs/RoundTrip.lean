import LogicScript.Proofs.Reading

/-! Decoding reads back what was written.

Every node of a program is decoded from the document that was written of it: by induction over the
families of nodes, with one case for each kind. -/
namespace LogicScript

namespace Style

open Decode

variable {w : Style}

-- In each case the children are read under their keys in the order of decoding, which is the order
-- of their nodes; the texts of the node are read last.
mutual

theorem decodes_expression : ∀ e : Expr, w.Decodes (w.expression e) (.expression e)
  | .int m i => by
    refine decodes_node (fun m => .expression (.int m i))
      (fun _ _ h _ => (Yields.lift ?_).last) ?_ rfl
    · exact integer_of_lookup (h.lookup_of_fields (by simp [Document.lookup]))
    · simp [Node.nodes, Expr.nodes]
  | .float m x => by
    refine decodes_node (fun m => .expression (.float m x))
      (fun _ _ h hreads => (Yields.lift ?_).last) ?_ rfl
    · have hread : readFloat64 (w.float x) = .ok x := hreads m x (by simp)
      have hvalue : value _ "value" = .number (.text (w.float x)) :=
        h.value (by simp [Document.lookup])
      simp only [Decode.float, hvalue, hread]
      rfl
    · simp [Node.nodes, Expr.nodes]
  | .string m s =>
    decodes_node (fun m => .expression (.string m s))
      (fun _ _ h _ => .pure (by rw [h.text "value" (t := s)]))
      (by simp [Node.nodes, Expr.nodes]) rfl
  | .bool m b => by
    refine decodes_node (fun m => .expression (.bool m b)) (fun _ _ h _ => .pure ?_) ?_ rfl
    · have hvalue : value _ "value" = .bool b := h.value (by simp [Document.lookup])
      rw [flag, hvalue]
    · simp [Node.nodes, Expr.nodes]
  | .null m =>
    decodes_node (fun m => .expression (.null m)) (fun _ _ _ _ => .pure rfl)
      (by simp [Node.nodes, Expr.nodes]) rfl
  | .reference ⟨m, name⟩ =>
    decodes_node (fun m => .expression (.reference ⟨m, name⟩))
      (fun _ _ h _ => .pure (by rw [h.text "name" (t := name)]))
      (by simp [Node.nodes, Expr.nodes]) rfl
  | .constructor m name =>
    decodes_node (fun m => .expression (.constructor m name))
      (fun _ _ h _ => .pure (by rw [h.text "name" (t := name)]))
      (by simp [Node.nodes, Expr.nodes]) rfl
  | .array m elements =>
    decodes_node (fun m => .expression (.array m elements))
      (fun _ _ h _ => (h.list "elements" (decodes_expressions elements)).last)
      (by simp [Node.nodes, Expr.nodes]) rfl
  | .field m stem name =>
    decodes_node (fun m => .expression (.field m stem name))
      (fun _ _ h _ => (h.child "stem" (decodes_expression stem).expression).last
        (by rw [h.text "field" (t := name)]))
      (by simp [Node.nodes, Expr.nodes]) rfl
  | .index m array index =>
    decodes_node (fun m => .expression (.index m array index))
      (fun _ _ h _ => (h.child "array" (decodes_expression array).expression).bind
        (h.child "index" (decodes_expression index).expression).last)
      (by simp [Node.nodes, Expr.nodes]) rfl
  | .call m callee arguments =>
    decodes_node (fun m => .expression (.call m callee arguments))
      (fun _ _ h _ => (h.child "callee" (decodes_expression callee).expression).bind
        (h.list "arguments" (decodes_expressions arguments)).last)
      (by simp [Node.nodes, Expr.nodes]) rfl
  | .not m operand => by
    refine decodes_node (fun m => .expression (.not m operand))
      (fun _ _ h _ => (h.child "operand" (decodes_expression operand).expression).last ?_) ?_ rfl
    · rw [h.text "operator" (t := "!")]
      rfl
    · simp [Node.nodes, Expr.nodes]
  | .binary m op left right => by
    refine decodes_node (fun m => .expression (.binary m op left right))
      (fun _ _ h _ => (h.child "left" (decodes_expression left).expression).bind
        ((h.child "right" (decodes_expression right).expression).last ?_)) ?_ rfl
    · rw [h.text "operator" (t := op.text), BinaryOp.ofText?_text]
    · simp [Node.nodes, Expr.nodes]
  | .assign m target value =>
    decodes_node (fun m => .expression (.assign m target value))
      (fun _ _ h _ => (h.child "left" (decodes_expression target).expression).bind
        (h.child "right" (decodes_expression value).expression).last)
      (by simp [Node.nodes, Expr.nodes]) rfl
  | .paren m inner =>
    decodes_node (fun m => .expression (.paren m inner))
      (fun _ _ h _ => (h.child "expression" (decodes_expression inner).expression).last)
      (by simp [Node.nodes, Expr.nodes]) rfl
  | .query m target question =>
    decodes_node (fun m => .expression (.query m target question))
      (fun _ _ h _ => (h.child "target" (gets_target target)).bind
        (h.child "query" (decodes_expression question).expression).last)
      (by simp [Node.nodes, Expr.nodes]) rfl
  | .placeholder m name t =>
    decodes_node (fun m => .expression (.placeholder m name t))
      (fun _ _ h _ => h.annotated.2.last (by rw [h.annotated.1]))
      (by simp [Node.nodes, Expr.nodes]) rfl (plain_annotated ..)
  | .logic goal => decodes_logic goal

theorem decodes_expressions :
    ∀ es : List Expr, w.DecodesAll Decode.expressions (w.expressions es) (Expr.nodesOfList es) es
  | [] => decodesAll_nil
  | e :: es => (decodes_expression e).cons_expressions (decodes_expressions es)

theorem decodes_logic : ∀ g : Goal, w.Decodes (w.logic g) (.expression (.logic g))
  | .atom m name =>
    decodes_node (fun m => .expression (.logic (.atom m name)))
      (fun _ _ h _ => .pure (by rw [h.text "name" (t := name)]))
      (by simp [Node.nodes, Expr.nodes, Goal.nodes]) rfl
  | .call m functor arguments =>
    decodes_node (fun m => .expression (.logic (.call m functor arguments)))
      (fun _ _ h _ => (h.list "arguments" (decodes_expressions arguments)).last
        (by rw [h.text "functor" (t := functor)]))
      (by simp [Node.nodes, Expr.nodes, Goal.nodes]) rfl
  | .paren m inner =>
    decodes_node (fun m => .expression (.logic (.paren m inner)))
      (fun _ _ h _ => (h.child "expression" (decodes_logic inner).goal).last)
      (by simp [Node.nodes, Expr.nodes, Goal.nodes]) rfl
  | .not m operand =>
    decodes_node (fun m => .expression (.logic (.not m operand)))
      (fun _ _ h _ => (h.child "operand" (decodes_logic operand).goal).last)
      (by simp [Node.nodes, Expr.nodes, Goal.nodes]) rfl
  | .binary m op left right => by
    refine decodes_node (fun m => .expression (.logic (.binary m op left right)))
      (fun _ _ h _ => (h.child "left" (decodes_logic left).goal).bind
        ((h.child "right" (decodes_logic right).goal).last ?_)) ?_ rfl
    · rw [h.text "operator" (t := op.text)]
      cases op <;> rfl
    · simp [Node.nodes, Expr.nodes, Goal.nodes]

end

mutual

theorem decodes_statement : ∀ s : Stmt, w.Decodes (w.statement s) (.statement s)
  | .block ⟨m, body⟩ =>
    decodes_node (fun m => .statement (.block ⟨m, body⟩))
      (fun _ _ h _ => (h.list "statements" (decodes_statements body)).last)
      (by simp [Node.nodes, Stmt.nodes]) rfl
  | .expr m e =>
    decodes_node (fun m => .statement (.expr m e))
      (fun _ _ h _ => (h.child "expression" (decodes_expression e).expression).last)
      (by simp [Node.nodes, Stmt.nodes]) rfl
  | .var ⟨m, name, t, e⟩ =>
    decodes_node (fun m => .statement (.var ⟨m, name, t, e⟩))
      (fun _ _ h _ => (h.optional "annotation" t gets_type).bind
        ((h.optional "initializer" e fun e => (decodes_expression e).expression).last
          (by rw [h.text "name" (t := name)])))
      (by simp [Node.nodes, Stmt.nodes, VarDecl.nodes]) rfl
  | .function ⟨m, name, parameters, returnType, ⟨bm, body⟩⟩ => by
    have hbody : w.Decodes (node .block bm [("statements", .list (w.statements body))])
        (.statement (.block ⟨bm, body⟩)) :=
      decodes_node (fun m => .statement (.block ⟨m, body⟩))
        (fun _ _ h _ => (h.list "statements" (decodes_statements body)).last)
        (by simp [Node.nodes, Stmt.nodes]) rfl
    refine decodes_node
      (fun m => .statement (.function ⟨m, name, parameters, returnType, ⟨bm, body⟩⟩))
      (fun _ _ h _ => (h.list "parameters" (decodes_parameters parameters)).bind
        ((h.optional "returnType" returnType gets_type).bind
          ((h.child "body" hbody.block).last (by rw [h.text "name" (t := name)])))) ?_ rfl
    simp [Node.nodes, Stmt.nodes]
  | .struct ⟨m, name, fields⟩ =>
    decodes_node (fun m => .statement (.struct ⟨m, name, fields⟩))
      (fun _ _ h _ => (h.list "fields" (decodes_fields fields)).last
        (by rw [h.text "name" (t := name)]))
      (by simp [Node.nodes, Stmt.nodes, StructDecl.nodes]) rfl
  | .cond m condition yes none =>
    decodes_node (fun m => .statement (.cond m condition yes none))
      (fun _ _ h _ => (h.child "condition" (decodes_expression condition).expression).bind
        ((h.child "then" (decodes_statement yes).statement).bind (h.absent "else" _).last))
      (by simp [Node.nodes, Stmt.nodes]) rfl
  | .cond m condition yes (some no) =>
    decodes_node (fun m => .statement (.cond m condition yes (some no)))
      (fun _ _ h _ => (h.child "condition" (decodes_expression condition).expression).bind
        ((h.child "then" (decodes_statement yes).statement).bind
          (h.present "else" (decodes_statement no).statement).last))
      (by simp [Node.nodes, Stmt.nodes]) rfl
  | .loop m condition body =>
    decodes_node (fun m => .statement (.loop m condition body))
      (fun _ _ h _ => (h.child "condition" (decodes_expression condition).expression).bind
        (h.child "body" (decodes_statement body).statement).last)
      (by simp [Node.nodes, Stmt.nodes]) rfl
  | .ret m value => by
    refine decodes_node (fun m => .statement (.ret m value))
      (fun _ _ h _ =>
        (h.optional "expression" value fun e => (decodes_expression e).expression).last) ?_ rfl
    cases value <;> simp [Node.nodes, Stmt.nodes]
  | .atom ⟨m, name⟩ =>
    decodes_node (fun m => .statement (.atom ⟨m, name⟩))
      (fun _ _ h _ => .pure (by rw [h.text "name" (t := name)]))
      (by simp [Node.nodes, Stmt.nodes]) rfl
  | .fact ⟨m, functor, arguments⟩ =>
    decodes_node (fun m => .statement (.fact ⟨m, functor, arguments⟩))
      (fun _ _ h _ => (h.list "arguments" (decodes_expressions arguments)).last
        (by rw [h.text "functor" (t := functor)]))
      (by simp [Node.nodes, Stmt.nodes, FactDecl.nodes]) rfl
  | .rule ⟨m, functor, parameters, body⟩ =>
    decodes_node (fun m => .statement (.rule ⟨m, functor, parameters, body⟩))
      (fun _ _ h _ => (h.list "parameters" (decodes_parameters parameters)).bind
        ((h.child "body" (decodes_logic body).goal).last
          (by rw [h.text "functor" (t := functor)])))
      (by simp [Node.nodes, Stmt.nodes, RuleDecl.nodes]) rfl
  | .unify m left right =>
    decodes_node (fun m => .statement (.unify m left right))
      (fun _ _ h _ => (h.child "left" (decodes_logic left.goal).predicateCall).bind
        (h.child "right" (decodes_logic right.goal).predicateCall).last)
      (by simp [Node.nodes, Stmt.nodes]) rfl

theorem decodes_statements :
    ∀ ss : List Stmt, w.DecodesAll Decode.statements (w.statements ss) (Stmt.nodesOfList ss) ss
  | [] => decodesAll_nil
  | s :: rest => (decodes_statement s).cons_statements (decodes_statements rest)

end

theorem decodes_program (p : Program) {depth : Nat}
    (hdepth : (Document.mapping (w.program p)).depth ≤ depth) :
    w.Yields (Decode.node depth (w.program p)) p.nodes (.program p) := by
  have hroot : w.Decodes (node .root p.mark [("statements", .list (w.statements p.statements))])
      (.program p) :=
    decodes_node (fun m => .program ⟨m, p.statements⟩)
      (fun _ _ h _ => (h.list "statements" (decodes_statements p.statements)).last) rfl rfl
  obtain ⟨es, hes, hnode⟩ := hroot
  obtain rfl : w.program p = es := by simpa [node, program] using hes
  exact hnode depth hdepth

end Style

/-- A program is decoded from what was written of it, in whatever style. Decoding numbers the nodes
in the order in which it meets them, as the nodes of every decoded program are. -/
theorem Program.decode_written (w : Style) (p : Program)
    (hnumbers : numbers p.nodes = List.range p.nodes.length)
    (hfloat : ∀ m x, Node.expression (.float m x) ∈ p.nodes → readFloat64 (w.float x) = .ok x) :
    Program.decode (w.program p) = .ok p := by
  have hdecoded := Style.decodes_program (w := w) p (Nat.le_refl _) hfloat 0
    (by rw [hnumbers, List.range_eq_range'])
  unfold Program.decode
  rw [StateT.run, hdecoded]
  rfl

/-- Shortest decimals, and bare names and implied kinds wherever they are possible. -/
def Style.terse : Style := ⟨FloatFormat.datalog.write, fun _ => true, fun _ => true⟩

/-- A struct with a field, a function that returns the array of 1.5, and a query. -/
def Program.sample : Program :=
  ⟨⟨0, ⟨1, 1⟩⟩,
   [.struct ⟨⟨1, {}⟩, "Point", [⟨⟨2, ⟨2, 3⟩⟩, "x", .simple ⟨3, {}⟩ "Float"⟩]⟩,
    .function ⟨⟨4, {}⟩, "scale", [⟨⟨5, {}⟩, "by", .simple ⟨6, ⟨4, 9⟩⟩ "Int"⟩],
      some (.array ⟨7, {}⟩ (.simple ⟨8, {}⟩ "Float")),
      ⟨⟨9, {}⟩, [.ret ⟨10, {}⟩ (some (.array ⟨11, {}⟩ [.float ⟨12, {}⟩ ⟨0x3FF8000000000000⟩]))]⟩⟩,
    .expr ⟨13, {}⟩ (.query ⟨14, {}⟩ ⟨⟨15, {}⟩, "known"⟩ (.logic (.atom ⟨16, {}⟩ "safe")))]⟩

theorem Program.decode_terse :
    numbers sample.nodes = List.range sample.nodes.length ∧
    (∀ m x, Node.expression (.float m x) ∈ sample.nodes →
      readFloat64 (Style.terse.float x) = .ok x) ∧
    Program.decode (Style.terse.program sample) = .ok sample := by
  have hnumbers : numbers sample.nodes = List.range sample.nodes.length := by rfl
  have hfloat : ∀ m x, Node.expression (.float m x) ∈ sample.nodes →
      readFloat64 (Style.terse.float x) = .ok x := by
    intro m x hmem
    have hliteral : m = ⟨12, {}⟩ ∧ x = ⟨0x3FF8000000000000⟩ := by
      simpa [sample, Program.nodes, Stmt.nodesOfList, Stmt.nodes, StructDecl.nodes,
        FieldDecl.nodes, Parameter.nodes, TypeExpr.nodes, Expr.nodes, Expr.nodesOfList, Goal.nodes,
        Reference.node] using hmem
    rw [hliteral.2]
    rfl
  exact ⟨hnumbers, hfloat, Program.decode_written Style.terse sample hnumbers hfloat⟩

end LogicScript
