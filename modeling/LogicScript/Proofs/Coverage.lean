import LogicScript.Proofs.FieldTypes

/-! What the analysis files for every program.

The analysis goes on after an issue. So with or without issues every expression and every declaration
has a type in the end, and every block, function and rule has a scope inside the one that it stands
in. Only the uses of names may stay unresolved. -/
namespace LogicScript

open Analysis

/-- Whether a node has a type: the expressions, the parameters and the declarations do. -/
def Node.isTyped : Node → Bool
  | .expression _ | .parameter _ => true
  | .statement (.var _) | .statement (.function _) | .statement (.struct _)
  | .statement (.atom _) | .statement (.fact _) | .statement (.rule _) => true
  | _ => false

theorem Table.isSome_setType_self (t : Table) (id : Nat) (type : Ty) :
    ((t.setType id type).attributes id).type.isSome := by
  rw [type_setType_self]
  rfl

namespace Analysis

variable {all : List Node} {I : Share} {s s' : State} {i j : ScopeId} {m : Mark}

theorem IsFunctionType.isSome {type : Option Ty} (h : IsFunctionType type) : type.isSome := by
  obtain ⟨params, result, rfl⟩ := h
  rfl

/-- A scope lies directly inside another one. -/
def State.Inside (s : State) (j i : ScopeId) : Prop :=
  j < s.table.scopes.all.size ∧ (s.table.scopes.get j).parent? = some i

theorem State.Inside.kept (h : s.Inside j i) (hk : Kept all I s s') : s'.Inside j i := by
  refine ⟨Nat.lt_of_lt_of_le h.1 hk.size, ?_⟩
  rw [Scope.parent?, hk.outer j h.1]
  exact h.2

theorem openScope_inside (node : NodeRef) :
    Ends s (openScope node (some i)) fun s' j => s'.Inside j i := by
  refine ⟨(openScope_fresh [] (fun _ _ => True) node (some i)).2.1, ?_⟩
  have hget : (s.after (openScope node (some i))).table.scopes.get s.table.scopes.all.size =
      ⟨some node, s.table.scopes.chain i, ∅⟩ :=
    (Scopes.get_push (some node) (some i) _).trans (if_pos rfl)
  exact congrArg Scope.parent? hget

theorem openBlock_inside (m : Mark) : Ends s (openBlock m i) fun s' j => s'.Inside j i := by
  refine (openScope_inside ⟨.block, m⟩).bind fun s₁ j h₁ => ?_
  have hset : Ends s₁ (setScope m j) fun s' _ => s'.Inside j i := h₁
  exact hset.bind fun s₂ _ h₂ => h₂

theorem openRule_inside (d : RuleDecl) : Ends s (openRule d i) fun s' j => s'.Inside j i := by
  refine (openScope_inside ⟨.ruleDeclaration, d.mark⟩).bind fun s₁ j h₁ => ?_
  have hset : Ends s₁ (setBodyScope d.mark j) fun s' _ => s'.Inside j i := h₁
  exact hset.bind fun s₂ _ h₂ => h₂

theorem openFunction_inside (m : Mark) (params : List Parameter) (returnType : Option TypeExpr) :
    Ends s (openFunction m params returnType i) fun s' j => s'.Inside j i ∧
      IsFunctionType (s'.table.attributes m.id).type := by
  refine (functionType_filed m params returnType i).bind fun s₁ t h₁ => ?_
  have htype : Ends s₁ (setType m t) fun s' _ => IsFunctionType (s'.table.attributes m.id).type := by
    obtain ⟨ps, r, ht⟩ := h₁.1
    exact ⟨ps, r, (Table.type_setType_self ..).trans ht⟩
  refine htype.bind fun s₂ _ h₂ => ?_
  have hopen : Ends s₂ (openScope ⟨.functionDeclaration, m⟩ (some i)) fun s' j =>
      s'.Inside j i ∧ IsFunctionType (s'.table.attributes m.id).type :=
    ⟨openScope_inside ⟨.functionDeclaration, m⟩, h₂⟩
  refine hopen.bind fun s₃ j h₃ => ?_
  have hset : Ends s₃ (setBodyScope m j) fun s' _ =>
      s'.Inside j i ∧ IsFunctionType (s'.table.attributes m.id).type := by
    refine ⟨h₃.1, ?_⟩
    have hsame : ((s₃.after (setBodyScope m j)).table.attributes m.id).type =
        (s₃.table.attributes m.id).type := by
      have hkept : Plain [] (.one .bodyScope m.id) s₃ (s₃.after (setBodyScope m j)) :=
        .setBodyScope (Share.one_self ..)
      exact hkept.type_eq (by rintro ⟨⟨⟩, -⟩) (by rintro ⟨d, hd, -⟩; cases hd)
    rw [hsame]
    exact h₃.2
  exact hset.bind fun s₄ _ h₄ => h₄

/-- After the pass over a block, the block has a scope inside the one it stands in. -/
theorem block_inside {b : Block} (h : Ready all (Stmt.block b).nodes i s) :
    ∃ j, ((s.after (statement (.block b) i)).table.attributes b.mark.id).scope = some j ∧
      (s.after (statement (.block b) i)).Inside j i := by
  obtain ⟨m, body⟩ := b
  have hd : Distinct ([.statement (.block ⟨m, body⟩)] ++ Stmt.nodesOfList body) := by
    simpa [Stmt.nodes] using h.distinct
  have hready : Ready all (Stmt.nodesOfList body) i s := h.sublist (by simp [Stmt.nodes])
  have hmem : ∀ st ∈ body, .statement st ∈ all := fun st hst =>
    hready.inside (Stmt.mem_nodesOfList.mpr ⟨st, hst, st.self_mem_nodes⟩)
  have hother : ∀ {id}, Marks (Stmt.nodesOfList body) id → m.id ≠ id := by
    rintro id hid rfl
    exact hd.apart m.id ⟨_, List.mem_singleton_self _, rfl⟩ hid
  have hopen : Ends s (openBlock m i) fun s' j => s'.Inside j i ∧ Plain all (.one .scope m.id) s s' ∧
      j < s'.table.scopes.all.size ∧ (s'.table.attributes m.id).scope = some j :=
    ⟨openBlock_inside m, openBlock_files m⟩
  show Ends s (statement (.block ⟨m, body⟩) i) fun s' _ =>
    ∃ j, (s'.table.attributes m.id).scope = some j ∧ s'.Inside j i
  rw [statement]
  refine hopen.bind ?_
  rintro s₁ j ⟨hinside, h₁, hj, hfiled⟩
  have hhoist : Ends s₁ (hoist body j) fun s' _ => Step all (hoists body) s₁ s' :=
    (Step.hoist (hoists_nodup hready.distinct) hmem).1
  refine hhoist.bind fun s₂ _ h₂ => ?_
  have hbody : Ends s₂ (statements body j) fun s' _ => Step all (stmtsShare body) s₂ s' :=
    (Trace.statements body
      (((hready.next h₁.step).at_scope hj).next h₂)).step
  refine hbody.weaken fun s₃ _ h₃ => ⟨j, ?_, (hinside.kept h₂.toKept).kept h₃.toKept⟩
  rw [h₃.scope fun hs => hother (stmtsShare_within body _ _ hs).marks rfl,
    h₂.scope fun hs => hother (hoists_within body _ _ hs).marks rfl, hfiled]

/-- After the pass over a function, its body has a scope inside the one the function stands in, and the
function has a type. -/
theorem function_inside {d : FunctionDecl} (h : Ready all (Stmt.function d).nodes i s) :
    (∃ j, ((s.after (statement (.function d) i)).table.attributes d.mark.id).bodyScope = some j ∧
      (s.after (statement (.function d) i)).Inside j i) ∧
      IsFunctionType ((s.after (statement (.function d) i)).table.attributes d.mark.id).type := by
  obtain ⟨m, name, ps, returnType, ⟨bodyMark, body⟩⟩ := d
  let d : FunctionDecl := ⟨m, name, ps, returnType, ⟨bodyMark, body⟩⟩
  let params := ps.flatMap Parameter.nodes
  let blockNodes := (Stmt.block ⟨bodyMark, body⟩).nodes
  have hsub : ([Node.statement (.function d)] ++ (params ++ blockNodes)).Sublist
      (Stmt.function d).nodes := by
    rw [Stmt.nodes_function, FunctionDecl.head, List.singleton_append, List.cons_append,
      List.append_assoc]
    exact .cons_cons _ (.append_left (List.sublist_append_right ..) params)
  have hinner : Ready all (params ++ blockNodes) i s :=
    h.sublist ((List.sublist_append_right ..).trans hsub)
  have hd : Distinct ([.statement (.function d)] ++ (params ++ blockNodes)) :=
    (h.sublist hsub).distinct
  have hother : ∀ {duty : Duty}, ¬ files (params ++ blockNodes) duty m.id := fun hf =>
    hd.apart _ ⟨_, List.mem_singleton_self _, rfl⟩ hf.marks
  have hm : Function all m.id := ⟨d, h.inside (Stmt.self_mem_nodes _), rfl⟩
  have hopen : Ends s (openFunction m ps returnType i) fun s' j =>
      (s'.Inside j i ∧ IsFunctionType (s'.table.attributes m.id).type) ∧
      Plain all (.one .bodyScope m.id) s s' ∧ j < s'.table.scopes.all.size ∧
      (s'.table.attributes m.id).bodyScope = some j :=
    ⟨openFunction_inside m ps returnType, openFunction_files hm⟩
  show Ends s (statement (.function ⟨m, name, ps, returnType, ⟨bodyMark, body⟩⟩) i) fun s' _ =>
    (∃ j, (s'.table.attributes m.id).bodyScope = some j ∧ s'.Inside j i) ∧
      IsFunctionType (s'.table.attributes m.id).type
  rw [statement_function]
  refine hopen.bind ?_
  rintro s₁ j ⟨⟨hinside, htype⟩, h₁, hj, hfiled⟩
  have hbelow := (hinner.next h₁.step).at_scope hj
  have hparams : Ends s₁ (discard (parameters ps j)) fun s' _ => Step all (files params) s₁ s' :=
    (Trace.parameters ps (hbelow.sublist (List.sublist_append_left ..))).step
  refine hparams.bind fun s₂ _ h₂ => ?_
  have hblock : Ends s₂ (statement (.block ⟨bodyMark, body⟩) j) fun s' _ =>
      Step all (stmtShare (.block ⟨bodyMark, body⟩)) s₂ s' :=
    (Trace.statement _ ((hbelow.sublist (List.sublist_append_right ..)).next h₂)).step
  refine hblock.weaken fun s₃ _ h₃ => ?_
  have hkept : Kept all (files (params ++ blockNodes)) s₁ s₃ :=
    (h₂.toKept.mono fun _ _ => files_mono (List.subset_append_left ..)).trans
      (h₃.toKept.mono fun _ _ hs => files_mono (List.subset_append_right ..) hs.1)
  refine ⟨⟨j, (hkept.bodyScope hother).trans hfiled, hinside.kept hkept⟩, ?_⟩
  rw [hkept.functionType_eq hother htype]
  exact htype

theorem predicate_typed (d : Decl) (m : Mark) (functor : String) (params : List Ty) :
    Ends s (predicate d m functor params i) fun s' _ => (s'.table.attributes m.id).type.isSome := by
  have htype : Ends s (setType m (.predicate functor params)) fun s' _ =>
      (s'.table.attributes m.id).type.isSome :=
    Table.isSome_setType_self ..
  refine htype.bind fun s₁ _ h₁ => ?_
  have hfind : Ends s₁ (find i functor) fun s' _ => s' = s₁ := rfl
  refine hfind.bind ?_
  rintro s₂ found rfl
  let others : Share := fun duty _ => duty ≠ .type
  have hkept : ∀ {s' : State}, Kept [] others s₂ s' → (s'.table.attributes m.id).type.isSome :=
    fun hk => hk.typed (fun hne => hne rfl) h₁
  have hown : Ends s₂ (declare i functor d m >>= fun _ => setDecl m d) fun s' _ =>
      (s'.table.attributes m.id).type.isSome := by
    have hdeclare : Ends s₂ (declare i functor d m) fun s' _ => Adds [] others i d s₂ s' :=
      (Adds.declare s₂ i functor d (by simp [others])).1
    exact hdeclare.bind fun s₃ _ h₃ => hkept (h₃.next (.setDecl (by simp [others]))).toKept
  cases found with
  | none => exact hown
  | some pair =>
    obtain ⟨existing, owner⟩ := pair
    dsimp only
    split
    · exact hkept (.trans (.setScope (by simp [others])) (.setDecl (by simp [others])) :
        Plain [] others s₂ _).toKept
    · exact hown

/-- After the pass over a rule, its body has a scope inside the one the rule stands in, and the rule has
a type. -/
theorem rule_inside {d : RuleDecl} (h : Ready all d.nodes i s) :
    (∃ j, ((s.after (rule d i)).table.attributes d.mark.id).bodyScope = some j ∧
      (s.after (rule d i)).Inside j i) ∧
      ((s.after (rule d i)).table.attributes d.mark.id).type.isSome := by
  let params := d.parameters.flatMap Parameter.nodes
  have hd : Distinct ([.statement (.rule d)] ++ (params ++ d.body.nodes)) := by
    simpa [RuleDecl.nodes] using h.distinct
  have hinner : Ready all (params ++ d.body.nodes) i s := h.sublist (by simp [RuleDecl.nodes, params])
  have hother : ∀ {l : List Node} {duty : Duty}, l ⊆ params ++ d.body.nodes →
      ¬ files l duty d.mark.id := fun hl hf =>
    hd.apart _ ⟨_, List.mem_singleton_self _, rfl⟩ (Marks.mono hl _ hf.marks)
  have hopen : Ends s (openRule d i) fun s' j => s'.Inside j i ∧
      Plain all (.one .bodyScope d.mark.id) s s' ∧ j < s'.table.scopes.all.size ∧
      (s'.table.attributes d.mark.id).bodyScope = some j :=
    ⟨openRule_inside d, openRule_files d⟩
  show Ends s (rule d i) fun s' _ =>
    (∃ j, (s'.table.attributes d.mark.id).bodyScope = some j ∧ s'.Inside j i) ∧
      (s'.table.attributes d.mark.id).type.isSome
  rw [rule_eq]
  refine hopen.bind ?_
  rintro s₁ j ⟨hinside, h₁, hj, hfiled⟩
  have hbelow := (hinner.next h₁.step).at_scope hj
  have hparams : Ends s₁ (parameters d.parameters j) fun s' _ => Step all (files params) s₁ s' :=
    (Trace.parameters d.parameters (hbelow.sublist (List.sublist_append_left ..))).step
  refine hparams.bind fun s₂ types h₂ => ?_
  let own : Share := fun duty id => duty ≠ .bodyScope ∧ id = d.mark.id
  have hpredicate : Ends s₂ (predicate (.rule d.mark d.functor) d.mark d.functor types i) fun s' _ =>
      (s'.table.attributes d.mark.id).type.isSome ∧ Step all own s₂ s' :=
    ⟨predicate_typed .., (Step.predicate (n := .statement (.rule d)) (h.inside List.mem_cons_self) rfl
      ⟨by simp, rfl⟩ ⟨by simp, rfl⟩ ⟨by simp, rfl⟩).1⟩
  refine hpredicate.bind fun s₃ _ h₃ => ?_
  have hlogic : Ends s₃ (discard (logic d.body j)) fun s' _ => Step all (files d.body.nodes) s₃ s' :=
    (Trace.logic d.body (((hbelow.sublist (List.sublist_append_right ..)).next h₂).next h₃.2)).step
  refine hlogic.weaken fun s₄ _ h₄ => ⟨⟨j, ?_, ?_⟩, ?_⟩
  · rw [h₄.bodyScope (hother (List.subset_append_right ..)), h₃.2.bodyScope fun hown => hown.1 rfl,
      h₂.bodyScope (hother (List.subset_append_left ..)), hfiled]
  · exact ((hinside.kept h₂.toKept).kept h₃.2.toKept).kept h₄.toKept
  · exact h₄.typed (hother (List.subset_append_right ..)) h₃.1

theorem varDecl_typed (d : VarDecl) (i : ScopeId) :
    ((s.after (varDecl d i)).table.attributes d.mark.id).type.isSome := by
  obtain ⟨m, name, type, initializer⟩ := d
  cases initializer <;> cases type <;>
    exact Table.isSome_setType_self ..

theorem atom_typed (d : AtomDecl) (i : ScopeId) :
    ((s.after (atom d i)).table.attributes d.mark.id).type.isSome := by
  have hany : ∀ {s : State} {x : Pass Unit}, Ends s x fun _ _ => True := trivial
  have hfile : ∀ {s₁ : State}, Ends s₁ (setScope d.mark i >>= fun _ => setType d.mark .bool)
      fun s' _ => (s'.table.attributes d.mark.id).type.isSome :=
    Table.isSome_setType_self ..
  have hfind : Ends s (findLocal i d.name) fun _ _ => True := trivial
  refine (hfind.bind ?_ : Ends s (atom d i) fun s' _ => (s'.table.attributes d.mark.id).type.isSome)
  intro s₁ found _
  cases found with
  | none => exact hany.bind fun _ _ _ => hfile
  | some existing =>
    dsimp only
    split
    · exact hfile
    · exact hany.bind fun _ _ _ => hfile

theorem fields_keep (fs : List FieldDecl) {m : Mark} (h : (s.table.attributes m.id).type.isSome) :
    ((s.after (fields fs i)).table.attributes m.id).type.isSome := by
  induction fs generalizing s with
  | nil => exact h
  | cons f fs ih =>
    have hread : ((s.after (resolveType f.type i)).table.attributes m.id).type.isSome := by
      rw [(Reports.resolveType f.type).table]
      exact h
    refine ih (s := (s.after (resolveType f.type i)).after (setType f.mark _)) ?_
    by_cases hid : f.mark.id = m.id
    · rw [← hid]
      exact Table.isSome_setType_self ..
    · rw [type_setType_ne hid]
      exact hread

theorem fields_typed (fs : List FieldDecl) :
    ∀ f ∈ fs, ((s.after (fields fs i)).table.attributes f.mark.id).type.isSome := by
  induction fs generalizing s with
  | nil => simp
  | cons f fs ih =>
    let s₁ := (s.after (resolveType f.type i)).after (setType f.mark (resolveType f.type i s).1)
    intro g hg
    rcases List.mem_cons.mp hg with rfl | hg
    · exact fields_keep (s := s₁) fs (Table.isSome_setType_self ..)
    · exact ih (s := s₁) g hg

end Analysis

namespace Program

variable {p : Program} {v : Visit}

theorem typed_lasts (hp : p.Numbered) (hv : v ∈ p.visits) {id : Nat}
    (hshare : nodeShare v.node .type id) (h : (v.after.table.attributes id).type.isSome) :
    (p.settled.table.attributes id).type.isSome := by
  obtain ⟨I, J, hb⟩ := between hp hv
  exact hb.after.typed (hb.future _ _ hshare) h

theorem inside_lasts (hp : p.Numbered) (hv : v ∈ p.visits) {j : ScopeId}
    (h : v.after.Inside j v.scope) :
    (p.settled.table.scopes.get j).parent? = some v.scope := by
  obtain ⟨I, J, hb⟩ := between hp hv
  exact (h.kept hb.after).2

theorem visit_typed (hp : p.Numbered) (hv : v ∈ p.visits) (ht : v.node.isTyped = true) :
    (v.after.table.attributes v.node.mark.id).type.isSome := by
  have hready : Ready p.nodes v.node.nodes v.scope v.state := (lasts hp hv).ready
  obtain ⟨node, i, s⟩ := v
  cases node with
  | expression e => exact Option.isSome_iff_exists.mpr ⟨_, expression_filed e i s⟩
  | parameter q => exact Table.isSome_setType_self ..
  | statement st =>
    cases st with
    | var d => exact varDecl_typed d i
    | function d => exact (function_inside hready).2.isSome
    | struct d =>
      exact fields_keep (s := s.after (setType d.mark .type)) d.fields
        (Table.isSome_setType_self ..)
    | atom d => exact atom_typed d i
    | fact d => exact predicate_typed ..
    | rule d => exact (rule_inside hready).2
    | _ => cases ht
  | _ => cases ht

theorem function_typed (hp : p.Numbered) {d : FunctionDecl} (hd : .statement (.function d) ∈ p.nodes) :
    (p.settled.table.attributes d.mark.id).type.isSome := by
  obtain ⟨⟨_, i, s⟩, hv, rfl⟩ := p.visited hd rfl
  obtain ⟨-, hfunction⟩ := function_inside (lasts hp hv).ready
  rw [functionType_lasts hp hv hd hfunction]
  exact hfunction.isSome

/-- Every expression, every parameter and every declaration has a type in the end. -/
theorem typed_filed (hp : p.Numbered) {n : Node} (hn : n ∈ p.nodes) (ht : n.isTyped = true) :
    (p.settled.table.attributes n.mark.id).type.isSome := by
  by_cases hf : ∃ d, n = .statement (.function d)
  · obtain ⟨d, rfl⟩ := hf
    exact function_typed hp hn
  have hvisited : n.isVisited = true := by
    unfold Node.isTyped at ht
    split at ht <;> first | rfl | cases ht
  obtain ⟨v, hv, rfl⟩ := p.visited hn hvisited
  refine typed_lasts hp hv ?_ (visit_typed hp hv ht)
  have hduty : duties v.node .type = true := by
    unfold duties
    split <;> simp_all
  have hself : files v.node.nodes .type v.node.mark.id := files_self v.node.self_mem_nodes hduty
  cases hnode : v.node with
  | statement st =>
    rw [hnode] at hself
    exact ⟨hself, by rintro ⟨⟨⟩, -⟩⟩
  | _ => rwa [hnode] at hself

theorem fields_filed (hp : p.Numbered) {d : StructDecl} (hd : .statement (.struct d) ∈ p.nodes)
    {f : FieldDecl} (hf : f ∈ d.fields) :
    (p.settled.table.attributes f.mark.id).type.isSome := by
  obtain ⟨⟨_, i, s⟩, hv, rfl⟩ := p.visited hd rfl
  have hmem : .field f ∈ (Stmt.struct d).nodes := by
    simp only [Stmt.nodes, StructDecl.nodes, List.mem_cons, List.mem_flatMap]
    exact .inr ⟨f, hf, List.mem_cons_self⟩
  have hshare : nodeShare (.statement (.struct d)) .type f.mark.id :=
    ⟨files_self hmem rfl, by rintro ⟨⟨⟩, -⟩⟩
  exact typed_lasts hp hv hshare (fields_typed (s := s.after (setType d.mark .type)) d.fields f hf)

/-- A node is visited, and the scope it opens lies directly inside the scope of the visit. -/
def Encloses (p : Program) (n : Node) (opened : Attributes → Option ScopeId) : Prop :=
  (∃ v ∈ p.visits, v.node = n) ∧ ∀ v ∈ p.visits, v.node = n →
    ∃ j, opened ((analyze p).1.attributes n.mark.id) = some j ∧
      ((analyze p).1.scopes.get j).parent? = some v.scope

theorem block_encloses (hp : p.Numbered) {b : Block} (hb : .statement (.block b) ∈ p.nodes) :
    p.Encloses (.statement (.block b)) (·.scope) := by
  refine ⟨p.visited hb rfl, ?_⟩
  rintro ⟨_, i, s⟩ hv rfl
  obtain ⟨j, hfiled, hinside⟩ := block_inside (lasts hp hv).ready
  rw [analyze_eq]
  refine ⟨j, ?_, inside_lasts hp hv hinside⟩
  exact (visit_filed hp hv rfl (files_self (Stmt.self_mem_nodes _) rfl)).trans hfiled

theorem function_encloses (hp : p.Numbered) {d : FunctionDecl}
    (hd : .statement (.function d) ∈ p.nodes) :
    p.Encloses (.statement (.function d)) (·.bodyScope) := by
  refine ⟨p.visited hd rfl, ?_⟩
  rintro ⟨_, i, s⟩ hv rfl
  obtain ⟨j, hfiled, hinside⟩ := (function_inside (lasts hp hv).ready).1
  rw [analyze_eq]
  refine ⟨j, ?_, inside_lasts hp hv hinside⟩
  exact ((lasts hp hv).bodyScope (nodeShare_bodyScope (.statement (.function d)))).trans hfiled

theorem rule_encloses (hp : p.Numbered) {d : RuleDecl} (hd : .statement (.rule d) ∈ p.nodes) :
    p.Encloses (.statement (.rule d)) (·.bodyScope) := by
  refine ⟨p.visited hd rfl, ?_⟩
  rintro ⟨_, i, s⟩ hv rfl
  obtain ⟨j, hfiled, hinside⟩ := (rule_inside (lasts hp hv).ready).1
  rw [analyze_eq]
  refine ⟨j, ?_, inside_lasts hp hv hinside⟩
  exact ((lasts hp hv).bodyScope (nodeShare_bodyScope (.statement (.rule d)))).trans hfiled

/-- A program is fully attributed, with or without issues. Every expression, parameter and declaration has
a type, and so has every field of a struct. Every block has a scope, and every function and rule a scope
for its body, directly inside the scope in which the analysis came to the node. If there are no issues,
every use of a name, as a reference or a constructor, has a declaration and the scope of it. -/
theorem fully_attributed (hp : p.Numbered) :
    (∀ n ∈ p.nodes, n.isTyped = true → ((analyze p).1.attributes n.mark.id).type.isSome) ∧
    (∀ d, .statement (.struct d) ∈ p.nodes → ∀ f ∈ d.fields,
      ((analyze p).1.attributes f.mark.id).type.isSome) ∧
    (∀ b, .statement (.block b) ∈ p.nodes → p.Encloses (.statement (.block b)) (·.scope)) ∧
    (∀ d, .statement (.function d) ∈ p.nodes →
      p.Encloses (.statement (.function d)) (·.bodyScope)) ∧
    (∀ d, .statement (.rule d) ∈ p.nodes → p.Encloses (.statement (.rule d)) (·.bodyScope)) ∧
    ((analyze p).2 = [] → ∀ n ∈ p.nodes, ∀ name, n.name? = some name →
      ((analyze p).1.attributes n.mark.id).decl.isSome ∧
      ((analyze p).1.attributes n.mark.id).scope.isSome) := by
  have htable : (analyze p).1 = p.settled.table := by rw [analyze_eq]
  have hissues : (analyze p).2 = p.settled.issues := by rw [analyze_eq]
  refine ⟨fun n hn ht => ?_, fun d hd f hf => ?_, fun b => block_encloses hp,
    fun d => function_encloses hp, fun d => rule_encloses hp, fun hok n hn name hname => ?_⟩
  · rw [htable]
    exact typed_filed hp hn ht
  · rw [htable]
    exact fields_filed hp hd hf
  · rw [htable]
    obtain ⟨d, owner, -, hdecl, hscope⟩ := name_filed hp (hissues ▸ hok) hn hname
    exact ⟨Option.isSome_of_eq_some hdecl, Option.isSome_of_eq_some hscope⟩

/-- A function returns a name that means nothing. -/
def faultyBody : Block := ⟨⟨4, {}⟩, [.ret ⟨5, {}⟩ (some (.reference ⟨⟨6, {}⟩, "y"⟩))]⟩

def faulty : Program where
  mark := ⟨0, {}⟩
  statements := [.function ⟨⟨1, {}⟩, "f", [⟨⟨2, {}⟩, "x", .simple ⟨3, {}⟩ "Int"⟩], none, faultyBody⟩]

/-- The name still has a type, and the body of the function has a scope of its own. In a program without
issues a name has a declaration and a scope as well. -/
theorem faulty_attributed : faulty.Numbered ∧ (analyze faulty).2.length = 1 ∧
    ((analyze faulty).1.attributes 6).type.isSome ∧
    faulty.Encloses (.statement (.block faultyBody)) (·.scope) ∧
    ((analyze shadowed).1.attributes 14).decl.isSome := by
  have hnumbered : faulty.Numbered := by unfold Numbered Distinct; decide
  have hreference : Reference.node ⟨⟨6, {}⟩, "y"⟩ ∈ faulty.nodes := by
    simp [faulty, faultyBody, nodes, Stmt.nodesOfList, Stmt.nodes, Expr.nodes, Reference.node]
  have hbody : .statement (.block faultyBody) ∈ faulty.nodes := by
    simp [faulty, faultyBody, nodes, Stmt.nodesOfList, Stmt.nodes]
  have hname : .expression shadowedStem ∈ shadowed.nodes := by
    simp [shadowed, shadowedStem, nodes, Stmt.nodesOfList, Stmt.nodes, Expr.nodes]
  obtain ⟨htyped, -, hblock, -⟩ := fully_attributed hnumbered
  obtain ⟨-, -, -, -, -, hnames⟩ := fully_attributed shadowed_numbered
  have htype := htyped _ hreference rfl
  have hdecl := (hnames shadowed_accepted _ hname "p" rfl).1
  refine ⟨hnumbered, by decide +kernel, ?_, hblock _ hbody, ?_⟩
  · generalize (analyze faulty).1 = t at htype ⊢
    exact htype
  · generalize (analyze shadowed).1 = t at hdecl ⊢
    exact hdecl

end Program
end LogicScript
