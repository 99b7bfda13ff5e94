import LogicScript.Proofs.Resolution

/-! What is filed for the nodes of a program that is analysed without issues. -/
namespace LogicScript

open Analysis

def Table.EntersAll (t : Table) (i : ScopeId) (ps : List Parameter) : Prop :=
  ∀ p ∈ ps, t.scopes.findLocal i p.name = some (.parameter p.mark p.name)

namespace Analysis

variable {all : List Node} {s : State} {i : ScopeId}

theorem declare_enters {name : String} {d : Decl} {m : Mark} (hi : i < s.table.scopes.all.size)
    (h : (s.after (declare i name d m)).issues = []) :
    (s.after (declare i name d m)).table.scopes.findLocal i name = some d := by
  have henter : Ends s (enter i name d) fun s' free => free = true →
      s'.table.scopes.findLocal i name = some d := fun hfree =>
    Scopes.findLocal_declare_self hi hfree
  refine (henter.bind ?_ : Ends s (declare i name d m) fun s' _ => s'.issues = [] →
    s'.table.scopes.findLocal i name = some d) h
  intro s' free hfree hissues
  cases free with
  | true => exact hfree rfl
  | false =>
    have hreported : s'.issues ++ [⟨m.span, .alreadyDeclared name⟩] = [] := hissues
    simp at hreported

/-- A name is declared in a scope for a node, with a type. -/
structure Declares (s : State) (i : ScopeId) (name : String) (d : Decl) (m : Mark) (t : Ty) :
    Prop where
  scope : (s.table.attributes m.id).scope = some i
  entry : s.table.scopes.findLocal i name = some d
  type : (s.table.attributes m.id).type = some t

theorem issues_setType (s : State) (m : Mark) (t : Ty) :
    (s.after (setType m t)).issues = s.issues := rfl

theorem declare_typed {name : String} {d : Decl} {m : Mark} {t : Ty}
    (hi : i < s.table.scopes.all.size)
    (h : ((s.after (declare i name d m)).after (setType m t)).issues = []) :
    Declares ((s.after (declare i name d m)).after (setType m t)) i name d m t := by
  rw [issues_setType] at h
  have hscope : ((s.after (declare i name d m)).table.attributes m.id).scope = some i :=
    (Adds.declare s i name d (Share.one_self .scope m.id) : Adds [] _ i d s _ ∧ _).2
  have hentry := declare_enters hi h
  generalize s.after (declare i name d m) = s' at hscope hentry ⊢
  exact ⟨(Table.scope_setType ..).trans hscope, hentry, Table.type_setType_self ..⟩

theorem varDecl_declares {d : VarDecl} (h : Ready all d.nodes i s)
    (hok : (s.after (varDecl d i)).issues = []) :
    ∃ t, Declares (s.after (varDecl d i)) i d.name (.var d.mark d.name) d.mark t := by
  obtain ⟨m, name, type, initializer⟩ := d
  have hsize : ∀ (s' : State) (type : TypeExpr), s.table.scopes.all.size ≤ s'.table.scopes.all.size →
      i < (s'.after (resolveType type i)).table.scopes.all.size := fun s' type hle =>
    Nat.lt_of_lt_of_le (Nat.lt_of_lt_of_le h.there hle)
      (Nat.le_of_eq (by rw [(Reports.resolveType type).table]))
  cases initializer with
  | none =>
    cases type with
    | none => exact ⟨_, declare_typed h.there hok⟩
    | some type => exact ⟨_, declare_typed (hsize s type (Nat.le_refl _)) hok⟩
  | some e =>
    have hready : Ready all e.nodes i s := h.sublist (by simp [VarDecl.nodes])
    have he := (Trace.expression e hready).step
    cases type with
    | none => exact ⟨_, declare_typed (Nat.lt_of_lt_of_le h.there he.size) hok⟩
    | some type => exact ⟨_, declare_typed (hsize _ type he.size) hok⟩

theorem parameter_declares {p : Parameter} (hi : i < s.table.scopes.all.size)
    (hok : (s.after (parameter p i)).issues = []) :
    ∃ t, Declares (s.after (parameter p i)) i p.name (.parameter p.mark p.name) p.mark t := by
  have hsize : i < (s.after (resolveType p.type i)).table.scopes.all.size := by
    rw [(Reports.resolveType p.type).table]
    exact hi
  exact ⟨_, declare_typed hsize hok⟩

theorem parameters_enter {ps : List Parameter} (h : Ready all (ps.flatMap Parameter.nodes) i s)
    (hok : (s.after (parameters ps i)).issues = []) :
    (s.after (parameters ps i)).table.EntersAll i ps := by
  induction ps generalizing s with
  | nil =>
    intro p hp
    cases hp
  | cons p ps ih =>
    have h' : Ready all (p.nodes ++ ps.flatMap Parameter.nodes) i s := by simpa using h
    have hstep : Step all (files [.parameter p]) s (s.after (parameter p i)) :=
      Step.parameter (h'.inside (List.mem_append_left _ List.mem_cons_self))
    have hready := (h'.sublist (List.sublist_append_right ..)).next hstep
    have hrest := (Trace.parameters ps hready).step
    obtain ⟨t, hfirst⟩ := parameter_declares h.there (hrest.issues_nil hok)
    intro q hq
    rcases List.mem_cons.mp hq with rfl | hq
    · exact hrest.declared hfirst.entry
    · exact ih hready hok q hq

/-- A scope declares the functions and structs of a list, or there is an issue. -/
structure State.Hoisted (s : State) (i : ScopeId) (ss : List Stmt) : Prop where
  entry : s.issues = [] → ∀ st ∈ ss, isHoisted st = true → ∀ d,
    (Node.statement st).declares = some d → s.table.scopes.findLocal i d.name = some d

theorem hoist_enters {ss : List Stmt} (hd : (ss.map fun st => st.ref.mark.id).Nodup)
    (hall : ∀ st ∈ ss, .statement st ∈ all) (hi : i < s.table.scopes.all.size) :
    (s.after (hoist ss i)).Hoisted i ss := by
  refine ⟨fun hok => ?_⟩
  induction ss generalizing s with
  | nil =>
    intro st hst
    cases hst
  | cons first rest ih =>
    have hd' := (List.nodup_cons.mp hd).2
    have hall' := fun st hst => hall st (List.mem_cons_of_mem _ hst)
    have hdeclared : ∀ {name : String} {d : Decl} {m : Mark},
        (Node.statement first).declares = some d → d.name = name →
        s.after (hoist (first :: rest) i) = (s.after (declare i name d m)).after (hoist rest i) →
        ∀ st ∈ first :: rest, isHoisted st = true → ∀ d, (Node.statement st).declares = some d →
          (s.after (hoist (first :: rest) i)).table.scopes.findLocal i d.name = some d := by
      rintro name d m hfirst rfl hafter st hst hh e he
      have hstep : Kept all (fun _ _ => True) s (s.after (declare i d.name d m)) :=
        (Adds.declare s i d.name d trivial : Adds all _ i d s _ ∧ _).1.toKept
      have hrest := (Step.hoist (s := s.after (declare i d.name d m)) (i := i) hd' hall').1
      rw [hafter] at hok ⊢
      rcases List.mem_cons.mp hst with rfl | hst
      · obtain rfl : d = e := Option.some.inj (hfirst.symm.trans he)
        exact hrest.declared (declare_enters hi (hrest.issues_nil hok))
      · exact ih hd' hall' (Nat.lt_of_lt_of_le hi hstep.size) hok st hst hh e he
    cases first with
    | function d => exact hdeclared rfl rfl rfl
    | struct d => exact hdeclared rfl rfl rfl
    | _ =>
      intro st hst hh
      rcases List.mem_cons.mp hst with rfl | hst
      · cases hh
      · exact ih hd' hall' hi hok st hst hh

/-- After the pass over a block, the block and its functions and structs have their scope, which
declares them. -/
theorem block_files {b : Block} (h : Ready all (Stmt.block b).nodes i s) :
    ∃ inner, ((s.after (statement (.block b) i)).table.attributes b.mark.id).scope = some inner ∧
      (∀ st ∈ b.statements, isHoisted st = true →
        ((s.after (statement (.block b) i)).table.attributes st.ref.mark.id).scope = some inner) ∧
      (s.after (statement (.block b) i)).Hoisted inner b.statements := by
  obtain ⟨m, body⟩ := b
  have hd : Distinct ([.statement (.block ⟨m, body⟩)] ++ Stmt.nodesOfList body) := by
    simpa [Stmt.nodes] using h.distinct
  obtain ⟨hopen, hinner, hm, hhoisted⟩ := openBlock_hoist (by simpa [Stmt.nodes] using h)
  have hready : Ready all (Stmt.nodesOfList body) i s := h.sublist (by simp [Stmt.nodes])
  have hbody := (Trace.statements body ((hready.next hopen).at_scope hinner)).step
  have hmem : ∀ st ∈ body, .statement st ∈ all := fun st hst =>
    hready.inside (Stmt.mem_nodesOfList.mpr ⟨st, hst, st.self_mem_nodes⟩)
  have hentered : Ends s (openBlock m i >>= fun inner => hoist body inner >>= fun _ => pure inner)
      fun s' inner => s'.Hoisted inner body :=
    (openBlock_files m : Ends s _ fun s' inner => Plain all _ s s' ∧ _).bind
      fun s₁ inner h₁ => hoist_enters (hoists_nodup hready.distinct) hmem h₁.2.1
  refine ⟨_, (hbody.scope fun hs => ?_).trans hm, fun st hst hh => ?_,
    ⟨fun hok st hst hh d hdeclares => ?_⟩⟩
  · exact hd.apart m.id ⟨_, List.mem_singleton_self _, rfl⟩ (stmtsShare_within body _ _ hs).marks
  · refine (hbody.scope ?_).trans (hhoisted st hst hh)
    exact hoists_apart (List.nodup_cons.mp hd).2 _ _ ⟨rfl, st, hst, hh, rfl⟩
  · exact hbody.declared (hentered.entry (hbody.issues_nil hok) st hst hh d hdeclares)

/-- After the pass over a rule, the rule and its body have their scopes, and the parameters are
declared. -/
theorem rule_files {d : RuleDecl} (h : Ready all d.nodes i s) :
    ((s.after (rule d i)).table.attributes d.mark.id).scope.isSome ∧
      ∃ body, ((s.after (rule d i)).table.attributes d.mark.id).bodyScope = some body ∧
        ((s.after (rule d i)).issues = [] →
          (s.after (rule d i)).table.EntersAll body d.parameters) := by
  let params := d.parameters.flatMap Parameter.nodes
  have hd : Distinct ([.statement (.rule d)] ++ (params ++ d.body.nodes)) := by
    simpa [RuleDecl.nodes] using h.distinct
  have hinner : Ready all (params ++ d.body.nodes) i s := h.sublist (by simp [RuleDecl.nodes, params])
  have hother : ∀ {l : List Node} {duty : Duty}, l ⊆ params ++ d.body.nodes →
      ¬ files l duty d.mark.id := fun hl hf =>
    hd.apart _ ⟨_, List.mem_singleton_self _, rfl⟩ (Marks.mono hl _ hf.marks)
  let own : Share := fun duty id => duty ≠ .bodyScope ∧ id = d.mark.id
  show Ends s (rule d i) fun s' _ => (s'.table.attributes d.mark.id).scope.isSome ∧
    ∃ body, (s'.table.attributes d.mark.id).bodyScope = some body ∧
      (s'.issues = [] → s'.table.EntersAll body d.parameters)
  rw [rule_eq]
  refine (openRule_files d : Ends s _ fun s' body => Plain all _ s s' ∧ _).bind ?_
  rintro s₁ body ⟨hopen, hbody, hfiled⟩
  have h₁ := (hinner.next hopen.step).at_scope hbody
  have hready := h₁.sublist (List.sublist_append_left ..)
  have hparams : Ends s₁ (parameters d.parameters body) fun s' _ => Step all (files params) s₁ s' ∧
      (s'.issues = [] → s'.table.EntersAll body d.parameters) :=
    ⟨(Trace.parameters d.parameters hready).step, parameters_enter hready⟩
  refine hparams.bind ?_
  rintro s₂ types ⟨h₂, hentered⟩
  have hpredicate : Ends s₂ (predicate (.rule d.mark d.functor) d.mark d.functor types i) fun s' _ =>
      Step all own s₂ s' ∧ (s'.table.attributes d.mark.id).scope.isSome :=
    Step.predicate (n := .statement (.rule d)) (h.inside List.mem_cons_self) rfl
      ⟨by simp, rfl⟩ ⟨by simp, rfl⟩ ⟨by simp, rfl⟩
  refine hpredicate.bind fun s₃ _ h₃ => ?_
  have hlogic : Ends s₃ (logic d.body body) fun s' _ => Step all (files d.body.nodes) s₃ s' :=
    (Trace.logic d.body (((h₁.sublist (List.sublist_append_right ..)).next h₂).next h₃.1)).step
  refine hlogic.discard.weaken fun s₄ _ h₄ => ⟨?_, ?_⟩
  · rw [h₄.scope (hother (List.subset_append_right ..))]
    exact h₃.2
  · refine ⟨body, ?_, fun hok q hq => ?_⟩
    · rw [h₄.bodyScope (hother (List.subset_append_right ..)),
        h₃.1.bodyScope fun hown => hown.1 rfl, h₂.bodyScope (hother (List.subset_append_left ..)),
        hfiled]
    · have hok := h₃.1.issues_nil (h₄.issues_nil hok)
      exact h₄.declared (h₃.1.declared (hentered hok q hq))

/-- A function is opened, its parameters are declared, and its body is walked. -/
theorem statement_function (m : Mark) (name : String) (ps : List Parameter)
    (returnType : Option TypeExpr) (body : Block) (i : ScopeId) :
    statement (.function ⟨m, name, ps, returnType, body⟩) i =
      (openFunction m ps returnType i >>= fun outer => discard (parameters ps outer) >>=
        fun _ => statement (.block body) outer) := by
  obtain ⟨bodyMark, body⟩ := body
  rw [statement, signature_eq]
  simp only [bind_assoc, pure_bind, statement]

/-- After the pass over a function, its body has a scope, and the parameters are declared. -/
theorem function_files {d : FunctionDecl} (h : Ready all (Stmt.function d).nodes i s) :
    ∃ body, ((s.after (statement (.function d) i)).table.attributes d.mark.id).bodyScope =
        some body ∧
      ((s.after (statement (.function d) i)).issues = [] →
        (s.after (statement (.function d) i)).table.EntersAll body d.parameters) := by
  obtain ⟨m, name, ps, returnType, ⟨bodyMark, body⟩⟩ := d
  let d : FunctionDecl := ⟨m, name, ps, returnType, ⟨bodyMark, body⟩⟩
  let params := ps.flatMap Parameter.nodes
  let blockNodes := (Stmt.block ⟨bodyMark, body⟩).nodes
  have hsub : ([Node.statement (.function d)] ++ (params ++ blockNodes)).Sublist
      (Stmt.function d).nodes := by
    rw [Stmt.nodes_function, FunctionDecl.head, List.singleton_append, List.cons_append,
      List.append_assoc]
    exact .cons_cons _ (.append_left (List.sublist_append_right ..) params)
  have hinner : Ready all (params ++ blockNodes) i s :=
    h.sublist ((List.sublist_append_right ..).trans hsub)
  have hd : Distinct ([.statement (.function d)] ++ (params ++ blockNodes)) :=
    (h.sublist hsub).distinct
  have hother : ∀ {l : List Node} {duty : Duty}, l ⊆ params ++ blockNodes →
      ¬ files l duty m.id := fun hl hf =>
    hd.apart _ ⟨_, List.mem_singleton_self _, rfl⟩ (Marks.mono hl _ hf.marks)
  have hm : Function all m.id := ⟨d, h.inside (Stmt.self_mem_nodes _), rfl⟩
  show Ends s (statement (.function ⟨m, name, ps, returnType, ⟨bodyMark, body⟩⟩) i) fun s' _ =>
    ∃ outer, (s'.table.attributes m.id).bodyScope = some outer ∧
      (s'.issues = [] → s'.table.EntersAll outer ps)
  rw [statement_function]
  refine (openFunction_files hm : Ends s _ fun s' body => Plain all _ s s' ∧ _).bind ?_
  rintro s₁ outer ⟨hopen, houter, hfiled⟩
  have h₁ := (hinner.next hopen.step).at_scope houter
  have hready := h₁.sublist (List.sublist_append_left ..)
  have hparams : Ends s₁ (discard (parameters ps outer)) fun s' _ => Step all (files params) s₁ s' ∧
      (s'.issues = [] → s'.table.EntersAll outer ps) :=
    ⟨(Trace.parameters ps hready).step, parameters_enter hready⟩
  refine hparams.bind ?_
  rintro s₂ - ⟨h₂, hentered⟩
  have hblock : Ends s₂ (statement (.block ⟨bodyMark, body⟩) outer) fun s' _ =>
      Step all (files blockNodes) s₂ s' :=
    ((Trace.statement _ ((h₁.sublist (List.sublist_append_right ..)).next h₂)).step.mono
      fun _ _ h => h.1)
  refine hblock.weaken fun s₃ _ h₃ => ⟨outer, ?_, fun hok q hq => ?_⟩
  · rw [h₃.bodyScope (hother (List.subset_append_right ..)),
      h₂.bodyScope (hother (List.subset_append_left ..)), hfiled]
  · exact h₃.declared (hentered (h₃.issues_nil hok) q hq)

end Analysis

/-- What a visit filed is there in the end. -/
structure Program.Lasts (p : Program) (v : Visit) : Prop where
  ready : Ready p.nodes v.node.nodes v.scope v.state
  declared : ∀ {i name d}, v.after.table.scopes.findLocal i name = some d →
    p.settled.table.scopes.findLocal i name = some d
  scope : ∀ {id}, nodeShare v.node .scope id →
    (p.settled.table.attributes id).scope = (v.after.table.attributes id).scope
  decl : ∀ {id}, nodeShare v.node .decl id →
    (p.settled.table.attributes id).decl = (v.after.table.attributes id).decl
  bodyScope : ∀ {id}, nodeShare v.node .bodyScope id →
    (p.settled.table.attributes id).bodyScope = (v.after.table.attributes id).bodyScope
  type : ∀ {id}, nodeShare v.node .type id → ¬ Function p.nodes id →
    (p.settled.table.attributes id).type = (v.after.table.attributes id).type
  issues : p.settled.issues = [] → v.after.issues = []

theorem Program.lasts {p : Program} (hp : p.Numbered) {v : Visit} (hv : v ∈ p.visits) :
    p.Lasts v := by
  obtain ⟨I, J, hb⟩ := between hp hv
  exact ⟨⟨hb.distinct, hb.inside, hb.known, hb.there⟩, hb.after.declared,
    fun h => hb.after.scope (hb.future _ _ h), fun h => hb.after.decl (hb.future _ _ h),
    fun h => hb.after.bodyScope (hb.future _ _ h),
    fun h hf => hb.after.type_eq (hb.future _ _ h) hf, hb.after.issues_nil⟩

theorem Program.nodes_inside {p : Program} (hp : p.Numbered) {n : Node} (hn : n ∈ p.nodes)
    (h : n.isVisited = true) : n.nodes ⊆ p.nodes := by
  obtain ⟨v, hv, rfl⟩ := p.visited hn h
  exact (lasts hp hv).ready.inside

/-- A name that is resolved on the spot is resolved to something if there are no issues. -/
theorem Program.name_filed {p : Program} (hp : p.Numbered) (hok : p.settled.issues = []) {n : Node}
    {name : String} (hn : n ∈ p.nodes) (hname : n.name? = some name) : ∃ d owner, n.Accepts d ∧
      (p.settled.table.attributes n.mark.id).decl = some d ∧
      (p.settled.table.attributes n.mark.id).scope = some owner := by
  obtain ⟨v, hv, rfl⟩ := p.visited hn (Node.isVisited_of_name hname)
  have hlasts := lasts hp hv
  rcases (Visit.finds hname hlasts.ready.known).2 with ⟨-, hissues⟩ | ⟨d, owner, -, hd, hdecl, hscope⟩
  · exact absurd (hlasts.issues hok) hissues
  · refine ⟨d, owner, hd, ?_, ?_⟩
    · rw [hlasts.decl (nodeShare_name hname).1, hdecl]
    · rw [hlasts.scope (nodeShare_name hname).2, hscope]

theorem Program.root_visited {p : Program} (hp : p.Numbered) {v : Visit} (hv : v ∈ p.visits)
    (hsize : v.state.table.scopes.all.size ≤ v.after.table.scopes.all.size)
    (hchain : v.after.table.scopes.chain v.scope = v.state.table.scopes.chain v.scope) :
    v.state.table.scopes.root v.scope = 0 := by
  obtain ⟨I, J, hb⟩ := between hp hv
  have hsound := settled_sound hp
  have hthere := Nat.lt_of_lt_of_le hb.there hsize
  have hstays := (hb.after.chain hthere).trans hchain
  have hroot : p.settled.table.scopes.root v.scope = v.state.table.scopes.root v.scope :=
    congrArg (·.getLastD v.scope) hstays
  rw [← hroot]
  refine hsound.first _ ?_ (hsound.nested.outer_root v.scope)
  have hlast := Nat.lt_of_lt_of_le hthere hb.after.size
  rcases List.mem_cons.mp (Scopes.root_mem_chain p.settled.table.scopes v.scope) with heq | houter
  · rw [heq]
    exact hlast
  · exact Nat.lt_trans (hsound.outer _ _ houter) hlast

theorem Program.placeholder_visited {p : Program} (hp : p.Numbered) {m : Mark} {name : String}
    {type : TypeExpr} (hn : .expression (.placeholder m name type) ∈ p.nodes) :
    ∃ i s, ⟨.expression (.placeholder m name type), i, s⟩ ∈ p.visits ∧ s.table.scopes.root i = 0 := by
  obtain ⟨⟨_, i, s⟩, hv, rfl⟩ := p.visited hn rfl
  have hready : Ready p.nodes [.expression (.placeholder m name type)] i s :=
    (lasts hp hv).ready.sublist (by simp [Node.nodes, Expr.nodes])
  have hstep : Step p.nodes _ s (s.after (typed m (placeholder m name type i))) :=
    Step.placeholder (hready.inside List.mem_cons_self)
  exact ⟨i, s, hv, root_visited hp hv hstep.size (hstep.chain hready.there)⟩

theorem Program.placeholder_filed {p : Program} (hp : p.Numbered) {m : Mark} {name : String}
    {type : TypeExpr} (hn : .expression (.placeholder m name type) ∈ p.nodes) :
    (p.settled.table.attributes m.id).scope = some 0 := by
  obtain ⟨i, s, hv, hroot⟩ := placeholder_visited hp hn
  have hplaceholder : Ends s (placeholder m name type i) fun s' _ =>
      Adds p.nodes (fun _ _ => True) (s.table.scopes.root i) (.placeholder m name) s s' ∧
      (s'.table.attributes m.id).scope = some (s.table.scopes.root i) ∧ _ :=
    Adds.placeholder name type trivial trivial
  have hshare : nodeShare (.expression (.placeholder m name type)) .scope m.id :=
    files_self (Expr.self_mem_nodes _) rfl
  rw [(lasts hp hv).scope hshare, ← hroot]
  exact (Table.scope_setType ..).trans hplaceholder.2.1

end LogicScript
