import LogicScript.Proofs.Declarations
import LogicScript.Proofs.Frames

/-! Whether evaluation finds the attributes that it asks for.

The scope of a function or struct is filed when the statement list is opened in which it stands. One
that is itself the branch of a condition or the body of a loop stands in no list, and its scope is
never filed. All other attributes that a run asks for are there, if the analysis finds no issues. -/
namespace LogicScript

open Analysis

/-- The statements that a statement executes under a condition. -/
def Stmt.bodies : Stmt → List Stmt
  | .cond _ _ yes no => yes :: no.toList
  | .loop _ _ body => [body]
  | _ => []

def Node.bodies : Node → List Stmt
  | .statement st => st.bodies
  | _ => []

/-- The functions and structs that are declared under a condition and not in a list. -/
def Program.bare (p : Program) : List Stmt := (p.nodes.flatMap Node.bodies).filter isHoisted

theorem Program.mem_bare {p : Program} {st : Stmt} : st ∈ p.bare ↔
    (∃ parent, .statement parent ∈ p.nodes ∧ st ∈ parent.bodies) ∧ isHoisted st = true := by
  rw [bare, List.mem_filter, List.mem_flatMap]
  refine and_congr_left fun _ => ⟨?_, ?_⟩
  · rintro ⟨n, hn, hst⟩
    cases n with
    | statement parent => exact ⟨parent, hn, hst⟩
    | _ => cases hst
  · rintro ⟨parent, hparent, hst⟩
    exact ⟨.statement parent, hparent, hst⟩

/-- A statement stands in a list or under a condition. -/
def Stmt.StandsIn (nodes : List Node) (st : Stmt) : Prop :=
  (∃ b, .statement (.block b) ∈ nodes ∧ st ∈ b.statements) ∨
    ∃ parent, .statement parent ∈ nodes ∧ st ∈ parent.bodies

theorem Stmt.StandsIn.mono {nodes nodes' : List Node} {st : Stmt} (h : st.StandsIn nodes)
    (hsub : nodes ⊆ nodes') : st.StandsIn nodes' := by
  refine h.imp ?_ ?_
  · rintro ⟨b, hb, hst⟩
    exact ⟨b, hsub hb, hst⟩
  · rintro ⟨parent, hparent, hst⟩
    exact ⟨parent, hsub hparent, hst⟩

theorem Stmt.StandsIn.of_list {nodes : List Node} {b : Block} {st : Stmt}
    (hb : .statement (.block b) ∈ nodes) (hsub : Stmt.nodesOfList b.statements ⊆ nodes)
    (h : st ∈ b.statements ∨ st.StandsIn (Stmt.nodesOfList b.statements)) : st.StandsIn nodes := by
  rcases h with hmem | h
  · exact .inl ⟨b, hb, hmem⟩
  · exact h.mono hsub

theorem Stmt.StandsIn.of_body {s body st : Stmt} (hbody : body ∈ s.bodies)
    (hsub : body.nodes ⊆ s.nodes) (h : st = body ∨ st.StandsIn body.nodes) :
    st.StandsIn s.nodes := by
  rcases h with rfl | h
  · exact .inr ⟨s, s.self_mem_nodes, hbody⟩
  · exact h.mono hsub

mutual

/-- Each function or struct inside a statement stands in a list or under a condition. -/
theorem Stmt.standsIn_of_mem (s : Stmt) {st : Stmt} (hst : isHoisted st = true)
    (h : .statement st ∈ s.nodes) : st = s ∨ st.StandsIn s.nodes := by
  match s with
  | .block ⟨m, body⟩ =>
    rcases List.mem_cons.mp h with heq | h
    · exact .inl (Node.statement.inj heq)
    · exact .inr (.of_list (Stmt.self_mem_nodes _) (by simp [Stmt.nodes])
        (Stmt.standsIn_of_mem_list body hst h))
  | .function ⟨m, name, params, returnType, ⟨bodyMark, body⟩⟩ =>
    rw [Stmt.nodes_function] at h ⊢
    rcases List.mem_append.mp h with hhead | hblock
    · refine .inl ?_
      simpa [FunctionDecl.head, Parameter.statement_not_mem_nodes,
        TypeExpr.statement_not_mem_option] using hhead
    · rcases List.mem_cons.mp hblock with heq | h
      · cases heq
        cases hst
      · refine .inr (.of_list (b := ⟨bodyMark, body⟩) ?_ ?_ (Stmt.standsIn_of_mem_list body hst h))
        · exact List.mem_append_right _ (Stmt.self_mem_nodes _)
        · exact List.subset_append_of_subset_right _ (by simp [Stmt.nodes])
  | .cond m condition yes none =>
    have h : st = .cond m condition yes none ∨ .statement st ∈ yes.nodes := by
      simpa [Stmt.nodes, Expr.statement_not_mem_nodes] using h
    exact h.imp_right fun h => .of_body (by simp [Stmt.bodies]) (by simp [Stmt.nodes])
      (Stmt.standsIn_of_mem yes hst h)
  | .cond m condition yes (some no) =>
    have h : st = .cond m condition yes (some no) ∨ .statement st ∈ yes.nodes ∨
        .statement st ∈ no.nodes := by
      simpa [Stmt.nodes, Expr.statement_not_mem_nodes] using h
    refine h.imp_right ?_
    rintro (h | h)
    · exact .of_body (by simp [Stmt.bodies]) (fun n hn => by simp [Stmt.nodes, hn])
        (Stmt.standsIn_of_mem yes hst h)
    · exact .of_body (by simp [Stmt.bodies]) (fun n hn => by simp [Stmt.nodes, hn])
        (Stmt.standsIn_of_mem no hst h)
  | .loop m condition body =>
    have h : st = .loop m condition body ∨ .statement st ∈ body.nodes := by
      simpa [Stmt.nodes, Expr.statement_not_mem_nodes] using h
    exact h.imp_right fun h => .of_body (by simp [Stmt.bodies]) (by simp [Stmt.nodes])
      (Stmt.standsIn_of_mem body hst h)
  | .expr _ _ | .var _ | .struct _ | .ret _ none | .ret _ (some _) | .atom _ | .fact _ | .rule _
  | .unify _ _ _ =>
    refine .inl ?_
    simpa [Stmt.nodes, VarDecl.nodes, StructDecl.nodes, FactDecl.nodes, RuleDecl.nodes, FieldDecl.nodes,
      Expr.statement_not_mem_nodes, Goal.statement_not_mem_nodes, TypeExpr.statement_not_mem_nodes,
      Expr.statement_not_mem_nodesOfList, TypeExpr.statement_not_mem_option,
      Expr.statement_not_mem_option, Parameter.statement_not_mem_nodes] using h

theorem Stmt.standsIn_of_mem_list (ss : List Stmt) {st : Stmt} (hst : isHoisted st = true)
    (h : .statement st ∈ Stmt.nodesOfList ss) : st ∈ ss ∨ st.StandsIn (Stmt.nodesOfList ss) := by
  match ss with
  | [] => cases h
  | s :: rest =>
    have h : .statement st ∈ s.nodes ∨ .statement st ∈ Stmt.nodesOfList rest := by
      simpa [Stmt.nodesOfList] using h
    rcases h with h | h
    · rcases Stmt.standsIn_of_mem s hst h with rfl | hplace
      · exact .inl List.mem_cons_self
      · exact .inr (hplace.mono (List.subset_append_left ..))
    · rcases Stmt.standsIn_of_mem_list rest hst h with hmem | hplace
      · exact .inl (List.mem_cons_of_mem _ hmem)
      · exact .inr (hplace.mono (List.subset_append_right ..))

end

namespace Analysis

variable {all : List Node} {s : State} {i : ScopeId}

/-- The pass over a condition or a loop files no scope for a function or struct that stands right
below it. -/
theorem scope_of_body {parent st : Stmt} (h : Ready all parent.nodes i s)
    (hst : st ∈ parent.bodies) (hh : isHoisted st = true) :
    ((s.after (statement parent i)).table.attributes st.ref.mark.id).scope =
      (s.table.attributes st.ref.mark.id).scope := by
  have hmark : Marks st.nodes st.ref.mark.id := ⟨_, st.self_mem_nodes, rfl⟩
  -- Other nodes are passed, or the statement itself, whose scope was to be filed ahead of it.
  have hself : ¬ stmtShare st .scope st.ref.mark.id := fun hs => hs.2 ⟨rfl, hh, rfl⟩
  have hother : ∀ {body : Stmt}, ¬ Marks body.nodes st.ref.mark.id →
      ¬ stmtShare body .scope st.ref.mark.id := fun hnot hs => hnot hs.1.marks
  have hguard : ∀ {e : Expr} {body : Stmt}, Ready all (e.nodes ++ body.nodes) i s →
      ¬ Marks e.nodes st.ref.mark.id → ¬ stmtShare body .scope st.ref.mark.id →
      (((s.after (expression e i)).after (statement body i)).table.attributes st.ref.mark.id).scope =
        (s.table.attributes st.ref.mark.id).scope := by
    intro e body hready he hbody
    have hfirst := (Trace.expression e (hready.sublist (List.sublist_append_left ..))).step
    have hnext :=
      (Trace.statement body ((hready.sublist (List.sublist_append_right ..)).next hfirst)).step
    rw [hnext.scope hbody, hfirst.scope fun hf => he hf.marks]
  have hapart : ∀ {l l' : List Node}, Distinct (l ++ l') → Marks l' st.ref.mark.id →
      ¬ Marks l st.ref.mark.id := fun hd hl hl' => hd.apart _ hl' hl
  cases parent with
  | cond m condition yes no =>
    cases no with
    | none =>
      have hready : Ready all (condition.nodes ++ yes.nodes) i s := h.sublist (by simp [Stmt.nodes])
      obtain rfl : st = yes := by simpa [Stmt.bodies] using hst
      exact hguard hready (hapart hready.distinct hmark) hself
    | some no =>
      have hready : Ready all (condition.nodes ++ yes.nodes ++ no.nodes) i s :=
        h.sublist (by simp [Stmt.nodes])
      have hfirst : Ready all (condition.nodes ++ yes.nodes) i s :=
        hready.sublist (List.sublist_append_left ..)
      have hbefore := (Trace.guarded hfirst fun h => Trace.statement yes h).step
      have hno :=
        (Trace.statement no ((hready.sublist (List.sublist_append_right ..)).next hbefore)).step
      have hst : st = yes ∨ st = no := by simpa [Stmt.bodies] using hst
      rcases hst with rfl | rfl
      · have hlast : ¬ Marks no.nodes st.ref.mark.id := hready.distinct.apart _
          (Marks.mono (List.subset_append_right ..) _ hmark)
        exact (hno.scope (hother hlast)).trans (hguard hfirst (hapart hfirst.distinct hmark) hself)
      · refine (hno.scope hself).trans (hbefore.scope fun hf => ?_)
        exact hapart hready.distinct hmark hf.marks
  | loop m condition body =>
    have hready : Ready all (condition.nodes ++ body.nodes) i s := h.sublist (by simp [Stmt.nodes])
    obtain rfl : st = body := by simpa [Stmt.bodies] using hst
    exact hguard hready (hapart hready.distinct hmark) hself
  | _ => cases hst

end Analysis

/-- Whether the execution of a statement asks for the scope of the statement. -/
def Stmt.isScoped : Stmt → Bool
  | .block _ | .var _ | .function _ | .struct _ | .atom _ | .fact _ | .rule _ => true
  | _ => false

/-- All that a run asks for is filed, but for the scopes of functions and structs in no list. -/
structure Program.Attributed (p : Program) (t : Table) : Prop where
  root : (t.attributes p.mark.id).scope.isSome
  reference : ∀ r : Reference, r.node ∈ p.nodes →
    (t.attributes r.mark.id).decl.isSome ∧ (t.attributes r.mark.id).scope.isSome
  constructor : ∀ m name, .expression (.constructor m name) ∈ p.nodes →
    ∃ d, (t.attributes m.id).decl = some (.struct d)
  placeholder : ∀ m name type, .expression (.placeholder m name type) ∈ p.nodes →
    (t.attributes m.id).scope.isSome
  statement : ∀ st, .statement st ∈ p.nodes → st.isScoped = true → st ∉ p.bare →
    (t.attributes st.ref.mark.id).scope.isSome
  function : ∀ d, .statement (.function d) ∈ p.nodes → (t.attributes d.mark.id).bodyScope.isSome
  rule : ∀ d, .statement (.rule d) ∈ p.nodes → (t.attributes d.mark.id).bodyScope.isSome
  bare : ∀ st ∈ p.bare, (t.attributes st.ref.mark.id).scope = none

namespace Program

variable {p : Program}

theorem root_filed (hp : p.Numbered) : (p.settled.table.attributes p.mark.id).scope = some 0 := by
  have hopen := opened_opened hp
  have hwalk := (walk_trace hp).step
  obtain ⟨hsettle, -⟩ := settled_files p p.nodes
  have hroot : files p.nodes .scope p.mark.id :=
    files_self (n := .program p) List.mem_cons_self rfl
  rw [hsettle.scope (settles_apart hp _ _ hroot),
    hwalk.scope (opening_apart hp _ _ (.inl (Share.one_self ..))), hopen.root]

theorem hoisted_filed (hp : p.Numbered) {st : Stmt} (hst : st ∈ p.statements)
    (hh : isHoisted st = true) : (p.settled.table.attributes st.ref.mark.id).scope = some 0 := by
  have hopen := opened_opened hp
  have hwalk := (walk_trace hp).step
  obtain ⟨hsettle, -⟩ := settled_files p p.nodes
  have hshare : hoists p.statements .scope st.ref.mark.id := ⟨rfl, st, hst, hh, rfl⟩
  have hfiles : files p.nodes .scope st.ref.mark.id :=
    files_mono (List.subset_cons_self ..) (hoists_within _ _ _ hshare)
  rw [hsettle.scope (settles_apart hp _ _ hfiles),
    hwalk.scope (opening_apart hp _ _ (.inr hshare)), hopen.hoisted st hst hh]

theorem visit_filed (hp : p.Numbered) {st : Stmt} {i : ScopeId} {s : State}
    (hv : ⟨.statement st, i, s⟩ ∈ p.visits) (hh : isHoisted st = false) {id : Nat}
    (hid : files st.nodes .scope id) :
    (p.settled.table.attributes id).scope = ((s.after (statement st i)).table.attributes id).scope :=
  (lasts hp hv).scope (by rw [nodeShare, stmtShare_eq hh]; exact hid)

theorem block_filed (hp : p.Numbered) {b : Block} (hb : .statement (.block b) ∈ p.nodes) {st : Stmt}
    (hst : st ∈ b.statements) (hh : isHoisted st = true) :
    (p.settled.table.attributes st.ref.mark.id).scope.isSome := by
  obtain ⟨⟨_, i, s⟩, hv, rfl⟩ := p.visited hb rfl
  have hready : Ready p.nodes (Stmt.block b).nodes i s := (lasts hp hv).ready
  obtain ⟨inner, -, hfiled, -⟩ := block_files hready
  have hfiles : files (Stmt.block b).nodes .scope st.ref.mark.id := by
    refine files_mono (Stmt.nodes_statements hst) (files_self st.self_mem_nodes ?_)
    cases st with
    | function d => rfl
    | struct d => rfl
    | _ => cases hh
  rw [visit_filed hp hv rfl hfiles, hfiled st hst hh]
  rfl

theorem statement_filed (hp : p.Numbered) (hok : p.settled.issues = []) {st : Stmt}
    (hst : .statement st ∈ p.nodes) (hscoped : st.isScoped = true) (hbare : st ∉ p.bare) :
    (p.settled.table.attributes st.ref.mark.id).scope.isSome := by
  by_cases hh : isHoisted st = true
  · have hst : .statement st ∈ Stmt.nodesOfList p.statements := by simpa [nodes] using hst
    have hsub : Stmt.nodesOfList p.statements ⊆ p.nodes := List.subset_cons_self ..
    rcases Stmt.standsIn_of_mem_list p.statements hh hst with hmem | ⟨b, hb, hmem⟩ | ⟨parent, hparent, hbody⟩
    · rw [hoisted_filed hp hmem hh]
      rfl
    · exact block_filed hp (hsub hb) hmem hh
    · exact absurd (mem_bare.mpr ⟨⟨parent, hsub hparent, hbody⟩, hh⟩) hbare
  · have hh : isHoisted st = false := by simpa using hh
    obtain ⟨⟨_, i, s⟩, hv, rfl⟩ := p.visited hst rfl
    have hlasts := lasts hp hv
    have hready : Ready p.nodes st.nodes i s := hlasts.ready
    have hissues : (s.after (Analysis.statement st i)).issues = [] := hlasts.issues hok
    have hfiles : ∀ duty, duties (.statement st) duty = true →
        files st.nodes duty st.ref.mark.id := fun _ hduty => files_self st.self_mem_nodes hduty
    cases st with
    | block b =>
      obtain ⟨inner, hfiled, -⟩ := block_files hready
      rw [visit_filed hp hv hh (hfiles _ rfl)]
      exact Option.isSome_of_eq_some hfiled
    | var d =>
      obtain ⟨t, hfiled⟩ := varDecl_declares hready hissues
      rw [visit_filed hp hv hh (hfiles _ rfl)]
      exact Option.isSome_of_eq_some hfiled.scope
    | atom d =>
      have hfiled : Ends s (atom d i) fun s' _ => Step p.nodes _ s s' ∧ _ :=
        Step.atom (hready.inside (Stmt.self_mem_nodes _))
      rw [visit_filed hp hv hh (hfiles _ rfl)]
      exact Option.isSome_of_eq_some hfiled.2
    | fact d =>
      have hfiled : ∀ (s : State) (types : List Ty), Ends s
          (predicate (.fact d.mark d.functor) d.mark d.functor types i) fun s' _ =>
            Step p.nodes (fun _ _ => True) s s' ∧ (s'.table.attributes d.mark.id).scope.isSome :=
        fun _ _ => Step.predicate (n := .statement (.fact d)) hst rfl trivial trivial trivial
      rw [visit_filed hp hv hh (hfiles _ rfl)]
      exact (hfiled _ _).2
    | rule d =>
      rw [visit_filed hp hv hh (hfiles _ rfl)]
      exact (rule_files hready).1
    | function d => cases hh
    | struct d => cases hh
    | _ => cases hscoped

theorem bare_unfiled (hp : p.Numbered) {st : Stmt} (hst : st ∈ p.bare) :
    (p.settled.table.attributes st.ref.mark.id).scope = none := by
  obtain ⟨⟨parent, hparent, hbody⟩, hh⟩ := mem_bare.mp hst
  obtain ⟨⟨_, i, s⟩, hv, rfl⟩ := p.visited hparent rfl
  have hready : Ready p.nodes parent.nodes i s := (lasts hp hv).ready
  have hplain : isHoisted parent = false := by
    cases parent with
    | cond m condition yes no => rfl
    | loop m condition body => rfl
    | _ => cases hbody
  have hfiles : files parent.nodes .scope st.ref.mark.id := by
    have hsub : st.nodes ⊆ parent.nodes := by
      cases parent with
      | cond m condition yes no => exact Stmt.nodes_branches hbody
      | loop m condition body =>
        rw [List.mem_singleton.mp hbody]
        simp [Stmt.nodes]
      | _ => cases hbody
    refine files_mono hsub (files_self st.self_mem_nodes ?_)
    cases st with
    | function d => rfl
    | struct d => rfl
    | _ => cases hh
  rw [visit_filed hp hv hplain hfiles, scope_of_body hready hbody hh]
  refine ((filed hp hv).2 ?_).2
  rw [nodeShare, stmtShare_eq hplain]
  exact hfiles

theorem attributed (hp : p.Numbered) (hok : p.settled.issues = []) :
    p.Attributed p.settled.table where
  root := by
    rw [root_filed hp]
    rfl
  reference r hr := by
    obtain ⟨d, owner, -, hdecl, hscope⟩ := name_filed hp hok hr rfl
    exact ⟨Option.isSome_of_eq_some hdecl, Option.isSome_of_eq_some hscope⟩
  constructor m name hn := by
    obtain ⟨d, owner, ⟨decl, rfl⟩, hdecl, -⟩ := name_filed hp hok hn rfl
    exact ⟨decl, hdecl⟩
  placeholder m name type hn := Option.isSome_of_eq_some (placeholder_filed hp hn)
  statement st hst hscoped hbare := statement_filed hp hok hst hscoped hbare
  function d hd := by
    obtain ⟨⟨_, i, s⟩, hv, rfl⟩ := p.visited hd rfl
    have hlasts := lasts hp hv
    have hshare : nodeShare (.statement (.function d)) .bodyScope d.mark.id :=
      ⟨files_self (n := .statement (.function d)) (Stmt.self_mem_nodes _) rfl, by rintro ⟨⟨⟩, -⟩⟩
    obtain ⟨body, hbody, -⟩ := function_files hlasts.ready
    rw [hlasts.bodyScope hshare]
    exact Option.isSome_of_eq_some hbody
  rule d hd := by
    obtain ⟨⟨_, i, s⟩, hv, rfl⟩ := p.visited hd rfl
    have hlasts := lasts hp hv
    have hshare : nodeShare (.statement (.rule d)) .bodyScope d.mark.id :=
      ⟨files_self (n := .statement (.rule d)) (Stmt.self_mem_nodes _) rfl, by rintro ⟨⟨⟩, -⟩⟩
    obtain ⟨-, body, hbody, -⟩ := rule_files hlasts.ready
    rw [hlasts.bodyScope hshare]
    exact Option.isSome_of_eq_some hbody
  bare st hst := bare_unfiled hp hst

end Program

/-! What a run asks for. -/

open Eval

/-- Whether the fault tells of an attribute that is missing. -/
def Cause.lacksAttribute : Cause → Bool
  | .rootWithoutScope | .nodeWithoutScope _ | .functionWithoutScope _ | .ruleWithoutScope _
  | .unresolvedReference _ | .notStruct _ => true
  | _ => false

theorem Cause.lacksAttribute_of_isStatic {cause : Cause} (h : cause.isStatic = false) :
    cause.lacksAttribute = false := by
  cases cause <;> first | rfl | cases h

/-- The fault of a function or struct that is declared in no list. -/
def Stmt.scopeFault (st : Stmt) : Fault := ⟨.nodeWithoutScope st.ref.kind, some st.ref⟩

theorem Eval.statement_scopeFault {ctx : Context} {sub : Evaluator} {env : Env} {st : Stmt}
    {m : Machine} (hh : isHoisted st = true)
    (h : (ctx.table.attributes st.ref.mark.id).scope = none) :
    Eval.statement ctx sub env st m = .error (.fault st.scopeFault) m := by
  have hwrite : ∀ (node : NodeRef) (name : String) (v : Value),
      (ctx.table.attributes node.mark.id).scope = none →
      (writeAt ctx env node name v .void >>= fun _ => pure Completion.normal) m =
        .error (.fault ⟨.nodeWithoutScope node.kind, none⟩) m := by
    intro node name v hnode
    have hscope : scopeOf ctx node m = .error (.fault ⟨.nodeWithoutScope node.kind, none⟩) m := by
      unfold scopeOf
      rw [hnode]
      rfl
    exact bind_of_error (bind_of_error hscope)
  cases st with
  | function d => exact attach_of_fault (hwrite ⟨.functionDeclaration, d.mark⟩ _ _ h)
  | struct d => exact attach_of_fault (hwrite ⟨.structDeclaration, d.mark⟩ _ _ h)
  | _ => cases hh

/-- The nodes of a loop's body. -/
def Eval.LoopBody.nodes : LoopBody → List Node
  | .block _ b => Stmt.nodesOfList b.statements
  | .statement st => st.nodes

namespace Program

/-- Functions and rules come from the program. -/
structure Sources (p : Program) (m : Machine) : Prop where
  rules : m.AllRules fun _ r => r.decl.body.nodes ⊆ p.nodes
  values : m.AllValues p.Owns

theorem sources_empty (p : Program) : p.Sources {} := ⟨.empty, .empty⟩

/-- No attribute is missing but the scopes of functions and structs in no list. -/
def attributeContract (p : Program) : Contract where
  Inv := p.Sources
  Leads _ _ := True
  Blame halt := ∀ f, halt = .fault f → f.cause.lacksAttribute = true → ∃ st ∈ p.bare, f = st.scopeFault
  Stop _ := False
  refl _ := trivial
  trans _ _ := trivial
  blame_attach {f node} h := by
    rintro _ ⟨⟩ hlacks
    obtain ⟨st, hst, rfl⟩ := h f rfl hlacks
    exact ⟨st, hst, rfl⟩
  stop_attach h := h

variable {p : Program} {t : Table} {ctx : Context} {sub sub' : Evaluator} {m : Machine} {env : Env}

theorem attributeContract_blame {cause : Cause} {node : Option NodeRef}
    (h : cause.lacksAttribute = false) : p.attributeContract.Blame (.fault ⟨cause, node⟩) := by
  rintro _ ⟨⟩ hlacks
  rw [h] at hlacks
  cases hlacks

theorem attributeContract_admits (p : Program) : p.attributeContract.Admits p.Owns := by
  have hframes : ∀ {m m' : Machine}, p.Sources m → m'.frames = m.frames → m'.AllValues p.Owns →
      p.Sources m' ∧ True := by
    intro m m' h hframes hvalues
    have hframe := Machine.frame_of_frames hframes
    exact ⟨⟨h.rules.of_eq fun f => by rw [hframe], hvalues⟩, trivial⟩
  exact {
    faults := fun _ _ h => attributeContract_blame (Cause.lacksAttribute_of_isStatic h)
    endless := fun _ h => nomatch h
    plain := by
      rintro v hv d rfl
      exact absurd rfl hv.1
    bound := fun h => h.values.bound _ _ _
    held := fun h => h.values.held _ _
    define := fun _ h hv => ⟨⟨h.rules.of_eq fun i => by simp, h.values.define hv⟩, trivial⟩
    push := fun h => ⟨⟨h.rules.of_eq fun f => Machine.predicates_push .., h.values.push⟩, trivial⟩
    alloc := fun h ho => hframes h rfl (h.values.alloc ho)
    setElement := fun h hv =>
      hframes h rfl (h.values.updateObject fun object ho => ho.setElement hv _)
    setField := fun h hv _ =>
      hframes h rfl (h.values.updateObject fun object ho => ho.setField hv _)
    print := fun h => hframes h rfl ⟨h.values.bound, h.values.held⟩
    log := fun h => hframes h rfl ⟨h.values.bound, h.values.held⟩
    addFact := fun _ h _ hs => ⟨⟨h.rules.addFact hs, h.values.setStore⟩, trivial⟩ }

theorem Attributed.sees {node : NodeRef}
    (h : (ctx.table.attributes node.mark.id).scope.isSome) :
    p.attributeContract.Sees m env ctx node := by
  intro m' _
  obtain ⟨scope, hscope⟩ := Option.isSome_iff_exists.mp h
  simp only [Contract.Locates, hscope]
  exact ⟨fun _ => ⟨attributeContract_blame rfl, fun _ =>
    ⟨attributeContract_blame rfl, attributeContract_blame rfl⟩⟩, fun _ _ => trivial⟩

/-- All requests for nodes of the program are met within the contract. -/
structure Answers (p : Program) (sub : Evaluator) : Prop where
  expression : ∀ m env e, e.nodes ⊆ p.nodes →
    p.attributeContract.Honours m (sub.expression env e) (sub.expression env e) fun _ v => p.Owns v
  statement : ∀ m env st, st.nodes ⊆ p.nodes →
    p.attributeContract.Honours m (sub.statement env st) (sub.statement env st)
      fun _ done => done.All p.Owns
  rounds : ∀ m env condition body, condition.nodes ⊆ p.nodes → body.nodes ⊆ p.nodes →
    p.attributeContract.Honours m (sub.rounds env condition body) (sub.rounds env condition body)
      fun _ done => done.All p.Owns
  resolve : ∀ m env depth goal, goal.nodes ⊆ p.nodes →
    p.attributeContract.Honours m (sub.resolve env depth goal) (sub.resolve env depth goal)
      fun _ _ => True

namespace Answers

theorem exhausted : p.Answers Eval.exhausted where
  expression _ _ _ _ := .exhaust (by rintro _ ⟨⟩) trivial
  statement _ _ _ _ := .exhaust (by rintro _ ⟨⟩) trivial
  rounds _ _ _ _ _ _ := .exhaust (by rintro _ ⟨⟩) trivial
  resolve _ _ _ _ _ := .exhaust (by rintro _ ⟨⟩) trivial

theorem expression_step (hp : p.Numbered) (ht : p.Attributed ctx.table)
    (hd : ∀ id d, (ctx.table.attributes id).decl = some (.function d) → d ∈ p.functions)
    (h : p.Answers sub) {e : Expr} (he : e.nodes ⊆ p.nodes) :
    p.attributeContract.Honours m (Eval.expression ctx sub env e) (Eval.expression ctx sub env e)
      fun _ v => p.Owns v := by
  have ha := p.attributeContract_admits
  have hnone : ∀ {α : Type} {x : Option α}, x.isSome → x ≠ none := by
    rintro α _ hx rfl
    cases hx
  have hparts : ∀ e' ∈ e.parts, p.attributeContract.Evaluates p.Owns sub sub m env e' :=
    fun e' he' m' _ => h.expression m' env e' (List.Subset.trans (Expr.nodes_parts he') he)
  refine Contract.Honours.expression ha (.same p.owns_void) hparts (fun e' he' _ => hparts e' he')
    (fun goal hgoal m' _ => ?_) (fun r hr => ?_)
    (fun r hr => ⟨fun hmissing => ?_, fun d hdecl => ?_⟩) (fun mark name hname hnot => ?_) ?_
  · exact h.resolve m' env 0 goal (List.Subset.trans (Expr.nodes_goal hgoal) he)
  · exact Attributed.sees (ht.reference r (he (Expr.slot_mem_nodes hr))).2
  · subst hr
    exact absurd hmissing (hnone (ht.reference r (he (Expr.self_mem_nodes _))).1)
  · rintro _ ⟨⟩
    exact hd _ d hdecl
  · subst hname
    obtain ⟨d, hdecl⟩ := ht.constructor mark name (he (Expr.self_mem_nodes _))
    exact absurd hdecl (hnot d)
  · intro _ d hown m' args _ hargs
    have hmem := Program.mem_functions.mp (hown d rfl)
    refine Contract.Honours.callFunction ha (.same p.owns_void) hargs (fun hmissing => ?_)
      fun scope m₁ _ _ _ => ?_
    · exact absurd hmissing (hnone (ht.function d hmem))
    · refine h.statement m₁ _ _ (List.Subset.trans ?_ (nodes_inside hp hmem rfl))
      rw [Node.nodes, Stmt.nodes_function]
      exact List.subset_append_right ..

theorem resolve_step (h : p.Answers sub) {depth : Nat} {goal : Goal} (hg : goal.nodes ⊆ p.nodes) :
    p.attributeContract.Honours m (Eval.resolve ctx sub env depth goal)
      (Eval.resolve ctx sub env depth goal) fun _ _ => True := by
  have ha := p.attributeContract_admits
  refine Contract.Honours.resolve ha (fun g hpart m' _ => ?_) ?_
  · exact h.resolve m' env depth g (List.Subset.trans (Goal.nodes_parts hpart) hg)
  · rintro _ mark functor arguments rfl
    have hargs : ∀ e ∈ arguments, p.attributeContract.Evaluates p.Owns sub sub m env e :=
      fun e he m' _ => h.expression m' env e (List.Subset.trans (Goal.nodes_arguments he) hg)
    refine Contract.Honours.resolveCall hargs fun scope f r _ _ hrule hm => ?_
    exact Contract.Honours.resolveRule ha hargs (fun m₁ m₂ _ _ _ =>
      h.resolve m₂ _ _ _ (hm.rules f functor r hrule)) hm

theorem statement_step (ht : p.Attributed ctx.table) (h : p.Answers sub) {st : Stmt}
    (hst : st.nodes ⊆ p.nodes) :
    p.attributeContract.Honours m (Eval.statement ctx sub env st) (Eval.statement ctx sub env st)
      fun _ done => done.All p.Owns := by
  have ha := p.attributeContract_admits
  have hmem := hst st.self_mem_nodes
  by_cases hbare : st ∈ p.bare
  · intro hm
    rw [Eval.statement_scopeFault (mem_bare.mp hbare).2 (ht.bare st hbare)]
    refine ⟨⟨hm, trivial, ?_, nofun⟩, .inl rfl⟩
    rintro _ ⟨⟩ -
    exact ⟨st, hbare, rfl⟩
  have hscope : ∀ st', .statement st' ∈ p.nodes → st'.isScoped = true → st' ∉ p.bare →
      (ctx.table.attributes st'.ref.mark.id).scope.isSome := ht.statement
  have hblock : ∀ b, .statement (.block b) ∈ p.nodes →
      (ctx.table.attributes b.mark.id).scope = none →
      p.attributeContract.Blame (.fault ⟨.nodeWithoutScope .block, none⟩) := by
    intro b hb hmissing
    have hsome := hscope (.block b) hb rfl fun hbare => nomatch (mem_bare.mp hbare).2
    have hmissing' : (ctx.table.attributes (Stmt.block b).ref.mark.id).scope = none := hmissing
    rw [hmissing'] at hsome
    cases hsome
  have hsees : ∀ node ∈ st.slots, p.attributeContract.Sees m env ctx node := by
    intro node hnode
    refine Attributed.sees ?_
    cases st with
    | unify mark left right =>
      obtain ⟨e, he, hplaceholder⟩ := List.mem_filterMap.mp hnode
      cases e with
      | placeholder mark' name type =>
        cases hplaceholder
        exact ht.placeholder mark' name type (hst (Stmt.nodes_parts he (Expr.self_mem_nodes _)))
      | _ => cases hplaceholder
    | var d | function d | struct d | atom d | fact d | rule d =>
      rw [List.mem_singleton.mp hnode]
      exact hscope _ hmem rfl hbare
    | _ => cases hnode
  have hparts : ∀ e ∈ st.parts, p.attributeContract.Evaluates p.Owns sub sub m env e :=
    fun e he m' _ => h.expression m' env e (List.Subset.trans (Stmt.nodes_parts he) hst)
  refine Contract.Honours.statement ha (.same p.owns_void) hparts (fun e he _ => hparts e he) hsees
    (fun st' hst' m' _ => ?_) ?_ ?_ (fun b hb => ?_) ?_ ?_ ?_
  · exact h.statement m' env st' (List.Subset.trans (Stmt.nodes_branches hst') hst)
  · rintro d rfl _ ⟨⟩
    exact Program.mem_functions.mpr hmem
  · rintro d rfl
    refine Contract.Honours.declareRule ha (fun hmissing => ?_) (hsees _ List.mem_cons_self).now ?_
    · have hsome := ht.rule d hmem
      rw [hmissing] at hsome
      cases hsome
    · intro scope f store _ _ hset hm
      refine ⟨⟨hm.rules.setRule ?_ hset, hm.values.setStore⟩, trivial⟩
      exact fun n hn => hst (by simp [Stmt.nodes, RuleDecl.nodes, hn])
  · refine hblock b ?_
    cases st with
    | block b' =>
      cases hb
      exact hmem
    | loop mark condition body =>
      cases body with
      | block b' =>
        cases hb
        exact hst (List.mem_cons_of_mem _ (List.mem_append_right _ (Stmt.self_mem_nodes _)))
      | _ => cases hb
    | _ => cases hb
  · rintro b rfl scope _ m' _ _ st' hst' m'' _
    exact h.statement m'' _ st' (List.Subset.trans (Stmt.nodes_statements hst') hst)
  · rintro mark condition b rfl scope _ m' _ _ m'' _
    refine h.rounds m'' env condition _ (fun n hn => hst ?_) fun n hn => hst ?_
    · simp [Stmt.nodes, hn]
    · obtain ⟨st', hst', hn⟩ := Stmt.mem_nodesOfList.mp hn
      have hn : n ∈ (Stmt.block b).nodes := Stmt.nodes_statements hst' hn
      exact List.mem_cons_of_mem _ (List.mem_append_right _ hn)
  · rintro mark condition body rfl _ m' _
    refine h.rounds m' env condition _ (fun n hn => hst ?_) fun n hn => hst ?_
    · simp [Stmt.nodes, hn]
    · have hn : n ∈ body.nodes := hn
      simp [Stmt.nodes, hn]

theorem rounds_step (h : p.Answers sub) {condition : Expr} {body : LoopBody}
    (hcondition : condition.nodes ⊆ p.nodes) (hbody : body.nodes ⊆ p.nodes) :
    p.attributeContract.Honours m (Eval.rounds sub env condition body)
      (Eval.rounds sub env condition body) fun _ done => done.All p.Owns := by
  refine Contract.Honours.rounds p.attributeContract_admits (fun m' _ => ?_) (fun m' _ => ?_)
    fun m' _ => ?_
  · exact h.expression m' env condition hcondition
  · refine Contract.Honours.round ?_ ?_
    · rintro inner b rfl st hst m'' _
      exact h.statement m'' inner st fun n hn => hbody (Stmt.mem_nodesOfList.mpr ⟨st, hst, hn⟩)
    · rintro st rfl m'' _
      exact h.statement m'' env st hbody
  · exact h.rounds m' env condition body hcondition hbody

theorem evaluator (hp : p.Numbered) (ht : p.Attributed ctx.table)
    (hd : ∀ id d, (ctx.table.attributes id).decl = some (.function d) → d ∈ p.functions)
    (fuel : Nat) : p.Answers (Eval.evaluator ctx fuel) := by
  induction fuel with
  | zero => exact exhausted
  | succ fuel ih =>
    exact ⟨fun _ _ _ he => ih.expression_step hp ht hd he, fun _ _ _ hst => ih.statement_step ht hst,
      fun _ _ _ _ hc hb => ih.rounds_step hc hb, fun _ _ _ _ hg => ih.resolve_step hg⟩

end Answers

theorem functions_known (hp : p.Numbered) {id : Nat} {d : FunctionDecl}
    (h : ((analyze p).1.attributes id).decl = some (.function d)) : d ∈ p.functions := by
  have htable : (analyze p).1 = (Analysis.program p {}).2.table := by
    unfold analyze StateT.run
    with_reducible rfl
  rw [htable] at h
  exact (Analysis.Does.program hp (Analysis.sound_empty _)).1.decl id d h

/-- A run with all attributes misses only the scopes of functions and structs in no list. -/
theorem Attributed.blame (hp : p.Numbered) (ht : p.Attributed ctx.table)
    (hd : ∀ id d, (ctx.table.attributes id).decl = some (.function d) → d ∈ p.functions)
    {fuel : Nat} {f : Fault} (hf : (p.run ctx fuel).outcome = .error (.fault f))
    (hlacks : f.cause.lacksAttribute = true) : ∃ st ∈ p.bare, f = st.scopeFault := by
  have hanswers := Answers.evaluator hp ht hd fuel
  have hroot : (ctx.table.attributes p.mark.id).scope = none →
      p.attributeContract.Blame (.fault ⟨.rootWithoutScope, none⟩) := by
    intro hmissing
    have hroot := ht.root
    rw [hmissing] at hroot
    cases hroot
  have hcompares : p.attributeContract.Compares (p.run ctx fuel) (p.run ctx fuel) :=
    .of_statements p.attributeContract_admits p.sources_empty hroot fun scope _ st hst m' _ =>
      hanswers.statement m' [0] st fun n hn =>
        List.mem_cons_of_mem _ (Stmt.mem_nodesOfList.mpr ⟨st, hst, hn⟩)
  exact hcompares.blame _ hf f rfl hlacks

/-- If the analysis of a program finds no issues, then no run of the program misses an attribute, but
for the scope of a function or struct that stands in no list; and whenever such a function or struct
is executed, its scope is missing. -/
theorem missing_attributes (hp : p.Numbered) (hok : (analyze p).2 = []) (maxDepth : Nat) :
    (∀ fuel f, (p.run ⟨(analyze p).1, maxDepth⟩ fuel).outcome = .error (.fault f) →
      f.cause.lacksAttribute = true → ∃ st ∈ p.bare, f = st.scopeFault) ∧
    ∀ st ∈ p.bare, ∀ sub env m, Eval.statement ⟨(analyze p).1, maxDepth⟩ sub env st m =
      .error (.fault st.scopeFault) m := by
  have htable : (analyze p).1 = p.settled.table := by rw [analyze_eq]
  have hissues : p.settled.issues = [] := by
    rw [analyze_eq] at hok
    exact hok
  have ht : p.Attributed (analyze p).1 := by
    rw [htable]
    exact attributed hp hissues
  have hd : ∀ id d, ((analyze p).1.attributes id).decl = some (.function d) → d ∈ p.functions :=
    fun _ _ h => functions_known hp h
  generalize (analyze p).1 = t at ht hd
  exact ⟨fun fuel f hf hlacks => Attributed.blame hp ht hd hf hlacks, fun st hst sub env m =>
    Eval.statement_scopeFault (mem_bare.mp hst).2 (ht.bare st hst)⟩

/-- A condition with a function as its branch. -/
def guarding : Program where
  mark := ⟨0, {}⟩
  statements := [.cond ⟨1, {}⟩ (.bool ⟨2, {}⟩ true)
    (.function ⟨⟨3, {}⟩, "f", [], none, ⟨⟨4, {}⟩, []⟩⟩) none]

theorem guarding_numbered : guarding.Numbered := by
  unfold Numbered Distinct
  decide

theorem guarding_accepted : (analyze guarding).2 = [] :=
  List.isEmpty_iff.mp (by decide +kernel)

/-- The branch alone is in no list, so that the theorem is about it. -/
theorem guarding_attributes :
    guarding.Numbered ∧ (analyze guarding).2 = [] ∧ guarding.bare.length = 1 ∧
    (∀ fuel f, (guarding.run ⟨(analyze guarding).1, 1⟩ fuel).outcome = .error (.fault f) →
      f.cause.lacksAttribute = true → ∃ st ∈ guarding.bare, f = st.scopeFault) ∧
    ∀ st ∈ guarding.bare, ∀ sub env m, Eval.statement ⟨(analyze guarding).1, 1⟩ sub env st m =
      .error (.fault st.scopeFault) m :=
  ⟨guarding_numbered, guarding_accepted, by decide +kernel,
    missing_attributes guarding_numbered guarding_accepted 1⟩

end Program

/-- The fault that ended a run. -/
def Run.fault? (r : Run) : Option Fault :=
  match r.outcome with
  | .error (.fault f) => some f
  | _ => none

theorem Run.outcome_of_fault {r : Run} {f : Fault} (h : r.fault? = some f) :
    r.outcome = .error (.fault f) := by
  unfold fault? at h
  split at h
  · cases h
    assumption
  · cases h

/-- A program is accepted and yet its run misses an attribute. -/
theorem Program.accepted_misses_attribute :
    ¬ ∀ p : Program, p.Numbered → (analyze p).2 = [] → ∀ maxDepth fuel f,
      (p.run ⟨(analyze p).1, maxDepth⟩ fuel).outcome = .error (.fault f) →
      f.cause.lacksAttribute = false := by
  intro h
  have hfault : ((guarding.run ⟨(analyze guarding).1, 1⟩ 5).fault?.any (·.cause.lacksAttribute)) =
      true := by decide +kernel
  obtain ⟨f, hf, hlacks⟩ := (Option.any_eq_true ..).mp hfault
  rw [h guarding guarding_numbered guarding_accepted 1 5 f (Run.outcome_of_fault hf)] at hlacks
  cases hlacks

end LogicScript
