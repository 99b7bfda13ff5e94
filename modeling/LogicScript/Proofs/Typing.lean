import LogicScript.Proofs.Completeness

/-! The types that the analysis files, and the names behind them.

The type of an expression comes from the types of its parts, the type of a name from its declaration.
In a program without issues each name stands in its scope for what it was declared as. -/
namespace LogicScript

open Analysis

/-- The analysis takes an operator for one that joins texts in the same cases as the evaluation. -/
theorem Analysis.operatorType_of_joins {op : BinaryOp} {s t : Ty}
    (h : Operator.joins op s t = true) : operatorType op s t = .string := by
  obtain rfl : op = .add := by simpa using (Bool.and_eq_true_iff.mp h).1
  unfold Operator.joins at h
  rw [operatorType, if_neg (by decide), if_pos h]

theorem Analysis.operatorType_of_not_joins {op : BinaryOp} {s t : Ty}
    (h : ¬ Operator.joins op s t = true) : operatorType op s t =
      if !op.isArithmetic then .bool else if s.isFloat || t.isFloat then .float else .int := by
  unfold Operator.joins at h
  rw [operatorType, if_neg h]

/-- The type of an expression by the types that are filed for its parts and its declaration. The
types of constructors, fields and placeholders depend on where they stand, too. -/
def Expr.composedType? (t : Table) : Expr → Option Ty
  | .int _ _ => some .int
  | .float _ _ => some .float
  | .string _ _ => some .string
  | .bool _ _ | .not _ _ | .query _ _ _ => some .bool
  | .null _ => some .null
  | .index _ stem _ => some (elementOf (t.typeOf stem.mark))
  | .call _ callee _ => some (resultOf (t.typeOf callee.mark))
  | .binary _ op left right => some (operatorType op (t.typeOf left.mark) (t.typeOf right.mark))
  | .assign _ target _ => some (t.typeOf target.mark)
  | .paren _ inner => some (t.typeOf inner.mark)
  | .logic (.atom _ _) => some .atom
  | .logic _ => some .bool
  | .reference r => (t.attributes r.mark.id).decl.map (useType t)
  | .array _ _ | .constructor _ _ | .field _ _ _ | .placeholder _ _ _ => none

/-- The scope that is filed for a node declares a name as such. -/
def Table.Enters (t : Table) (m : Mark) (name : String) (P : Decl → Prop) : Prop :=
  ∀ i, (t.attributes m.id).scope = some i → ∃ d, t.scopes.findLocal i name = some d ∧ P d

/-- The filed types and declarations fit to each other. -/
structure Program.Typed (p : Program) (t : Table) : Prop where
  composed : ∀ e, .expression e ∈ p.nodes → ∀ type, e.composedType? t = some type →
    t.typeOf e.mark = type
  array : ∀ m elements, .expression (.array m elements) ∈ p.nodes →
    ∃ element, t.typeOf m = .array element
  field : ∀ m stem name, .expression (.field m stem name) ∈ p.nodes →
    (∃ d, t.typeOf stem.mark = .struct d) ∨
      t.typeOf m = .int ∧ ∃ element, t.typeOf stem.mark = .array element
  reference : ∀ r : Reference, r.node ∈ p.nodes → ∀ d,
    (t.attributes r.mark.id).decl = some d → t.Enters r.mark r.name (· = d)
  placeholder : ∀ m name type, .expression (.placeholder m name type) ∈ p.nodes →
    t.Enters m name fun d => d.isPlaceholder = true
  var : ∀ d, .statement (.var d) ∈ p.nodes → t.Enters d.mark d.name (· = .var d.mark d.name)
  atom : ∀ d, .statement (.atom d) ∈ p.nodes → t.Enters d.mark d.name fun d => d.isAtom = true
  function : ∀ d, .statement (.function d) ∈ p.nodes → t.Enters d.mark d.name (· = .function d)
  struct : ∀ d, .statement (.struct d) ∈ p.nodes → t.Enters d.mark d.name (· = .struct d)
  parameters : ∀ d, .statement (.function d) ∈ p.nodes → ∀ i,
    (t.attributes d.mark.id).bodyScope = some i → t.EntersAll i d.parameters
  rule : ∀ d, .statement (.rule d) ∈ p.nodes → ∀ i,
    (t.attributes d.mark.id).bodyScope = some i → t.EntersAll i d.parameters

theorem Decl.not_builtin {d : Decl} (h : d.isTyped = true) : d.isBuiltin = false := by
  cases d <;> first | rfl | cases h

theorem Node.eq_function {n : Node} {d : FunctionDecl} (h : n.declares = some (.function d)) :
    n = .statement (.function d) := by
  unfold declares at h
  split at h <;> cases h
  rfl

namespace Analysis

variable {all l later : List Node} {s s₁ s₂ : State} {i : ScopeId}

theorem expression_typed (e : Expr) (i : ScopeId) : ∃ pass, expression e i = typed e.mark pass := by
  cases e with
  | logic goal => cases goal <;> exact ⟨_, by rw [expression, logic]; rfl⟩
  | _ => exact ⟨_, by rw [expression]; rfl⟩

theorem expression_filed (e : Expr) (i : ScopeId) (s : State) :
    ((s.after (expression e i)).table.attributes e.mark.id).type = some (expression e i s).1 := by
  obtain ⟨pass, htyped⟩ := expression_typed e i
  have hfiled : ((s.after (typed e.mark pass)).table.attributes e.mark.id).type =
      some (typed e.mark pass s).1 := Table.type_setType_self ..
  rw [htyped]
  exact hfiled

theorem type_setType_ne {m m' : Mark} (h : m.id ≠ m'.id) (s : State) (t : Ty) :
    ((s.after (setType m t)).table.attributes m'.id).type = (s.table.attributes m'.id).type := by
  have hset : (s.after (setType m t)).table.attributes m'.id =
      (s.table.setType m.id t).attributes m'.id := rfl
  rw [hset, Table.setType, Table.attributes_update, if_neg h]

theorem report_issues (m : Mark) (problem : Problem) : (s.after (report m problem)).issues ≠ [] := by
  intro hnil
  have hissues : s.issues ++ [⟨m.span, problem⟩] = [] := hnil
  simp at hissues

/-- A field is one of a struct, or else the length of an array, or there is an issue. -/
theorem fieldType_cases (m : Mark) {stem : Ty} {name : String}
    (h : (s.after (fieldType m stem name i)).issues = []) :
    (∃ d, stem = .struct d) ∨
      (fieldType m stem name i s).1 = .int ∧ ∃ element, stem = .array element := by
  cases stem with
  | struct d => exact .inl ⟨d, rfl⟩
  | array element =>
    by_cases hname : name = "length"
    · subst hname
      exact .inr ⟨rfl, element, rfl⟩
    · refine absurd h ?_
      unfold fieldType
      dsimp only
      rw [if_neg hname]
      exact report_issues m _
  | _ => exact absurd h (report_issues m _)

/-- When all of an expression has been walked, the type of a part is still the one it was given. -/
theorem typeOf_part {e c : Expr} {t : Ty} (h : Ready all e.nodes i s)
    (hn : e.nodes = .expression e :: l) (hc : .expression c ∈ l) (hf : ¬ Function all c.mark.id)
    (hlater : ¬ Marks later c.mark.id)
    (hrest : Step all (files later) (s₁.after (expression c i)) s₂)
    (hafter : s.after (expression e i) = s₂.after (setType e.mark t)) :
    (s.after (expression e i)).table.typeOf c.mark = (expression c i s₁).1 := by
  have hd := h.distinct
  rw [hn] at hd
  have hne : e.mark.id ≠ c.mark.id := fun heq =>
    (List.nodup_cons.mp hd).1 (List.mem_map.mpr ⟨_, hc, heq.symm⟩)
  have hkept : (s₂.table.attributes c.mark.id).type = some (expression c i s₁).1 :=
    (hrest.type_eq (fun hm => hlater hm.marks) hf).trans (expression_filed c i s₁)
  rw [Table.typeOf, hafter, type_setType_ne hne, hkept, Option.getD_some]

theorem statement_duty (st : Stmt) : duties (.statement st) .scope = true := by cases st <;> rfl

/-- The scope has a name as one of its kind, or there is an issue. -/
def Claimed (i : ScopeId) (name : String) (kind : Decl → Bool) (s : State) : Prop :=
  s.issues = [] → ∃ d, s.table.scopes.findLocal i name = some d ∧ kind d = true

theorem Claimed.enter {name : String} {kind : Decl → Bool} {d : Decl}
    (hi : i < s.table.scopes.all.size) (h : s.table.scopes.findLocal i name = none)
    (hd : kind d = true) : Ends s (enter i name d) fun s' _ => Claimed i name kind s' := by
  refine fun _ => ⟨d, Scopes.findLocal_declare_self hi ?_, hd⟩
  unfold Scopes.declare
  rw [h]

theorem Claimed.report {name : String} {kind : Decl → Bool} (m : Mark) (problem : Problem) :
    Ends s (report m problem) fun s' _ => Claimed i name kind s' :=
  fun hnil => absurd hnil (report_issues m problem)

/-- After the pass over an atom the scope has an atom of the name, or there is an issue. -/
theorem atom_declares {d : AtomDecl} (hi : i < s.table.scopes.all.size) :
    Ends s (atom d i) fun s' _ => Claimed i d.name Decl.isAtom s' := by
  have hfind : Ends s (findLocal i d.name) fun s' found =>
      s' = s ∧ found = s.table.scopes.findLocal i d.name := ⟨rfl, rfl⟩
  refine hfind.bind ?_
  rintro s₁ found ⟨rfl, hfound⟩
  have hfile : ∀ {s₂ : State}, Claimed i d.name Decl.isAtom s₂ →
      Ends s₂ (setScope d.mark i >>= fun _ => setType d.mark .bool) fun s' _ =>
        Claimed i d.name Decl.isAtom s' := by
    intro s₂ h₂
    have hset : Ends s₂ (setScope d.mark i) fun s' _ => Claimed i d.name Decl.isAtom s' := h₂
    exact hset.bind fun s₃ _ h₃ => h₃
  cases found with
  | none =>
    have henter : Ends s₁ (enter i d.name (.atom d.mark d.name)) fun s' _ =>
        Claimed i d.name Decl.isAtom s' := .enter hi hfound.symm rfl
    exact henter.discard.bind fun s₂ _ h₂ => hfile h₂
  | some existing =>
    dsimp only
    split
    · rename_i hatom
      exact hfile fun _ => ⟨existing, hfound.symm, hatom⟩
    · have hreport : Ends s₁ (report d.mark (.alreadyDeclared d.name)) fun s' _ =>
          Claimed i d.name Decl.isAtom s' := .report _ _
      exact hreport.bind fun s₂ _ h₂ => hfile h₂

/-- After the pass over a placeholder the outermost scope has a placeholder of the name, or there is
an issue. -/
theorem placeholder_declares {m : Mark} {name : String} {type : TypeExpr}
    (hroot : s.table.scopes.root i < s.table.scopes.all.size) :
    Ends s (placeholder m name type i) fun s' _ =>
      Claimed (s.table.scopes.root i) name Decl.isPlaceholder s' := by
  have htype : Ends s (resolveType type i) fun s' _ => s'.table = s.table :=
    (Reports.resolveType type).table
  refine Ends.get_bind (htype.bind ?_)
  intro s₁ t h₁
  rw [← h₁] at hroot ⊢
  have hfind : Ends s₁ (findLocal (s₁.table.scopes.root i) name) fun s' found =>
      s' = s₁ ∧ found = s₁.table.scopes.findLocal (s₁.table.scopes.root i) name := ⟨rfl, rfl⟩
  refine hfind.bind ?_
  rintro s₂ found ⟨rfl, hfound⟩
  generalize s₂.table.scopes.root i = root at hroot hfound ⊢
  have hfile : ∀ {s₃ : State}, Claimed root name Decl.isPlaceholder s₃ →
      Ends s₃ (setScope m root >>= fun _ => setDecl m (.placeholder m name) >>= fun _ => pure t)
        fun s' _ => Claimed root name Decl.isPlaceholder s' := by
    intro s₃ h₃
    have hset : Ends s₃ (setScope m root) fun s' _ => Claimed root name Decl.isPlaceholder s' := h₃
    exact hset.bind fun s₄ _ h₄ => h₄
  cases found with
  | none =>
    have henter : Ends s₂ (enter root name (.placeholder m name)) fun s' _ =>
        Claimed root name Decl.isPlaceholder s' := .enter hroot hfound.symm rfl
    exact henter.discard.bind fun s₃ _ h₃ => hfile h₃
  | some existing =>
    dsimp only
    split
    · rename_i hplaceholder
      exact hfile fun _ => ⟨existing, hfound.symm, hplaceholder⟩
    · have hreport : Ends s₂ (report m (.alreadyDeclaredInRoot name)) fun s' _ =>
          Claimed root name Decl.isPlaceholder s' := .report _ _
      exact hreport.bind fun s₃ _ h₃ => hfile h₃

theorem reference_found {r : Reference} {d : Decl} {owner : ScopeId}
    (hfind : s.table.scopes.find i r.name = some (d, owner)) : ∃ s' : State,
      (reference r i s).1 = useType s'.table d ∧
      s.after (reference r i) = s'.after (setType r.mark (reference r i s).1) ∧
      ∀ f, d = .function f → IsFunctionType (s'.table.attributes f.mark.id).type := by
  have hfound : find i r.name s = (some (d, owner), s) := congrArg (·, s) hfind
  have heq : reference r i s = typed r.mark
      (setDecl r.mark d >>= fun _ => setScope r.mark owner >>= fun _ => declType d owner) s := by
    unfold reference typed
    simp only [bind, StateT.bind, hfound]
  refine ⟨((s.after (setDecl r.mark d)).after (setScope r.mark owner)).after (declType d owner), ?_,
    ?_, ?_⟩
  · rw [heq]
    exact declType_filed d owner _
  · rw [State.after, heq]
    rfl
  · rintro f rfl
    generalize (s.after (setDecl r.mark (.function f))).after (setScope r.mark owner) = s₁
    have hfunction : Ends s₁ (declType (.function f) owner) fun s' _ =>
        IsFunctionType (s'.table.attributes f.mark.id).type :=
      (functionType_filed f.mark f.parameters f.returnType owner).weaken fun s' t h => by
        rw [h.2]
        exact h.1
    exact hfunction

end Analysis

namespace Program

variable {p : Program} {e c : Expr} {i : ScopeId} {s : State}

theorem Numbered.not_function (hp : p.Numbered) {n : Node} (hn : n ∈ p.nodes)
    (h : ∀ d, n ≠ .statement (.function d)) : ¬ Function p.nodes n.mark.id := by
  rintro ⟨d, hd, hid⟩
  exact h d (hp.eq hn hd hid.symm)

/-- The types of an expression and its parts are those that were filed when it was walked. -/
theorem typeOf_visited (hp : p.Numbered) (hv : ⟨.expression e, i, s⟩ ∈ p.visits)
    (hc : .expression c ∈ e.nodes) :
    p.settled.table.typeOf c.mark = (s.after (expression e i)).table.typeOf c.mark := by
  have hlasts := lasts hp hv
  have hmem : .expression c ∈ p.nodes := hlasts.ready.inside hc
  have hduty : duties (.expression c) .type = true := by
    unfold duties
    split <;> simp_all
  have hshare : nodeShare (.expression e) .type c.mark.id := files_self hc hduty
  have htype := hlasts.type hshare (hp.not_function hmem (by simp))
  rw [Table.typeOf, htype]
  rfl

theorem typeOf_self (hp : p.Numbered) (hv : ⟨.expression e, i, s⟩ ∈ p.visits) :
    p.settled.table.typeOf e.mark = (expression e i s).1 := by
  rw [typeOf_visited hp hv e.self_mem_nodes, Table.typeOf, expression_filed, Option.getD_some]

theorem typeOf_operand {l later : List Node} {s₁ s₂ : State} {t : Ty} (hp : p.Numbered)
    (hv : ⟨.expression e, i, s⟩ ∈ p.visits) (hn : e.nodes = .expression e :: l)
    (hc : .expression c ∈ l) (hlater : ¬ Marks later c.mark.id)
    (hrest : Step p.nodes (files later) (s₁.after (expression c i)) s₂)
    (hafter : s.after (expression e i) = s₂.after (setType e.mark t)) :
    p.settled.table.typeOf c.mark = (expression c i s₁).1 := by
  have hready : Ready p.nodes e.nodes i s := (lasts hp hv).ready
  have hmem : .expression c ∈ e.nodes := hn ▸ List.mem_cons_of_mem _ hc
  rw [typeOf_visited hp hv hmem]
  exact typeOf_part hready hn hc (hp.not_function (hready.inside hmem) (by simp)) hlater hrest hafter

theorem composed (hp : p.Numbered) (he : .expression e ∈ p.nodes) {type : Ty}
    (h : e.composedType? p.settled.table = some type) (hname : ∀ r, e ≠ .reference r) :
    p.settled.table.typeOf e.mark = type := by
  obtain ⟨⟨_, i, s⟩, hv, rfl⟩ := p.visited he rfl
  have hself := typeOf_self hp hv
  have hready : Ready p.nodes e.nodes i s := (lasts hp hv).ready
  have hnone : ∀ id, ¬ Marks [] id := by
    rintro id ⟨n, hn, -⟩
    cases hn
  cases e with
  | int | float | string | bool | null | not | query =>
    cases h
    exact hself
  | logic goal =>
    cases goal <;> cases h <;> exact hself
  | index m stem index =>
    have hbelow : Ready p.nodes (stem.nodes ++ index.nodes) i s :=
      hready.sublist (by simp [Expr.nodes])
    have hfirst := (Trace.expression stem (hbelow.sublist (List.sublist_append_left ..))).step
    have hrest := (Trace.expression index
      ((hbelow.sublist (List.sublist_append_right ..)).next hfirst)).step
    have hpart := typeOf_operand hp hv rfl (by simp [Expr.self_mem_nodes])
      (hbelow.distinct.apart _ ⟨_, stem.self_mem_nodes, rfl⟩) hrest (by rw [expression_index]; rfl)
    cases h
    rw [hself, hpart, expression_index]
    rfl
  | call m callee arguments =>
    have hbelow : Ready p.nodes (callee.nodes ++ Expr.nodesOfList arguments) i s :=
      hready.sublist (by simp [Expr.nodes])
    have hfirst := (Trace.expression callee (hbelow.sublist (List.sublist_append_left ..))).step
    have hrest := (Trace.expressions arguments
      ((hbelow.sublist (List.sublist_append_right ..)).next hfirst)).step
    have hpart := typeOf_operand hp hv rfl (by simp [Expr.self_mem_nodes])
      (hbelow.distinct.apart _ ⟨_, callee.self_mem_nodes, rfl⟩) hrest (by rw [expression_call]; rfl)
    cases h
    rw [hself, hpart, expression_call]
    rfl
  | binary m op left right =>
    have hbelow : Ready p.nodes (left.nodes ++ right.nodes) i s :=
      hready.sublist (by simp [Expr.nodes])
    have hfirst := (Trace.expression left (hbelow.sublist (List.sublist_append_left ..))).step
    have hrest := (Trace.expression right
      ((hbelow.sublist (List.sublist_append_right ..)).next hfirst)).step
    have hl := typeOf_operand hp hv rfl (by simp [Expr.self_mem_nodes])
      (hbelow.distinct.apart _ ⟨_, left.self_mem_nodes, rfl⟩) hrest rfl
    have hr := typeOf_operand hp hv rfl (by simp [Expr.self_mem_nodes])
      (hnone _) (.refl ((s.after (expression left i)).after (expression right i))) rfl
    cases h
    rw [hself, hl, hr]
    rfl
  | assign m target value =>
    have hpart := typeOf_operand hp hv rfl (by simp [Expr.self_mem_nodes])
      (hnone _) (.refl ((s.after (expression value i)).after (expression target i))) rfl
    cases h
    rw [hself, hpart]
    rfl
  | paren m inner =>
    have hpart := typeOf_operand hp hv rfl (Expr.self_mem_nodes inner)
      (hnone _) (.refl (s.after (expression inner i))) rfl
    cases h
    rw [hself, hpart]
    rfl
  | reference r => exact absurd rfl (hname r)
  | array | constructor | field | placeholder => cases h

theorem array_typed (hp : p.Numbered) {m : Mark} {elements : List Expr}
    (he : .expression (.array m elements) ∈ p.nodes) :
    ∃ element, p.settled.table.typeOf m = .array element := by
  obtain ⟨⟨_, i, s⟩, hv, rfl⟩ := p.visited he rfl
  exact ⟨_, typeOf_self hp hv⟩

theorem field_typed (hp : p.Numbered) (hok : p.settled.issues = []) {m : Mark} {stem : Expr}
    {name : String} (he : .expression (.field m stem name) ∈ p.nodes) :
    (∃ d, p.settled.table.typeOf stem.mark = .struct d) ∨ p.settled.table.typeOf m = .int ∧
      ∃ element, p.settled.table.typeOf stem.mark = .array element := by
  obtain ⟨⟨_, i, s⟩, hv, rfl⟩ := p.visited he rfl
  have hself : p.settled.table.typeOf m = _ := typeOf_self hp hv
  have hready : Ready p.nodes (Expr.field m stem name).nodes i s := (lasts hp hv).ready
  have hissues : (s.after (expression (.field m stem name) i)).issues = [] :=
    (lasts hp hv).issues hok
  have hrest : Step p.nodes (files []) (s.after (expression stem i)) ((s.after (expression stem i)).after
      (fieldType m (expression stem i s).1 name i)) := (Reports.fieldType m _ name).plain.step
  have hpart := typeOf_operand hp hv rfl (Expr.self_mem_nodes stem)
    (by rintro ⟨n, hn, -⟩; cases hn) hrest rfl
  rw [hpart, hself]
  have hresult : (expression (.field m stem name) i s).1 =
      (fieldType m (expression stem i s).1 name i (s.after (expression stem i))).1 := rfl
  have hfield : (fieldType m (expression stem i s).1 name i
      (s.after (expression stem i))).2.issues = [] := hissues
  rw [hresult]
  exact fieldType_cases m hfield

/-- The type of a function, once it is known at a visit, is the one of the end. -/
theorem functionType_lasts (hp : p.Numbered) {v : Visit} (hv : v ∈ p.visits) {f : FunctionDecl}
    (hf : .statement (.function f) ∈ p.nodes)
    (h : IsFunctionType (v.after.table.attributes f.mark.id).type) :
    (p.settled.table.attributes f.mark.id).type = (v.after.table.attributes f.mark.id).type := by
  obtain ⟨I, J, hb⟩ := (trace hp).met v hv
  have hnot : ¬ files p.nodes .type f.mark.id := by
    rintro ⟨n, hn, hid, hduty⟩
    have hsame : n = .statement (.function f) := hp.eq hn hf hid
    subst hsame
    cases hduty
  have hwalked := hb.after.functionType_eq (fun hj => hnot (hb.future_within _ _ hj)) h
  have hlate : ¬ settles p.walked.pending .type f.mark.id := by
    rintro ⟨hduty | hduty, -⟩ <;> cases hduty
  have hsettled := (settled_files p p.nodes).1.functionType_eq hlate (hwalked ▸ h)
  exact hsettled.trans hwalked

theorem reference_typed (hp : p.Numbered) {r : Reference} (hr : r.node ∈ p.nodes) {d : Decl}
    (hd : (p.settled.table.attributes r.mark.id).decl = some d) :
    p.settled.table.typeOf r.mark = useType p.settled.table d := by
  obtain ⟨⟨_, i, s⟩, hv, rfl⟩ := p.visited hr rfl
  have hself : p.settled.table.typeOf r.mark = (reference r i s).1 := typeOf_self hp hv
  obtain ⟨I, J, hb⟩ := between hp hv
  obtain ⟨hfiled, hnone⟩ := (filed hp hv).1 (nodeShare_name (n := r.node) rfl).1
  obtain ⟨-, hfinds⟩ := Visit.finds (v := ⟨r.node, i, s⟩) rfl hb.known
  have hd' : ((s.after (reference r i)).table.attributes r.mark.id).decl = some d := hfiled.symm.trans hd
  rcases hfinds with ⟨hsame, -⟩ | ⟨d', owner, hfind, -, hdecl, -⟩
  · cases (hd'.symm.trans hsame).trans hnone
  obtain rfl : d = d' := Option.some.inj (hd'.symm.trans hdecl)
  obtain ⟨s', htype, hafter, hfunction⟩ := reference_found hfind
  -- The type of the declaring node is not filed for the name.
  have hother : ∀ {n : Node}, n ∈ p.nodes → n.declares = some d →
      ((s.after (reference r i)).table.attributes n.mark.id).type =
        (s'.table.attributes n.mark.id).type := by
    intro n hn hdeclares
    have hne : r.mark.id ≠ n.mark.id := by
      intro heq
      obtain rfl : r.node = n := hp.eq hr hn heq
      cases hdeclares
    rw [hafter]
    exact type_setType_ne hne s' _
  have hkeeps : ∀ {n : Node}, n ∈ p.nodes → n.declares = some d →
      ((p.settled.table.attributes n.mark.id).type =
        ((s.after (reference r i)).table.attributes n.mark.id).type) →
      s'.table.typeOf n.mark = p.settled.table.typeOf n.mark := fun hn hdeclares hlasts => by
    rw [Table.typeOf, Table.typeOf, hlasts, hother hn hdeclares]
  rw [hself, htype]
  by_cases htyped : d.isTyped = true
  · obtain ⟨-, -, -, hlocal, -⟩ := Scopes.findIn_split hfind
    rcases hb.before.entries hlocal with hold | hbuiltin | ⟨n, hn, hdeclares, -, -, hfiled⟩
    · cases hold
    · rw [Decl.not_builtin htyped] at hbuiltin
      cases hbuiltin
    · have hlasts := hb.after.type_eq (hb.apart _ _ (hfiled htyped).1)
        (hp.not_function hn (by rintro f rfl; cases hdeclares; cases htyped))
      have hsame := hkeeps hn hdeclares hlasts
      have hmark := Node.mark?_declares hdeclares
      cases d with
      | var m | parameter m | placeholder m | fact m | rule m =>
        cases hmark
        exact hsame
      | _ => cases htyped
  · cases d with
    | function f =>
      rcases hb.known.find hfind with hbuiltin | ⟨n, hn, hdeclares⟩
      · cases hbuiltin
      obtain rfl := Node.eq_function hdeclares
      refine hkeeps hn rfl (functionType_lasts hp hv hn ?_)
      exact (hother hn rfl).symm ▸ hfunction f rfl
    | var | parameter | placeholder | fact | rule => exact absurd rfl htyped
    | _ => rfl

theorem reference_enters (hp : p.Numbered) {r : Reference} (hr : r.node ∈ p.nodes) {d : Decl}
    (hd : (p.settled.table.attributes r.mark.id).decl = some d) :
    p.settled.table.Enters r.mark r.name (· = d) := by
  obtain ⟨⟨_, i, s⟩, hv, rfl⟩ := p.visited hr rfl
  exact fun j hj => ⟨d, (resolves_found (v := ⟨r.node, i, s⟩) hp hv rfl hd hj).declared, rfl⟩

theorem enters_visited (hp : p.Numbered) {st : Stmt} (hv : ⟨.statement st, i, s⟩ ∈ p.visits)
    (hh : isHoisted st = false) {j : ScopeId} {name : String} {P : Decl → Prop}
    (hscope : ((s.after (statement st i)).table.attributes st.ref.mark.id).scope = some j)
    (hentry : ∃ d, (s.after (statement st i)).table.scopes.findLocal j name = some d ∧ P d) :
    p.settled.table.Enters st.ref.mark name P := by
  intro k hk
  have hfinal : (p.settled.table.attributes st.ref.mark.id).scope = some j :=
    (visit_filed hp hv hh (files_self st.self_mem_nodes (statement_duty st))).trans hscope
  rw [hfinal] at hk
  cases hk
  obtain ⟨d, hd, hP⟩ := hentry
  exact ⟨d, (lasts hp hv).declared hd, hP⟩

theorem var_enters (hp : p.Numbered) (hok : p.settled.issues = []) {d : VarDecl}
    (hd : .statement (.var d) ∈ p.nodes) :
    p.settled.table.Enters d.mark d.name (· = .var d.mark d.name) := by
  obtain ⟨⟨_, i, s⟩, hv, rfl⟩ := p.visited hd rfl
  obtain ⟨t, hdeclares⟩ := varDecl_declares (lasts hp hv).ready ((lasts hp hv).issues hok)
  exact enters_visited hp hv rfl hdeclares.scope ⟨_, hdeclares.entry, rfl⟩

theorem atom_enters (hp : p.Numbered) (hok : p.settled.issues = []) {d : AtomDecl}
    (hd : .statement (.atom d) ∈ p.nodes) :
    p.settled.table.Enters d.mark d.name fun e => e.isAtom = true := by
  obtain ⟨⟨_, i, s⟩, hv, rfl⟩ := p.visited hd rfl
  have hscope : Ends s (atom d i) fun s' _ => Step p.nodes _ s s' ∧ _ := Step.atom hd
  have hclaimed : Claimed i d.name Decl.isAtom (s.after (atom d i)) :=
    atom_declares (lasts hp hv).ready.there
  exact enters_visited hp hv rfl hscope.2 (hclaimed ((lasts hp hv).issues hok))

theorem placeholder_enters (hp : p.Numbered) (hok : p.settled.issues = []) {m : Mark}
    {name : String} {type : TypeExpr} (he : .expression (.placeholder m name type) ∈ p.nodes) :
    p.settled.table.Enters m name fun e => e.isPlaceholder = true := by
  obtain ⟨i, s, hv, hroot⟩ := placeholder_visited hp he
  have hlasts := lasts hp hv
  have hthere : s.table.scopes.root i < s.table.scopes.all.size :=
    hroot.symm ▸ Nat.lt_of_le_of_lt (Nat.zero_le i) hlasts.ready.there
  have hclaimed : Ends s (typed m (placeholder m name type i)) fun s' _ =>
      Claimed (s.table.scopes.root i) name Decl.isPlaceholder s' :=
    (placeholder_declares hthere).bind fun s₁ t h₁ => h₁
  obtain ⟨e, hentry, hplaceholder⟩ := hclaimed (hlasts.issues hok)
  intro j hj
  obtain rfl : 0 = j := Option.some.inj ((placeholder_filed hp he).symm.trans hj)
  exact ⟨e, hlasts.declared (hroot ▸ hentry), hplaceholder⟩

/-- The functions and structs of the program's own list are declared when the walk begins. -/
theorem opening_enters (hp : p.Numbered) :
    Ends {} p.opening fun s' _ => s'.Hoisted 0 p.statements := by
  have hmem : ∀ st ∈ p.statements, .statement st ∈ p.nodes := fun st hst =>
    List.mem_cons_of_mem _ (Stmt.mem_nodesOfList.mpr ⟨st, hst, st.self_mem_nodes⟩)
  have hopen : Ends {} (openScope ⟨.root, p.mark⟩ none) fun s' root =>
      root = 0 ∧ 0 < s'.table.scopes.all.size := by
    obtain ⟨hroot, hsize, -⟩ := openScope_fresh p.nodes (.one .scope p.mark.id) (s := {})
      ⟨.root, p.mark⟩ none
    exact ⟨hroot, Nat.lt_of_le_of_lt (Nat.zero_le _) hsize⟩
  refine hopen.bind ?_
  rintro s₁ root ⟨rfl, h₁⟩
  have hset : Ends s₁ (setScope p.mark 0) fun s' _ => 0 < s'.table.scopes.all.size := h₁
  refine hset.bind fun s₂ _ h₂ => ?_
  have henter : Ends s₂ (enterAll 0 builtins) fun s' _ => Step p.nodes (fun _ _ => True) s₂ s' :=
    Step.enterAll 0 (by decide)
  refine henter.bind fun s₃ _ h₃ => ?_
  have hhoist : Ends s₃ (hoist p.statements 0) fun s' _ => s'.Hoisted 0 p.statements :=
    hoist_enters (hoists_nodup (List.nodup_cons.mp hp).2) hmem (Nat.lt_of_lt_of_le h₂ h₃.size)
  exact hhoist.bind fun s₄ _ h₄ => h₄

theorem opened_enters (hp : p.Numbered) : p.opened.Hoisted 0 p.statements := opening_enters hp

theorem hoisted_enters (hp : p.Numbered) (hok : p.settled.issues = []) {st : Stmt}
    (hst : .statement st ∈ p.nodes) (hh : isHoisted st = true) {d : Decl}
    (hd : (Node.statement st).declares = some d) :
    p.settled.table.Enters st.ref.mark d.name (· = d) := by
  have hmem : .statement st ∈ Stmt.nodesOfList p.statements := by simpa [nodes] using hst
  have hsub : Stmt.nodesOfList p.statements ⊆ p.nodes := List.subset_cons_self ..
  intro j hj
  rcases Stmt.standsIn_of_mem_list p.statements hh hmem with hmem | ⟨b, hb, hmem⟩ |
    ⟨parent, hparent, hbody⟩
  · rw [hoisted_filed hp hmem hh] at hj
    cases hj
    have hwalk := (walk_trace hp).step
    have hsettle := (settled_files p p.nodes).1
    have hentry :=
      (opened_enters hp).entry (hwalk.issues_nil (hsettle.issues_nil hok)) st hmem hh d hd
    exact ⟨d, hsettle.declared (hwalk.declared hentry), rfl⟩
  · obtain ⟨⟨_, i, s⟩, hv, rfl⟩ := p.visited (hsub hb) rfl
    have hlasts := lasts hp hv
    obtain ⟨inner, -, hfiled, hentered⟩ := block_files hlasts.ready
    have hfiles : files (Stmt.block b).nodes .scope st.ref.mark.id :=
      files_mono (Stmt.nodes_statements hmem) (files_self st.self_mem_nodes (statement_duty st))
    have hfinal := visit_filed hp hv rfl hfiles
    have hsame : some j = some inner := hj.symm.trans (hfinal.trans (hfiled st hmem hh))
    cases hsame
    exact ⟨d, hlasts.declared (hentered.entry (hlasts.issues hok) st hmem hh d hd), rfl⟩
  · have hnone := bare_unfiled hp (mem_bare.mpr ⟨⟨parent, hsub hparent, hbody⟩, hh⟩)
    rw [hnone] at hj
    cases hj

theorem typed (hp : p.Numbered) (hok : p.settled.issues = []) : p.Typed p.settled.table where
  composed e he type h := by
    cases e with
    | reference r =>
      obtain ⟨d, hd, rfl⟩ := Option.map_eq_some_iff.mp h
      exact reference_typed hp he hd
    | _ => exact composed hp he h (by simp)
  array m elements he := array_typed hp he
  field m stem name he := field_typed hp hok he
  reference r hr d hd := reference_enters hp hr hd
  placeholder m name type he := placeholder_enters hp hok he
  var d hd := var_enters hp hok hd
  atom d hd := atom_enters hp hok hd
  function d hd := hoisted_enters hp hok hd rfl rfl
  struct d hd := hoisted_enters hp hok hd rfl rfl
  parameters d hd i hi := by
    obtain ⟨⟨_, j, s⟩, hv, rfl⟩ := p.visited hd rfl
    have hlasts := lasts hp hv
    have hshare : nodeShare (.statement (.function d)) .bodyScope d.mark.id :=
      ⟨files_self (n := .statement (.function d)) (Stmt.self_mem_nodes _) rfl, by rintro ⟨⟨⟩, -⟩⟩
    obtain ⟨body, hbody, hentered⟩ := function_files hlasts.ready
    have hsame : some i = some body := hi.symm.trans ((hlasts.bodyScope hshare).trans hbody)
    cases hsame
    exact fun q hq => hlasts.declared (hentered (hlasts.issues hok) q hq)
  rule d hd i hi := by
    obtain ⟨⟨_, j, s⟩, hv, rfl⟩ := p.visited hd rfl
    have hlasts := lasts hp hv
    have hshare : nodeShare (.statement (.rule d)) .bodyScope d.mark.id :=
      ⟨files_self (n := .statement (.rule d)) (Stmt.self_mem_nodes _) rfl, by rintro ⟨⟨⟩, -⟩⟩
    obtain ⟨-, body, hbody, hentered⟩ := rule_files hlasts.ready
    have hsame : some i = some body := hi.symm.trans ((hlasts.bodyScope hshare).trans hbody)
    cases hsame
    exact fun q hq => hlasts.declared (hentered (hlasts.issues hok) q hq)

end Program

end LogicScript
