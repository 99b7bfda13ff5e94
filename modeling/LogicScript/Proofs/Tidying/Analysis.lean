import LogicScript.Proofs.Attribution
import LogicScript.Proofs.Tidying.Agreement

/-! The analysis of a program and of the same program tidied.

An expression in parentheses has the type of what is inside, and nothing is declared or reported for
the parentheses. So the analysis goes the same way with and without them: it reports the same issues
and files the same attributes for all nodes that stay. -/
namespace LogicScript

open Analysis

namespace Tidying

variable {k : Tidying} {s : Scopes} {i : ScopeId} {name : String}

@[simp] theorem isAtom_decl (d : Decl) : (k.decl d).isAtom = d.isAtom := by cases d <;> rfl

@[simp] theorem isPredicate_decl (d : Decl) : (k.decl d).isPredicate = d.isPredicate := by
  cases d <;> rfl

@[simp] theorem isPlaceholder_decl (d : Decl) : (k.decl d).isPlaceholder = d.isPlaceholder := by
  cases d <;> rfl

theorem findLocal_scopes : (k.scopes s).findLocal i name = (s.findLocal i name).map k.decl := by
  rw [Scopes.findLocal, get_scopes, scope, Bindings.get?_map]
  rfl

theorem chain_scopes : (k.scopes s).chain i = s.chain i := by
  rw [Scopes.chain, get_scopes]
  rfl

theorem root_scopes : (k.scopes s).root i = s.root i := by
  rw [Scopes.root, chain_scopes]
  rfl

theorem find_scopes :
    (k.scopes s).find i name = (s.find i name).map fun found => (k.decl found.1, found.2) := by
  unfold Scopes.find
  rw [chain_scopes]
  induction s.chain i with
  | nil => rfl
  | cons j rest ih =>
    rw [Scopes.findIn, Scopes.findIn, findLocal_scopes]
    cases s.findLocal j name with
    | none => exact ih
    | some d => rfl

theorem push_scopes (opener : Option NodeRef) (parent : Option ScopeId) :
    (k.scopes s).push opener parent =
      ((s.push opener parent).1, k.scopes (s.push opener parent).2) := by
  have hchain : parent.map (k.scopes s).chain = parent.map s.chain := by
    cases parent with
    | none => rfl
    | some j => exact congrArg some chain_scopes
  have hempty : (∅ : Bindings Decl).map k.decl = ∅ := rfl
  unfold Scopes.push
  rw [hchain]
  simp [scopes, Array.map_push, scope, hempty]

theorem declare_scopes (d : Decl) : (k.scopes s).declare i name (k.decl d) =
    ((s.declare i name d).1, k.scopes (s.declare i name d).2) := by
  unfold Scopes.declare
  rw [findLocal_scopes]
  cases s.findLocal i name with
  | some d => rfl
  | none =>
    simp only [Option.map_none, scopes, Prod.mk.injEq, true_and, Scopes.mk.injEq]
    refine Array.ext (by simp) fun j hj _ => ?_
    simp only [Array.getElem_map, Array.getElem_modify]
    split
    · rw [scope, scope, Bindings.map_set]
    · rfl

end Tidying

namespace Comparison

variable {c : Comparison}

/-- The analysis of the tidied program is in the same state, but for what is taken out. -/
structure Tracks (c : Comparison) (s s' : State) : Prop where
  issues : s'.issues = s.issues
  pending : s'.pending = s.pending
  scopes : s'.table.scopes = c.scopes s.table.scopes
  attributes : ∀ id, c.stays id →
    s'.table.attributes id = c.attributes (s.table.attributes id)
  declared : ∀ i name d, s.table.scopes.findLocal i name = some d → c.Knows d
  filed : ∀ id d, c.stays id → (s.table.attributes id).decl = some d → c.Knows d

/-- Two passes lead from such states to such states, and to the same result, tidied. -/
def Follows (c : Comparison) {α β : Type} (F : α → β) (V : α → Prop) (x : Pass α) (y : Pass β) :
    Prop :=
  ∀ s s', c.Tracks s s' → (y s').1 = F (x s).1 ∧ V (x s).1 ∧ c.Tracks (x s).2 (y s').2

/-- Parentheses that are taken away do not stay. -/
def Gone (c : Comparison) : Prop :=
  ∀ m inner, c.drops (.paren m inner) = true → ¬ c.stays m.id

namespace Follows

variable {α β γ δ : Type} {F : α → β} {V : α → Prop} {G : γ → δ} {W : γ → Prop} {x : Pass α}
  {y : Pass β} {m : Mark} {i : ScopeId} {name : String}

theorem pure {a : α} {b : β} (ha : V a) (hb : b = F a) :
    c.Follows F V (Pure.pure a) (Pure.pure b) := fun _ _ h => ⟨hb, ha, h⟩

theorem bind {f : α → Pass γ} {g : β → Pass δ} (hx : c.Follows F V x y)
    (hf : ∀ a, V a → c.Follows G W (f a) (g (F a))) : c.Follows G W (x >>= f) (y >>= g) := by
  intro s s' h
  obtain ⟨hresult, hV, h'⟩ := hx s s' h
  have hnext := hf _ hV _ _ h'
  rw [← hresult] at hnext
  exact hnext

theorem get_bind {f : State → Pass γ} {g : State → Pass δ}
    (h : ∀ s s', c.Tracks s s' → c.Follows G W (f s) (g s')) :
    c.Follows G W (get >>= f) (get >>= g) := fun s s' hs => h s s' hs s s' hs

theorem discard (h : c.Follows F V x y) :
    c.Follows id (fun _ => True) (Functor.discard x) (Functor.discard y) := fun s s' hs =>
  ⟨rfl, trivial, (h s s' hs).2.2⟩

theorem report {problem : Problem} :
    c.Follows id (fun _ => True) (report m problem) (report m problem) := fun s s' h => by
  refine ⟨rfl, trivial, ?_, h.pending, h.scopes, h.attributes, h.declared, h.filed⟩
  exact congrArg (· ++ _) h.issues

theorem postpone {q : Pending} :
    c.Follows id (fun _ => True) (postpone q) (postpone q) := fun s s' h => by
  refine ⟨rfl, trivial, h.issues, ?_, h.scopes, h.attributes, h.declared, h.filed⟩
  exact congrArg (· ++ _) h.pending

theorem onTable {id : Nat} {f f' : Attributes → Attributes}
    (hf : ∀ a, f' (c.attributes a) = c.attributes (f a))
    (hd : ∀ a d, (f a).decl = some d → a.decl = some d ∨ c.Knows d) :
    c.Follows (fun u => u) (fun _ => True) (onTable (·.update id f))
      (onTable (·.update id f')) := by
  intro s s' h
  have hattributes : ∀ j, (s.table.update id f).attributes j = _ :=
    fun j => Table.attributes_update s.table id j f
  have hattributes' : ∀ j, (s'.table.update id f').attributes j = _ :=
    fun j => Table.attributes_update s'.table id j f'
  refine ⟨rfl, trivial, h.issues, h.pending, h.scopes, fun j hj => ?_, h.declared,
    fun j d hj hd' => ?_⟩
  · show (s'.table.update id f').attributes j = c.attributes ((s.table.update id f).attributes j)
    rw [hattributes, hattributes']
    split
    · subst_vars
      rw [h.attributes _ hj, hf]
    · exact h.attributes j hj
  · have hd' : ((s.table.update id f).attributes j).decl = some d := hd'
    rw [hattributes] at hd'
    split at hd'
    · subst_vars
      rcases hd _ _ hd' with hold | hknown
      · exact h.filed _ d hj hold
      · exact hknown
    · exact h.filed j d hj hd'

theorem setType {t : Ty} : c.Follows id (fun _ => True) (setType m t) (setType m t) :=
  onTable (fun _ => rfl) fun _ _ h => .inl h

theorem setScope : c.Follows id (fun _ => True) (setScope m i) (setScope m i) :=
  onTable (fun _ => rfl) fun _ _ h => .inl h

theorem setBodyScope : c.Follows id (fun _ => True) (setBodyScope m i) (setBodyScope m i) :=
  onTable (fun _ => rfl) fun _ _ h => .inl h

theorem setDecl {d : Decl} (hd : c.Knows d) :
    c.Follows id (fun _ => True) (setDecl m d) (setDecl m (c.decl d)) := by
  refine onTable (fun _ => rfl) fun _ _ h => .inr ?_
  cases h
  exact hd

/-- The type of parentheses that are taken away is filed in the first program only. -/
theorem typed_left {pass : Pass Ty} {y : Pass Ty} (hm : ¬ c.stays m.id)
    (h : c.Follows id (fun _ => True) pass y) :
    c.Follows id (fun _ => True) (typed m pass) y := by
  intro s s' hs
  obtain ⟨hresult, -, h⟩ := h s s' hs
  have hattributes : ∀ j, c.stays j → ((pass s).2.table.setType m.id (pass s).1).attributes j =
      (pass s).2.table.attributes j := fun j hj => by
    rw [Table.setType, Table.attributes_update, if_neg]
    rintro rfl
    exact hm hj
  refine ⟨hresult, trivial, h.issues, h.pending, h.scopes, fun j hj => ?_, h.declared,
    fun j d hj hd => ?_⟩
  · exact (h.attributes j hj).trans (congrArg c.attributes (hattributes j hj).symm)
  · have hd : (((pass s).2.table.setType m.id (pass s).1).attributes j).decl = some d := hd
    rw [hattributes j hj] at hd
    exact h.filed j d hj hd

theorem find : c.Follows (Option.map fun found => (c.decl found.1, found.2))
    (fun found => ∀ d owner, found = some (d, owner) → c.Knows d) (find i name) (find i name) := by
  intro s s' h
  refine ⟨?_, fun d owner hfound => ?_, h⟩
  · show s'.table.scopes.find i name = _
    rw [h.scopes, Tidying.find_scopes]
    rfl
  · exact h.declared owner name d (Scopes.findIn_some hfound).2

theorem findLocal : c.Follows (Option.map c.decl) (fun found => ∀ d, found = some d → c.Knows d)
    (findLocal i name) (findLocal i name) := by
  intro s s' h
  refine ⟨?_, fun d hfound => h.declared i name d hfound, h⟩
  show s'.table.scopes.findLocal i name = _
  rw [h.scopes, Tidying.findLocal_scopes]
  rfl

theorem openScope {node : NodeRef} {parent : Option ScopeId} :
    c.Follows id (fun _ => True) (openScope node parent) (openScope node parent) := by
  intro s s' h
  have hpush : s'.table.scopes.push (some node) parent = _ :=
    (congrArg (·.push (some node) parent) h.scopes).trans (Tidying.push_scopes ..)
  have hfresh : (s'.table.scopes.push (some node) parent).1 =
      (s.table.scopes.push (some node) parent).1 := by rw [hpush]
  refine ⟨hfresh, trivial, h.issues, h.pending, congrArg Prod.snd hpush, h.attributes,
    fun j name d hd => ?_, h.filed⟩
  have hd : (s.table.scopes.push (some node) parent).2.findLocal j name = some d := hd
  rw [Scopes.findLocal, Scopes.get_push] at hd
  split at hd
  · cases hd
  · exact h.declared j name d hd

theorem enter {d : Decl} (hd : c.Knows d) :
    c.Follows id (fun _ => True) (enter i name d) (enter i name (c.decl d)) := by
  intro s s' h
  have hdeclare : s'.table.scopes.declare i name (c.decl d) = _ :=
    (congrArg (·.declare i name (c.decl d)) h.scopes).trans (Tidying.declare_scopes d)
  have hfree : (s'.table.scopes.declare i name (c.decl d)).1 =
      (s.table.scopes.declare i name d).1 := by rw [hdeclare]
  refine ⟨hfree, trivial, h.issues, h.pending, congrArg Prod.snd hdeclare, h.attributes,
    fun j other e he => ?_, h.filed⟩
  rcases Scopes.declared_declare he with hold | ⟨-, rfl⟩
  · exact h.declared j other e hold
  · exact hd

theorem declare {d : Decl} (hd : c.Knows d) :
    c.Follows id (fun _ => True) (declare i name d m) (declare i name (c.decl d) m) := by
  refine (enter hd).bind fun free _ => ?_
  cases free with
  | true => exact setScope
  | false => exact report.bind fun _ _ => setScope

theorem typed {pass pass' : Pass Ty} (h : c.Follows id (fun _ => True) pass pass') :
    c.Follows id (fun _ => True) (typed m pass) (typed m pass') :=
  h.bind fun _ _ => setType.bind fun _ _ => pure trivial rfl

theorem resolveType (t : TypeExpr) :
    c.Follows id (fun _ => True) (resolveType t i) (resolveType t i) := by
  induction t with
  | array m element ih => exact ih.bind fun _ _ => pure trivial rfl
  | simple m name =>
    refine find.bind fun found _ => ?_
    have hunknown : c.Follows id (fun _ => True)
        (Analysis.report m (.unknownType name) >>= fun _ => Pure.pure Ty.void)
        (Analysis.report m (.unknownType name) >>= fun _ => Pure.pure Ty.void) :=
      report.bind fun _ _ => pure trivial rfl
    rcases found with _ | ⟨d, owner⟩
    · exact hunknown
    · cases d <;> first | exact pure trivial rfl | exact hunknown

theorem resolveTypes (ts : List TypeExpr) :
    c.Follows id (fun _ => True) (resolveTypes ts i) (resolveTypes ts i) := by
  induction ts with
  | nil => exact pure trivial rfl
  | cons t ts ih => exact (resolveType t).bind fun _ _ => ih.bind fun _ _ => pure trivial rfl

theorem functionType {params : List Parameter} {returnType : Option TypeExpr}
    (hm : c.stays m.id) :
    c.Follows id (fun _ => True) (functionType m params returnType i)
      (functionType m params returnType i) := by
  refine get_bind fun s s' h => ?_
  have htype : (s'.table.attributes m.id).type = (s.table.attributes m.id).type := by
    rw [h.attributes _ hm]
    rfl
  rw [htype]
  split
  · exact pure trivial rfl
  · refine (resolveTypes _).bind fun _ _ => ?_
    cases returnType with
    | none =>
      exact (pure (F := id) (V := fun _ => True) trivial rfl).bind fun _ _ => setType.bind
        fun _ _ => pure trivial rfl
    | some t => exact (resolveType t).bind fun _ _ => setType.bind fun _ _ => pure trivial rfl

theorem declType {d : Decl} (hd : c.Knows d) :
    c.Follows id (fun _ => True) (declType d i) (declType (c.decl d) i) := by
  have hmark : ∀ m : Mark, c.stays m.id → c.Follows id (fun _ => True)
      (get >>= fun s => Pure.pure (s.table.typeOf m))
      (get >>= fun s => Pure.pure (s.table.typeOf m)) := fun m hm =>
    get_bind fun s s' h => pure trivial <| by
      unfold Table.typeOf
      rw [h.attributes _ hm]
      rfl
  cases d with
  | function f => exact functionType (Stays.stmt hd)
  | var m name | parameter m name | placeholder m name | fact m name | rule m name =>
    exact hmark m (hd m rfl)
  | builtinFunction | builtinType | struct | atom => exact pure trivial rfl

theorem reference {r : Reference} :
    c.Follows id (fun _ => True) (reference r i) (reference r i) := by
  refine typed (find.bind fun found hfound => ?_)
  rcases found with _ | ⟨d, owner⟩
  · exact report.bind fun _ _ => pure trivial rfl
  · have hd := hfound d owner rfl
    exact (setDecl hd).bind fun _ _ => setScope.bind fun _ _ => declType hd

theorem constructorType :
    c.Follows id (fun _ => True) (constructorType m name i) (constructorType m name i) := by
  have hnone : c.Follows id (fun _ => True)
      (Analysis.report m (.notStruct name) >>= fun _ => Pure.pure Ty.void)
      (Analysis.report m (.notStruct name) >>= fun _ => Pure.pure Ty.void) :=
    report.bind fun _ _ => pure trivial rfl
  refine find.bind fun found hfound => ?_
  rcases found with _ | ⟨d, owner⟩
  · exact hnone
  · cases d with
    | struct d =>
      have hd := hfound _ owner rfl
      exact (setDecl hd).bind fun _ _ => setScope.bind fun _ _ => (resolveTypes _).bind
        fun _ _ => pure trivial rfl
    | _ => exact hnone

theorem fieldType {stem : Ty} :
    c.Follows id (fun _ => True) (fieldType m stem name i) (fieldType m stem name i) := by
  have hunknown : c.Follows id (fun _ => True)
      (Analysis.report m (.unknownField name stem.name) >>= fun _ => Pure.pure Ty.void)
      (Analysis.report m (.unknownField name stem.name) >>= fun _ => Pure.pure Ty.void) :=
    report.bind fun _ _ => pure trivial rfl
  unfold Analysis.fieldType
  dsimp only
  split
  · split
    · exact pure trivial rfl
    · exact hunknown
  · split
    · exact resolveType _
    · exact hunknown
  · exact hunknown

theorem placeholder {type : TypeExpr} (hm : c.stays m.id) :
    c.Follows id (fun _ => True) (placeholder m name type i) (placeholder m name type i) := by
  have hd : c.Knows (.placeholder m name) := stays_of_some hm
  refine get_bind fun s s' h => ?_
  rw [h.scopes, Tidying.root_scopes]
  have hrest : ∀ t : Ty, c.Follows id (fun _ => True)
      (Analysis.setScope m (s.table.scopes.root i) >>= fun _ =>
        Analysis.setDecl m (.placeholder m name) >>= fun _ => Pure.pure t)
      (Analysis.setScope m (s.table.scopes.root i) >>= fun _ =>
        Analysis.setDecl m (.placeholder m name) >>= fun _ => Pure.pure t) := fun t =>
    setScope.bind fun _ _ => (setDecl hd).bind fun _ _ => pure trivial rfl
  refine (resolveType type).bind fun t _ => findLocal.bind fun found _ => ?_
  cases found with
  | none => exact (enter hd).discard.bind fun _ _ => hrest t
  | some existing =>
    dsimp only [Option.map_some]
    rw [Tidying.isPlaceholder_decl]
    split
    · exact hrest t
    · exact report.bind fun _ _ => hrest t

mutual

theorem expression (gone : c.Gone) (e : Expr) {value : Bool} (he : c.Stays (c.expr value e).nodes) :
    c.Follows id (fun _ => True) (expression e i) (expression (c.expr value e) i) := by
  match e with
  | .int _ _ | .float _ _ | .string _ _ | .bool _ _ | .null _ =>
    rw [Tidying.expr]
    exact typed (pure trivial rfl)
  | .reference r =>
    rw [Tidying.expr]
    exact reference
  | .constructor m name =>
    rw [Tidying.expr]
    exact typed constructorType
  | .array m elements =>
    rw [Tidying.expr] at he ⊢
    simp only [Expr.nodes, stays_cons] at he
    exact typed ((expressions gone elements he.2).bind fun _ _ => pure trivial rfl)
  | .field m stem name =>
    rw [Tidying.expr] at he ⊢
    simp only [Expr.nodes, stays_cons] at he
    exact typed ((expression gone stem he.2).bind fun _ _ => fieldType)
  | .index m array index =>
    rw [Tidying.expr] at he ⊢
    simp only [Expr.nodes, stays_cons, stays_append] at he
    refine typed ((expression gone array he.2.1).bind fun t _ =>
      (expression gone index he.2.2).discard.bind fun _ _ => ?_)
    cases t <;> exact pure trivial rfl
  | .call m callee arguments =>
    rw [Tidying.expr] at he ⊢
    simp only [Expr.nodes, stays_cons, stays_append] at he
    refine typed ((expression gone callee he.2.1).bind fun t _ =>
      (expressions gone arguments he.2.2).discard.bind fun _ _ => ?_)
    cases t <;> exact pure trivial rfl
  | .not m operand =>
    rw [Tidying.expr] at he ⊢
    simp only [Expr.nodes, stays_cons] at he
    exact typed ((expression gone operand he.2).discard.bind fun _ _ => pure trivial rfl)
  | .binary m op left right =>
    rw [Tidying.expr] at he ⊢
    simp only [Expr.nodes, stays_cons, stays_append] at he
    exact typed ((expression gone left he.2.1).bind fun _ _ => (expression gone right he.2.2).bind
      fun _ _ => pure trivial rfl)
  | .assign m target value =>
    rw [Tidying.expr] at he ⊢
    simp only [Expr.nodes, stays_cons, stays_append] at he
    exact typed ((expression gone value he.2.2).discard.bind fun _ _ => expression gone target he.2.1)
  | .paren m inner =>
    rw [Tidying.expr] at he ⊢
    split at he
    · rename_i hdrops
      rw [if_pos hdrops]
      exact typed_left (gone m inner (Bool.and_eq_true_iff.mp hdrops).2) (expression gone inner he)
    · rename_i hkeeps
      rw [if_neg hkeeps]
      simp only [Expr.nodes, stays_cons] at he
      exact typed (expression gone inner he.2)
  | .query m target question =>
    rw [Tidying.expr] at he ⊢
    simp only [Expr.nodes, stays_cons] at he
    exact typed (reference.discard.bind fun _ _ => (expression gone question he.2.2).discard.bind
      fun _ _ => pure trivial rfl)
  | .placeholder m name type =>
    rw [Tidying.expr] at he ⊢
    exact typed (placeholder he.expr)
  | .logic goal =>
    rw [Tidying.expr] at he ⊢
    rw [Expr.nodes] at he
    exact logic gone goal he

theorem expressions (gone : c.Gone) (es : List Expr) {value : Bool}
    (hes : c.Stays (Expr.nodesOfList (c.exprs value es))) :
    c.Follows id (fun _ => True) (expressions es i) (expressions (c.exprs value es) i) := by
  match es with
  | [] =>
    rw [Tidying.exprs]
    exact pure trivial rfl
  | e :: es =>
    rw [Tidying.exprs, Expr.nodesOfList, stays_append] at hes
    rw [Tidying.exprs]
    exact (expression gone e hes.1).bind fun _ _ => (expressions gone es hes.2).bind
      fun _ _ => pure trivial rfl

theorem logic (gone : c.Gone) (goal : Goal) (hg : c.Stays (c.goal goal).nodes) :
    c.Follows id (fun _ => True) (logic goal i) (logic (c.goal goal) i) := by
  match goal with
  | .atom m name =>
    rw [Tidying.goal]
    exact typed (postpone.bind fun _ _ => pure trivial rfl)
  | .call m functor arguments =>
    rw [Tidying.goal] at hg ⊢
    simp only [Goal.nodes, stays_cons] at hg
    exact typed ((expressions gone arguments hg.2).discard.bind fun _ _ => postpone.bind
      fun _ _ => pure trivial rfl)
  | .paren m inner =>
    rw [Tidying.goal] at hg ⊢
    simp only [Goal.nodes, stays_cons] at hg
    exact typed ((logic gone inner hg.2).discard.bind fun _ _ => pure trivial rfl)
  | .not m operand =>
    rw [Tidying.goal] at hg ⊢
    simp only [Goal.nodes, stays_cons] at hg
    exact typed ((logic gone operand hg.2).discard.bind fun _ _ => pure trivial rfl)
  | .binary m op left right =>
    rw [Tidying.goal] at hg ⊢
    simp only [Goal.nodes, stays_cons, stays_append] at hg
    exact typed ((logic gone left hg.2.1).discard.bind fun _ _ =>
      (logic gone right hg.2.2).discard.bind fun _ _ => pure trivial rfl)

end

theorem predicate {d : Decl} {functor : String} {params : List Ty} (hd : c.Knows d) :
    c.Follows id (fun _ => True) (predicate d m functor params i)
      (predicate (c.decl d) m functor params i) := by
  have hnew : c.Follows id (fun _ => True)
      (Analysis.declare i functor d m >>= fun _ => Analysis.setDecl m d)
      (Analysis.declare i functor (c.decl d) m >>= fun _ => Analysis.setDecl m (c.decl d)) :=
    (declare hd).bind fun _ _ => setDecl hd
  refine setType.bind fun _ _ => find.bind fun found hfound => ?_
  rcases found with _ | ⟨existing, owner⟩
  · exact hnew
  · dsimp only [Option.map_some]
    rw [Tidying.isPredicate_decl]
    cases existing.isPredicate with
    | false => exact hnew
    | true => exact setScope.bind fun _ _ => setDecl (hfound existing owner rfl)

theorem parameter {p : Parameter} (hp : c.stays p.mark.id) :
    c.Follows id (fun _ => True) (parameter p i) (parameter p i) := by
  have hd : c.Knows (.parameter p.mark p.name) := stays_of_some hp
  exact (resolveType p.type).bind fun _ _ => (declare hd).bind fun _ _ => setType.bind
    fun _ _ => pure trivial rfl

theorem parameters {ps : List Parameter} (hps : ∀ p ∈ ps, c.stays p.mark.id) :
    c.Follows id (fun _ => True) (parameters ps i) (parameters ps i) := by
  induction ps with
  | nil => exact pure trivial rfl
  | cons p ps ih =>
    simp only [List.forall_mem_cons] at hps
    exact (parameter hps.1).bind fun _ _ => (ih hps.2).bind fun _ _ => pure trivial rfl

theorem fields (fs : List FieldDecl) :
    c.Follows id (fun _ => True) (fields fs i) (fields fs i) := by
  induction fs with
  | nil => exact pure trivial rfl
  | cons f fs ih => exact (resolveType f.type).bind fun _ _ => setType.bind fun _ _ => ih

theorem varDecl (gone : c.Gone) {d : VarDecl} (hd : c.Stays (Stmt.var (c.var d)).nodes) :
    c.Follows id (fun _ => True) (varDecl d i) (varDecl (c.var d) i) := by
  obtain ⟨m, name, type, initializer⟩ := d
  have hknows : c.Knows (.var m name) := stays_of_some hd.stmt
  have hrest {typing : Pass Ty} (h : c.Follows id (fun _ => True) typing typing) :
      c.Follows id (fun _ => True)
        (typing >>= fun t => do Analysis.declare i name (.var m name) m; Analysis.setType m t)
        (typing >>= fun t => do Analysis.declare i name (.var m name) m; Analysis.setType m t) :=
    h.bind fun _ _ => (declare hknows).bind fun _ _ => setType
  cases initializer with
  | none =>
    refine (pure (F := id) (V := fun _ => True) trivial rfl).bind fun initial _ => ?_
    cases type with
    | none => exact hrest (pure trivial rfl)
    | some type => exact hrest (resolveType type)
  | some e =>
    simp only [Stmt.nodes, VarDecl.nodes, stays_cons, stays_append] at hd
    refine (expression gone e hd.2.2).bind fun initial _ => ?_
    cases type with
    | none => exact hrest (pure trivial rfl)
    | some type => exact hrest (resolveType type)

theorem atom {d : AtomDecl} (hd : c.stays d.mark.id) :
    c.Follows id (fun _ => True) (atom d i) (atom d i) := by
  have hknows : c.Knows (.atom d.mark d.name) := stays_of_some hd
  have hrest : c.Follows id (fun _ => True)
      (Analysis.setScope d.mark i >>= fun _ => Analysis.setType d.mark .bool)
      (Analysis.setScope d.mark i >>= fun _ => Analysis.setType d.mark .bool) :=
    setScope.bind fun _ _ => setType
  refine findLocal.bind fun found _ => ?_
  cases found with
  | none => exact (enter hknows).discard.bind fun _ _ => hrest
  | some existing =>
    dsimp only [Option.map_some]
    rw [Tidying.isAtom_decl]
    split
    · exact hrest
    · exact report.bind fun _ _ => hrest

theorem fact (gone : c.Gone) {d : FactDecl} (hd : c.Stays (Stmt.fact (c.fact d)).nodes) :
    c.Follows id (fun _ => True) (fact d i) (fact (c.fact d) i) := by
  have hknows : c.Knows (.fact d.mark d.functor) := stays_of_some hd.stmt
  simp only [Stmt.nodes, FactDecl.nodes, stays_cons] at hd
  exact (expressions gone d.arguments hd.2).bind fun _ _ => predicate hknows

theorem rule (gone : c.Gone) {d : RuleDecl} (hd : c.Stays (Stmt.rule (c.rule d)).nodes) :
    c.Follows id (fun _ => True) (rule d i) (rule (c.rule d) i) := by
  have hknows : c.Knows (.rule d.mark d.functor) := stays_of_some hd.stmt
  obtain ⟨hparameters, hbody⟩ := hd.rule
  exact openScope.bind fun body _ => setBodyScope.bind fun _ _ => (parameters hparameters).bind
    fun _ _ => (predicate hknows).bind fun _ _ => (logic gone d.body hbody).discard

theorem call (gone : c.Gone) {p : PredicateCall} (hp : c.Stays (c.call p).goal.nodes) :
    c.Follows id (fun _ => True) (Analysis.logic p.goal i) (Analysis.logic (c.call p).goal i) := by
  simp only [PredicateCall.goal, Goal.nodes, stays_cons] at hp
  exact typed ((expressions gone p.arguments hp.2).discard.bind fun _ _ => postpone.bind
    fun _ _ => pure trivial rfl)

theorem openBlock : c.Follows id (fun _ => True) (openBlock m i) (openBlock m i) :=
  openScope.bind fun _ _ => setScope.bind fun _ _ => pure trivial rfl

theorem hoist (hcuts : c.cuts = false) {ss : List Stmt}
    (hss : c.Stays (Stmt.nodesOfList (c.stmts ss))) :
    c.Follows id (fun _ => True) (hoist ss i) (hoist (c.stmts ss) i) := by
  induction ss with
  | nil =>
    rw [Tidying.stmts]
    exact pure trivial rfl
  | cons s ss ih =>
    rw [Tidying.stmts, hcuts, Bool.false_and, if_neg Bool.false_ne_true] at hss ⊢
    rw [Stmt.nodesOfList, stays_append] at hss
    cases s with
    | struct d =>
      rw [Tidying.stmt] at hss ⊢
      have hknows : c.Knows (.struct d) := hss.1
      exact (declare hknows).bind fun _ _ => ih hss.2
    | function d =>
      rw [Tidying.stmt_function] at hss ⊢
      have hknows : c.Knows (.function d) := hss.1
      exact (declare hknows).bind fun _ _ => ih hss.2
    | block b =>
      rw [Tidying.stmt_block]
      exact ih hss.2
    | cond m condition yes no =>
      rw [Tidying.stmt_cond]
      exact ih hss.2
    | _ =>
      rw [Tidying.stmt]
      exact ih hss.2

theorem signature {params : List Parameter} {returnType : Option TypeExpr} (hm : c.stays m.id)
    (hparams : ∀ p ∈ params, c.stays p.mark.id) :
    c.Follows id (fun _ => True) (signature m params returnType i)
      (signature m params returnType i) :=
  (functionType hm).bind fun _ _ => setType.bind fun _ _ => openScope.bind fun _ _ =>
    setBodyScope.bind fun _ _ => (parameters hparams).discard.bind fun _ _ => pure trivial rfl

mutual

theorem statement (gone : c.Gone) (hcuts : c.cuts = false) (s : Stmt) {i : ScopeId}
    (hs : c.Stays (c.stmt s).nodes) :
    c.Follows id (fun _ => True) (statement s i) (statement (c.stmt s) i) := by
  match s with
  | .block ⟨m, body⟩ =>
    rw [Tidying.stmt] at hs ⊢
    simp only [Stmt.nodes, stays_cons] at hs
    exact openBlock.bind fun _ _ => (hoist hcuts hs.2).bind fun _ _ =>
      statements gone hcuts body hs.2
  | .expr m e =>
    rw [Tidying.stmt] at hs ⊢
    simp only [Stmt.nodes, stays_cons] at hs
    exact (expression gone e hs.2).discard
  | .var d =>
    rw [Tidying.stmt] at hs ⊢
    exact varDecl gone hs
  | .function ⟨m, name, params, returnType, ⟨block, body⟩⟩ =>
    rw [Tidying.stmt] at hs ⊢
    simp only [Stmt.nodes, stays_cons, stays_append] at hs
    obtain ⟨hmark, ⟨hparams, -⟩, -, hbody⟩ := hs
    have hparams : ∀ p ∈ params, c.stays p.mark.id := fun p hp =>
      hparams _ (List.mem_flatMap.mpr ⟨p, hp, List.mem_cons_self⟩)
    exact (signature hmark hparams).bind fun _ _ => openBlock.bind fun _ _ =>
      (hoist hcuts hbody).bind fun _ _ => statements gone hcuts body hbody
  | .struct d =>
    rw [Tidying.stmt]
    exact setType.bind fun _ _ => fields d.fields
  | .cond m condition yes none =>
    rw [Tidying.stmt] at hs ⊢
    simp only [Stmt.nodes, stays_cons, stays_append] at hs
    exact (expression gone condition hs.2.1).discard.bind fun _ _ =>
      statement gone hcuts yes hs.2.2
  | .cond m condition yes (some no) =>
    rw [Tidying.stmt] at hs ⊢
    simp only [Stmt.nodes, stays_cons, stays_append] at hs
    exact (expression gone condition hs.2.1.1).discard.bind fun _ _ =>
      (statement gone hcuts yes hs.2.1.2).bind fun _ _ => statement gone hcuts no hs.2.2
  | .loop m condition body =>
    rw [Tidying.stmt] at hs ⊢
    simp only [Stmt.nodes, stays_cons, stays_append] at hs
    exact (expression gone condition hs.2.1).discard.bind fun _ _ =>
      statement gone hcuts body hs.2.2
  | .ret m none =>
    rw [Tidying.stmt]
    exact pure trivial rfl
  | .ret m (some e) =>
    rw [Tidying.stmt] at hs ⊢
    simp only [Option.map_some, Stmt.nodes, stays_cons] at hs
    exact (expression gone e hs.2).discard
  | .atom d =>
    rw [Tidying.stmt] at hs ⊢
    exact atom hs.stmt
  | .fact d =>
    rw [Tidying.stmt] at hs ⊢
    exact fact gone hs
  | .rule d =>
    rw [Tidying.stmt] at hs ⊢
    exact rule gone hs
  | .unify m left right =>
    rw [Tidying.stmt] at hs ⊢
    simp only [Stmt.nodes, stays_cons, stays_append] at hs
    exact (call gone hs.2.1).discard.bind fun _ _ => (call gone hs.2.2).discard

theorem statements (gone : c.Gone) (hcuts : c.cuts = false) (ss : List Stmt) {i : ScopeId}
    (hss : c.Stays (Stmt.nodesOfList (c.stmts ss))) :
    c.Follows id (fun _ => True) (statements ss i) (statements (c.stmts ss) i) := by
  match ss with
  | [] =>
    rw [Tidying.stmts]
    exact pure trivial rfl
  | s :: ss =>
    rw [Tidying.stmts, hcuts, Bool.false_and, if_neg Bool.false_ne_true] at hss ⊢
    rw [Stmt.nodesOfList, stays_append] at hss
    exact (statement gone hcuts s hss.1).bind fun _ _ => statements gone hcuts ss hss.2

end

theorem settle {q : Pending} : c.Follows id (fun _ => True) (settle q) (settle q) := by
  refine find.bind fun found hfound => ?_
  rcases found with _ | ⟨d, owner⟩
  · exact pure trivial rfl
  · have hsettled : c.Follows id (fun _ => True)
        (Analysis.setDecl q.mark d >>= fun _ => Analysis.setScope q.mark owner)
        (Analysis.setDecl q.mark (c.decl d) >>= fun _ => Analysis.setScope q.mark owner) :=
      (setDecl (hfound d owner rfl)).bind fun _ _ => setScope
    dsimp only [Option.map_some]
    rw [Tidying.isAtom_decl, Tidying.isPredicate_decl]
    cases q.form with
    | atom =>
      cases d.isAtom with
      | true => exact hsettled
      | false => exact pure trivial rfl
    | predicate =>
      cases d.isPredicate with
      | true => exact hsettled
      | false => exact pure trivial rfl

theorem settleAll (qs : List Pending) :
    c.Follows id (fun _ => True) (settleAll qs) (settleAll qs) := by
  induction qs with
  | nil => exact pure trivial rfl
  | cons q qs ih => exact settle.bind fun _ _ => ih

theorem enterAll {ds : List Decl} (hds : ∀ d ∈ ds, d.isBuiltin = true) :
    c.Follows id (fun _ => True) (enterAll i ds) (enterAll i ds) := by
  induction ds with
  | nil => exact pure trivial rfl
  | cons d ds ih =>
    simp only [List.forall_mem_cons] at hds
    have henter : c.Follows id (fun _ => True) (Analysis.enter i d.name d)
        (Analysis.enter i d.name d) := by
      cases d with
      | builtinType p => exact enter (d := .builtinType p) fun _ h => by cases h
      | builtinFunction name => exact enter (d := .builtinFunction name) fun _ h => by cases h
      | _ => cases hds.1
    exact henter.discard.bind fun _ _ => ih hds.2

theorem program (gone : c.Gone) (hcuts : c.cuts = false) {p : Program}
    (hp : c.Stays (c.program p).nodes) :
    c.Follows id (fun _ => True) (program p) (program (c.program p)) := by
  simp only [Program.nodes, stays_cons] at hp
  have hbuiltins : ∀ d ∈ builtins, d.isBuiltin = true := by decide
  refine openScope.bind fun root _ => setScope.bind fun _ _ => (enterAll hbuiltins).bind
    fun _ _ => (hoist hcuts hp.2).bind fun _ _ => (statements gone hcuts p.statements hp.2).bind
    fun _ _ => get_bind fun s s' h => ?_
  rw [h.pending]
  exact settleAll s.pending

end Follows

/-- The analysis reports the same issues with and without the parentheses, and its tables fit. -/
theorem analyze_tidied (gone : c.Gone) (hcuts : c.cuts = false) {p : Program}
    (hp : c.Stays (c.program p).nodes) :
    (analyze (c.program p)).2 = (analyze p).2 ∧
      (analyze (c.program p)).1.scopes = c.scopes (analyze p).1.scopes ∧
      (∀ id, c.stays id → (analyze (c.program p)).1.attributes id =
        c.attributes ((analyze p).1.attributes id)) ∧
      ∀ id d, c.stays id → ((analyze p).1.attributes id).decl = some d → c.Knows d := by
  have hempty : c.Tracks {} {} := {
    issues := rfl
    pending := rfl
    scopes := by simp [Tidying.scopes]
    attributes := fun _ _ => rfl
    declared := fun _ _ _ h => nomatch h
    filed := fun _ _ _ h => nomatch h }
  have hanalyze : ∀ p : Program, analyze p =
      ((Analysis.program p {}).2.table, (Analysis.program p {}).2.issues) := fun p => by
    unfold analyze StateT.run
    with_reducible rfl
  obtain ⟨-, -, h⟩ := Follows.program gone hcuts hp {} {} hempty
  rw [hanalyze, hanalyze]
  dsimp only
  exact ⟨h.issues, h.scopes, h.attributes, h.filed⟩

end Comparison

end LogicScript
