import LogicScript.Proofs.FieldTypes
import LogicScript.Proofs.Turning
import LogicScript.Proofs.Unification

/-! What the analysis files for the arguments of a unification.

Of the literals, placeholders and names that stand there only the placeholders declare anything, and
that in the outermost scope. So what the analysis files for an argument does not depend on the order in
which it comes to them. -/
namespace LogicScript

open Analysis

namespace Expr

def isOperand : Expr → Bool
  | .placeholder _ _ _ | .reference _ => true
  | e => e.isLiteral

theorem isOperand_cases {e : Expr} (h : e.isOperand = true) :
    e.isLiteral = true ∨ (∃ r, e = .reference r) ∨ ∃ m name type, e = .placeholder m name type := by
  unfold isOperand at h
  split at h
  · exact .inr (.inr ⟨_, _, _, rfl⟩)
  · exact .inr (.inl ⟨_, rfl⟩)
  · exact .inl h

theorem self_visit (e : Expr) (i : ScopeId) (s : State) : ⟨.expression e, i, s⟩ ∈ e.visits i s := by
  cases e with
  | logic goal => cases goal <;> exact List.mem_cons_self
  | _ => exact List.mem_cons_self

end Expr

/-- The declaration is that of a placeholder among the arguments. -/
def Decl.Among (arguments : List Expr) (d : Decl) : Prop :=
  ∃ m name type, .placeholder m name type ∈ arguments ∧ d = .placeholder m name

namespace Analysis

mutual

theorem literal_walk (e : Expr) (he : e.isLiteral = true) : ∃ t, ∀ i s,
    (expression e i s).1 = t ∧ (s.after (expression e i)).table.scopes = s.table.scopes := by
  match e, he with
  | .array m elements, he =>
    obtain ⟨ts, hwalk⟩ := literals_walk elements (by simpa only [Expr.isLiteral] using he)
    refine ⟨.array (elementType ts), fun i s => ?_⟩
    obtain ⟨htypes, hscopes⟩ := hwalk i s
    exact ⟨congrArg (fun ts => Ty.array (elementType ts)) htypes, hscopes⟩
  | .int _ _, _ | .float _ _, _ | .string _ _, _ | .bool _ _, _ | .null _, _
  | .logic (.atom _ _), _ => exact ⟨_, fun _ _ => ⟨rfl, rfl⟩⟩

theorem literals_walk (es : List Expr) (hes : Expr.areLiterals es = true) : ∃ ts, ∀ i s,
    (expressions es i s).1 = ts ∧ (s.after (expressions es i)).table.scopes = s.table.scopes := by
  match es with
  | [] => exact ⟨[], fun _ _ => ⟨rfl, rfl⟩⟩
  | e :: es =>
    simp only [Expr.areLiterals, Bool.and_eq_true] at hes
    obtain ⟨t, hfirst⟩ := literal_walk e hes.1
    obtain ⟨ts, hrest⟩ := literals_walk es hes.2
    refine ⟨t :: ts, fun i s => ?_⟩
    obtain ⟨htype, hscopes⟩ := hfirst i s
    obtain ⟨htypes, hscopes'⟩ := hrest i (s.after (expression e i))
    exact ⟨congrArg₂ List.cons htype htypes, hscopes'.trans hscopes⟩

end

variable {all : List Node} {i : ScopeId} {s s' : State}

/-- Nothing is declared but some of the placeholders, in the outermost scope. -/
structure Grown (all : List Node) (arguments : List Expr) (i : ScopeId) (s s' : State) : Prop
    extends Kept all (fun _ _ => True) s s' where
  there : i < s.table.scopes.all.size
  only : ∀ {j name d}, s'.table.scopes.findLocal j name = some d →
    s.table.scopes.findLocal j name = some d ∨ j = s.table.scopes.root i ∧ d.Among arguments

namespace Grown

variable {arguments : List Expr} {s'' : State} {name : String} {d : Decl} {owner : ScopeId}

theorem refl (hi : i < s.table.scopes.all.size) : Grown all arguments i s s :=
  ⟨.refl s, hi, fun h => .inl h⟩

theorem of_same (h : Kept all (fun _ _ => True) s s') (hi : i < s.table.scopes.all.size)
    (hsame : ∀ j name, s'.table.scopes.findLocal j name = s.table.scopes.findLocal j name) :
    Grown all arguments i s s' := ⟨h, hi, fun hd => .inl ((hsame _ _).symm.trans hd)⟩

theorem root (h : Grown all arguments i s s') :
    s'.table.scopes.root i = s.table.scopes.root i := by
  unfold Scopes.root
  rw [h.chain h.there]

theorem trans (h : Grown all arguments i s s') (h' : Grown all arguments i s' s'') :
    Grown all arguments i s s'' := by
  refine ⟨h.toKept.trans h'.toKept, h.there, fun hd => ?_⟩
  rcases h'.only hd with hd | hd
  · exact h.only hd
  · exact .inr (h.root ▸ hd)

/-- A name that is found, and is none of the placeholders, was there already. -/
theorem find_before (h : Grown all arguments i s s')
    (hfind : s'.table.scopes.find i name = some (d, owner)) (hd : ¬ d.Among arguments) :
    s.table.scopes.find i name = some (d, owner) := by
  unfold Scopes.find at hfind ⊢
  rw [h.chain h.there] at hfind
  generalize s.table.scopes.chain i = scopes at hfind ⊢
  induction scopes with
  | nil => cases hfind
  | cons j rest ih =>
    unfold Scopes.findIn at hfind ⊢
    cases hold : s.table.scopes.findLocal j name with
    | some e =>
      rw [h.declared hold] at hfind
      exact hfind
    | none =>
      cases hnew : s'.table.scopes.findLocal j name with
      | none =>
        rw [hnew] at hfind
        exact ih hfind
      | some e =>
        rw [hnew] at hfind
        cases hfind
        rcases h.only hnew with hsome | ⟨-, hamong⟩
        · cases hold.symm.trans hsome
        · exact absurd hamong hd

/-- A name that was found still means the same, as there is no scope around the outermost one. -/
theorem find_after (h : Grown all arguments i s s')
    (hlast : ∀ above, s.table.scopes.root i :: above <:+ s.table.scopes.chain i → above = [])
    (hfind : s.table.scopes.find i name = some (d, owner)) :
    s'.table.scopes.find i name = some (d, owner) := by
  unfold Scopes.find at hfind ⊢
  rw [h.chain h.there]
  generalize s.table.scopes.chain i = scopes at hlast hfind ⊢
  induction scopes with
  | nil => cases hfind
  | cons j rest ih =>
    have hrest := ih fun above habove => hlast above (habove.trans (List.suffix_cons ..))
    unfold Scopes.findIn at hfind ⊢
    cases hold : s.table.scopes.findLocal j name with
    | some e =>
      rw [hold] at hfind
      rw [h.declared hold]
      exact hfind
    | none =>
      rw [hold] at hfind
      cases hnew : s'.table.scopes.findLocal j name with
      | none => exact hrest hfind
      | some e =>
        rcases h.only hnew with hsome | ⟨rfl, -⟩
        · cases hold.symm.trans hsome
        · rw [hlast rest (List.suffix_refl _)] at hfind
          cases hfind

theorem expression {e : Expr} (he : e.isOperand = true) (hmem : e ∈ arguments)
    (h : Ready all e.nodes i s) : Grown all arguments i s (s.after (expression e i)) := by
  have hkept : Kept all (fun _ _ => True) s (s.after (Analysis.expression e i)) :=
    (Trace.expression e h).step.toKept.mono fun _ _ _ => trivial
  rcases Expr.isOperand_cases he with hliteral | ⟨r, rfl⟩ | ⟨m, name, type, rfl⟩
  · obtain ⟨t, hwalk⟩ := literal_walk e hliteral
    exact of_same hkept h.there fun j name => congrArg (·.findLocal j name) (hwalk i s).2
  · exact of_same hkept h.there (Plain.reference h.known).same
  · have hadds : Ends s (typed m (placeholder m name type i)) fun s' _ =>
        Adds all (fun _ _ => True) (s.table.scopes.root i) (.placeholder m name) s s' :=
      Ends.bind (Adds.placeholder name type trivial trivial : Ends s _ fun s' _ =>
        Adds all _ _ _ s s' ∧ _) fun s₁ t h₁ => h₁.1.next (.setType trivial)
    refine ⟨hkept, h.there, fun hd => (hadds.only hd).imp_right ?_⟩
    rintro ⟨hroot, rfl⟩
    exact ⟨hroot, m, _, type, hmem, rfl⟩

/-- The analysis comes to each argument of a list when nothing is declared but some placeholders. -/
theorem expressions {es : List Expr} (hes : ∀ e ∈ es, e ∈ arguments ∧ e.isOperand = true)
    (h : Ready all (Expr.nodesOfList es) i s) :
    Grown all arguments i s (s.after (expressions es i)) ∧ ∀ e ∈ es, ∃ s₁,
      ⟨.expression e, i, s₁⟩ ∈ Expr.visitsOfList es i s ∧ Grown all arguments i s s₁ := by
  induction es generalizing s with
  | nil => exact ⟨.refl h.there, by simp⟩
  | cons e es ih =>
    simp only [List.mem_cons, forall_eq_or_imp] at hes ⊢
    have hready : Ready all e.nodes i s := h.sublist (List.sublist_append_left ..)
    have hfirst := Grown.expression hes.1.2 hes.1.1 hready
    have hnext := (h.sublist (List.sublist_append_right ..)).next (Trace.expression e hready).step
    obtain ⟨hrest, hvisits⟩ := ih hes.2 hnext
    refine ⟨hfirst.trans hrest, ⟨s, List.mem_append_left _ (e.self_visit i s), .refl h.there⟩, ?_⟩
    intro e' he'
    obtain ⟨s₁, hvisit, hgrown⟩ := hvisits e' he'
    exact ⟨s₁, List.mem_append_right _ hvisit, hfirst.trans hgrown⟩

theorem unify {m : Mark} {left right : PredicateCall} (arguments : List Expr)
    (hes : ∀ e ∈ left.arguments ++ right.arguments, e ∈ arguments ∧ e.isOperand = true)
    (h : Ready all (Stmt.unify m left right).nodes i s) :
    ∀ e ∈ left.arguments ++ right.arguments, ∃ s₁,
      ⟨.expression e, i, s₁⟩ ∈ (Stmt.unify m left right).visits i s ∧ Grown all arguments i s s₁ := by
  have hboth : Ready all (left.goal.nodes ++ right.goal.nodes) i s := h.sublist (by simp [Stmt.nodes])
  have hleft := hboth.sublist (List.sublist_append_left ..)
  have hright := (hboth.sublist (List.sublist_append_right ..)).next (Trace.logic left.goal hleft).step
  have hinner : ∀ {call : PredicateCall} {s : State}, Ready all call.goal.nodes i s →
      Ready all (Expr.nodesOfList call.arguments) i s := fun h =>
    h.sublist (by simp [PredicateCall.goal, Goal.nodes])
  obtain ⟨hfirst, hvisits⟩ := expressions (fun e he => hes e (List.mem_append_left _ he)) (hinner hleft)
  have hgoal : Grown all arguments i s (s.after (logic left.goal i)) :=
    ⟨(Trace.logic left.goal hleft).step.toKept.mono fun _ _ _ => trivial, h.there, hfirst.only⟩
  obtain ⟨-, hvisits'⟩ :=
    expressions (fun e he => hes e (List.mem_append_right _ he)) (hinner hright)
  intro e he
  rcases List.mem_append.mp he with he | he
  · obtain ⟨s₁, hvisit, hgrown⟩ := hvisits e he
    refine ⟨s₁, List.mem_cons_of_mem _ (List.mem_append_left _ ?_), hgrown⟩
    exact List.mem_cons_of_mem _ hvisit
  · obtain ⟨s₁, hvisit, hgrown⟩ := hvisits' e he
    refine ⟨s₁, List.mem_cons_of_mem _ (List.mem_append_right _ ?_), hgoal.trans hgrown⟩
    exact List.mem_cons_of_mem _ hvisit

end Grown

theorem placeholder_type {m : Mark} {name : String} {type : TypeExpr} {t : Ty} {s₁ : State}
    (h : resolveType type i s = (t, s₁)) :
    Ends s (expression (.placeholder m name type) i) fun s' t' =>
      t' = t ∧ s₁.issues <+: s'.issues := by
  have hself : Ends s (placeholder m name type i) fun s' t' =>
      t' = t ∧ s₁.issues <+: s'.issues := by
    refine Ends.get_bind ?_
    have htype : Ends s (resolveType type i) fun s' t' => t = t' ∧ s₁ = s' := by
      rw [Ends, h]
      exact ⟨rfl, rfl⟩
    refine htype.bind ?_
    rintro _ _ ⟨rfl, rfl⟩
    have hfind : Ends s₁ (findLocal (s.table.scopes.root i) name) fun s' _ => s₁ = s' := rfl
    refine hfind.bind ?_
    rintro _ found rfl
    have hfile : ∀ {s₂ : State}, s₁.issues <+: s₂.issues →
        Ends s₂ (setScope m (s.table.scopes.root i) >>= fun _ =>
          setDecl m (.placeholder m name) >>= fun _ => pure t) fun s' t' =>
          t' = t ∧ s₁.issues <+: s'.issues := fun h => ⟨rfl, h⟩
    cases found with
    | none =>
      have henter : Ends s₁ (enter (s.table.scopes.root i) name (.placeholder m name)) fun s' _ =>
          s₁.issues <+: s'.issues := List.prefix_refl _
      exact henter.discard.bind fun s₂ _ h₂ => hfile h₂
    | some existing =>
      dsimp only
      split
      · exact hfile (List.prefix_refl _)
      · have hreport : Ends s₁ (report m (.alreadyDeclaredInRoot name)) fun s' _ =>
            s₁.issues <+: s'.issues := List.prefix_append ..
        exact hreport.bind fun s₂ _ h₂ => hfile h₂
  have htyped : Ends s (typed m (placeholder m name type i)) fun s' t' =>
      t' = t ∧ s₁.issues <+: s'.issues := hself.bind fun _ _ h => h
  exact htyped

end Analysis

namespace Program

variable {p : Program} {v : Visit} {name : String} {d : Decl}

/-- Where the analysis comes to a statement, there is no scope around the outermost one. -/
theorem root_last {st : Stmt} {i : ScopeId} {s : State} (hp : p.Numbered)
    (hv : ⟨.statement st, i, s⟩ ∈ p.visits) {above : List ScopeId}
    (h : s.table.scopes.root i :: above <:+ s.table.scopes.chain i) : above = [] := by
  obtain ⟨I, J, hb⟩ := between hp hv
  have hready := (lasts hp hv).ready
  have hpass := (Trace.statement st hready).step
  have hstays : p.settled.table.scopes.chain i = s.table.scopes.chain i :=
    (hb.after.chain (Nat.lt_of_lt_of_le hready.there hpass.size)).trans (hpass.chain hready.there)
  have hroot : p.settled.table.scopes.root i = s.table.scopes.root i :=
    congrArg (·.getLastD i) hstays
  rw [← hstays, ← hroot] at h
  have hnested := (settled_sound hp).nested
  have hnone := hnested.outer_root i
  rcases List.suffix_cons_iff.mp h with heq | ⟨below, hbelow⟩
  · obtain ⟨hi, rfl⟩ := List.cons.inj heq
    rwa [hi] at hnone
  · exact (hnested i _ below above hbelow.symm).symm.trans hnone

/-- A name that is looked up where it stands is found, if there are no issues. -/
theorem name_found (hp : p.Numbered) (hok : p.settled.issues = []) (hv : v ∈ p.visits)
    (hname : v.node.name? = some name) : ∃ d owner,
      v.state.table.scopes.find v.scope name = some (d, owner) ∧
      (p.settled.table.attributes v.node.mark.id).decl = some d ∧
      (p.settled.table.attributes v.node.mark.id).scope = some owner := by
  have hlasts := lasts hp hv
  rcases (Visit.finds hname hlasts.ready.known).2 with ⟨-, hissues⟩ | ⟨d, owner, hfind, -, hdecl, hscope⟩
  · exact absurd (hlasts.issues hok) hissues
  · refine ⟨d, owner, hfind, ?_, ?_⟩
    · rw [hlasts.decl (nodeShare_name hname).1, hdecl]
    · rw [hlasts.scope (nodeShare_name hname).2, hscope]

/-- What is declared where the analysis comes to a statement has its type already. -/
theorem typeOf_declared {st : Stmt} {i j : ScopeId} {s : State} (hp : p.Numbered)
    (hv : ⟨.statement st, i, s⟩ ∈ p.visits) (hd : s.table.scopes.findLocal j name = some d)
    (htyped : d.isTyped = true) {m : Mark} (hm : d.mark? = some m) :
    p.settled.table.typeOf m = s.table.typeOf m := by
  obtain ⟨I, J, hb⟩ := between hp hv
  rcases hb.before.entries hd with hold | hbuiltin | ⟨n, hn, hdeclares, -, -, hfiled⟩
  · cases hold
  · rw [Decl.not_builtin htyped] at hbuiltin
    cases hbuiltin
  · have hmark := Node.mark?_declares hdeclares
    rw [hm] at hmark
    cases hmark
    have hnot := hp.not_function hn (by rintro f rfl; cases hdeclares; cases htyped)
    have hpass := (Trace.statement st (lasts hp hv).ready).step
    have hlasts := hb.after.type_eq (hb.apart _ _ (hfiled htyped).1) hnot
    have hstays := hpass.type_eq (hb.past _ _ (hfiled htyped).1) hnot
    rw [Table.typeOf, Table.typeOf, hlasts]
    exact congrArg (·.getD .void) hstays

theorem literal_typed {p' : Program} {e : Expr} (hp : p.Numbered) (hp' : p'.Numbered)
    (he : e.isLiteral = true) (hmem : .expression e ∈ p.nodes) (hmem' : .expression e ∈ p'.nodes) :
    p'.settled.table.typeOf e.mark = p.settled.table.typeOf e.mark := by
  obtain ⟨t, hwalk⟩ := literal_walk e he
  obtain ⟨⟨_, i, s⟩, hv, rfl⟩ := p.visited hmem rfl
  obtain ⟨⟨_, i', s'⟩, hv', heq⟩ := p'.visited hmem' rfl
  dsimp only at heq
  subst heq
  rw [typeOf_self hp hv, typeOf_self hp' hv', (hwalk i s).1, (hwalk i' s').1]

/-- The analysis comes to an argument of a statement in two programs. It came to the statement in
states that look alike, and declared nothing since then but some placeholders. -/
structure Parallel (p p' : Program) (arguments : List Expr) (e : Expr) (i : ScopeId)
    (t t' s s' : State) : Prop where
  outer : ∃ st, ⟨.statement st, i, t⟩ ∈ p.visits
  outer' : ∃ st, ⟨.statement st, i, t'⟩ ∈ p'.visits
  alike : t.Alike p.nodes t'
  grown : Grown p.nodes arguments i t s
  grown' : Grown p'.nodes arguments i t' s'
  visit : ⟨.expression e, i, s⟩ ∈ p.visits
  visit' : ⟨.expression e, i, s'⟩ ∈ p'.visits

theorem turn_parallel {mark : Mark} {left right : PredicateCall} (hp : p.Numbered)
    (h : .statement (.unify mark left right) ∈ p.nodes)
    (hes : ∀ e ∈ left.arguments ++ right.arguments, e.isOperand = true) :
    ∀ e ∈ left.arguments ++ right.arguments, ∃ i t t' s s',
      Parallel p (p.turn mark.id) (left.arguments ++ right.arguments) e i t t' s s' := by
  obtain ⟨i, t, t', halike, hvisits, hvisits'⟩ := turn_meet hp h
  have hvisit := hvisits List.mem_cons_self
  have hvisit' := hvisits' List.mem_cons_self
  have hgrown := Grown.unify (left.arguments ++ right.arguments)
    (fun e he => ⟨he, hes e he⟩) (lasts hp hvisit).ready
  have hgrown' := Grown.unify (left.arguments ++ right.arguments)
    (fun e he => ⟨List.mem_append.mpr (List.mem_append.mp he).symm,
      hes e (List.mem_append.mpr (List.mem_append.mp he).symm)⟩) (lasts (hp.turn mark.id) hvisit').ready
  intro e he
  obtain ⟨s, hs, hts⟩ := hgrown e he
  obtain ⟨s', hs', hts'⟩ := hgrown' e (List.mem_append.mpr (List.mem_append.mp he).symm)
  exact ⟨i, t, t', s, s', ⟨_, hvisit⟩, ⟨_, hvisit'⟩, halike, hts, hts', hvisits hs, hvisits' hs'⟩

namespace Parallel

variable {p' : Program} {arguments : List Expr} {e : Expr} {i owner : ScopeId} {t t' s s' : State}

theorem find (h : Parallel p p' arguments e i t t' s s') (hp' : p'.Numbered)
    (hfind : s.table.scopes.find i name = some (d, owner)) (hd : ¬ d.Among arguments) :
    t.table.scopes.find i name = some (d, owner) ∧ ∃ d', d.Alike p.nodes d' ∧
      t'.table.scopes.find i name = some (d', owner) ∧
      s'.table.scopes.find i name = some (d', owner) := by
  have hbefore := h.grown.find_before hfind hd
  obtain ⟨st, hst⟩ := h.outer'
  have hfound := h.alike.find i name
  rw [hbefore] at hfound
  revert hfound
  cases hafter : t'.table.scopes.find i name with
  | none =>
    intro hfound
    cases hfound
  | some y =>
    obtain ⟨d', owner'⟩ := y
    intro hfound
    cases hfound with
    | some hboth =>
      obtain ⟨rfl, hdd'⟩ := hboth
      exact ⟨hbefore, d', hdd', rfl, h.grown'.find_after (fun _ => root_last hp' hst) hafter⟩

theorem placeholder {m : Mark} {type : TypeExpr}
    (h : Parallel p p' arguments (.placeholder m name type) i t t' s s') (hp : p.Numbered)
    (hp' : p'.Numbered) (hok : p.settled.issues = []) (hok' : p'.settled.issues = []) :
    p'.settled.table.typeOf m = p.settled.table.typeOf m := by
  have hread : ∀ {p : Program} {s : State}, p.Numbered → p.settled.issues = [] →
      ⟨.expression (.placeholder m name type), i, s⟩ ∈ p.visits →
      ∃ u, Denotes s i type.base u ∧ p.settled.table.typeOf m = type.read u := by
    intro p s hp hok hv
    have hissues := (lasts hp hv).issues hok
    obtain ⟨htype, hprefix⟩ : Ends s (expression (.placeholder m name type) i) _ := placeholder_type rfl
    change (s.after (expression (.placeholder m name type) i)).issues = [] at hissues
    change _ <+: (s.after (expression (.placeholder m name type) i)).issues at hprefix
    rw [hissues, List.prefix_nil] at hprefix
    obtain ⟨u, hu, hresult⟩ := resolveType_reads type hprefix
    exact ⟨u, hu, (typeOf_self hp hv).trans (htype.trans hresult)⟩
  obtain ⟨u, ⟨d, owner, hfind, hd⟩, htype⟩ := hread hp hok h.visit
  obtain ⟨u', ⟨d', owner', hfind', hd'⟩, htype'⟩ := hread hp' hok' h.visit'
  have hother : ¬ d.Among arguments := by
    rintro ⟨m, name, type, -, rfl⟩
    cases hd
  obtain ⟨-, e, hde, -, he⟩ := h.find hp' hfind hother
  obtain ⟨rfl, -⟩ := Prod.mk.inj (Option.some.inj (he.symm.trans hfind'))
  cases hde with
  | same =>
    obtain rfl : u = u' := Option.some.inj (hd.symm.trans hd')
    rw [htype, htype']
  | function => cases hd

theorem reference {r : Reference} (h : Parallel p p' arguments (.reference r) i t t' s s')
    (hp : p.Numbered) (hp' : p'.Numbered) (hok : p.settled.issues = [])
    (hok' : p'.settled.issues = []) (hd : (p.settled.table.attributes r.mark.id).decl = some d)
    (hvar : d.isAssignable = true) (hother : ¬ d.Among arguments) :
    (p'.settled.table.attributes r.mark.id).decl = (p.settled.table.attributes r.mark.id).decl ∧
    (p'.settled.table.attributes r.mark.id).scope = (p.settled.table.attributes r.mark.id).scope ∧
    p'.settled.table.typeOf r.mark = p.settled.table.typeOf r.mark := by
  obtain ⟨c, owner, hfind, hdecl, hscope⟩ := name_found hp hok h.visit rfl
  obtain ⟨c', owner', hfind', hdecl', hscope'⟩ := name_found hp' hok' h.visit' rfl
  obtain rfl : d = c := Option.some.inj (hd.symm.trans hdecl)
  obtain ⟨hbefore, e, hde, hbefore', he⟩ := h.find hp' hfind hother
  obtain ⟨rfl, rfl⟩ := Prod.mk.inj (Option.some.inj (he.symm.trans hfind'))
  obtain rfl : d = e := by
    cases hde with
    | same => rfl
    | function => cases hvar
  refine ⟨hdecl'.trans hdecl.symm, hscope'.trans hscope.symm, ?_⟩
  have htyped : d.isTyped = true := by cases d <;> first | rfl | cases hvar
  obtain ⟨st, hst⟩ := h.outer
  obtain ⟨st', hst'⟩ := h.outer'
  have hmark : ∀ m, d.mark? = some m →
      p'.settled.table.typeOf m = p.settled.table.typeOf m := by
    intro m hm
    rw [typeOf_declared hp hst (Scopes.findIn_some hbefore).2 htyped hm,
      typeOf_declared hp' hst' (Scopes.findIn_some hbefore').2 htyped hm, h.alike.typeOf]
  rw [reference_typed hp ((lasts hp h.visit).ready.inside (Expr.self_mem_nodes _)) hdecl,
    reference_typed hp' ((lasts hp' h.visit').ready.inside (Expr.self_mem_nodes _)) hdecl']
  cases d with
  | var m | parameter m | placeholder m => exact hmark m rfl
  | _ => cases hvar

end Parallel

end Program

namespace Eval

variable {ctx ctx' : Context}

mutual

/-- The value of a literal depends on the types of the literals in it only. -/
theorem literal_congr (e : Expr) (m : Machine) (h : ∀ c, .expression c ∈ e.nodes →
      c.isLiteral = true → ctx'.table.typeOf c.mark = ctx.table.typeOf c.mark) :
    e.isLiteral = true → literal ctx' e m = literal ctx e m := by
  match e with
  | .array mark elements =>
    intro he
    have hself : ctx'.table.typeOf mark = ctx.table.typeOf mark :=
      h (.array mark elements) List.mem_cons_self he
    have helements := literals_congr elements m (fun c hc => h c (List.mem_cons_of_mem _ hc))
      (by simpa only [Expr.isLiteral] using he)
    simp only [literal, helements, elementTypeOf, hself]
  | .int _ _ | .float _ _ | .string _ _ | .bool _ _ | .null _ | .logic (.atom _ _) =>
    exact fun _ => rfl
  | .logic (.call _ _ _) | .logic (.paren _ _) | .logic (.not _ _) | .logic (.binary _ _ _ _)
  | .reference _ | .constructor _ _ | .field _ _ _ | .index _ _ _ | .call _ _ _ | .not _ _
  | .binary _ _ _ _ | .assign _ _ _ | .paren _ _ | .query _ _ _ | .placeholder _ _ _ =>
    exact fun he => by simp [Expr.isLiteral] at he

theorem literals_congr (es : List Expr) (m : Machine) (h : ∀ c, .expression c ∈ Expr.nodesOfList es →
      c.isLiteral = true → ctx'.table.typeOf c.mark = ctx.table.typeOf c.mark) :
    Expr.areLiterals es = true → literals ctx' es m = literals ctx es m := by
  match es with
  | [] => exact fun _ => rfl
  | e :: es =>
    intro hes
    simp only [Expr.areLiterals, Bool.and_eq_true] at hes
    have hfirst := literal_congr e m (fun c hc => h c (List.mem_append_left _ hc)) hes.1
    have hrest := literals_congr es (literal ctx e m).2
      (fun c hc => h c (List.mem_append_right _ hc)) hes.2
    simp only [literals, hfirst, hrest]

end

end Eval

/-- Two tables say the same about an argument. -/
structure Table.Same (t t' : Table) (e : Expr) : Prop where
  type : t'.typeOf e.mark = t.typeOf e.mark
  literal : e.isLiteral = true → ∀ limit m, literal ⟨t', limit⟩ e m = literal ⟨t, limit⟩ e m
  decl : ∀ r, e = .reference r →
    (t'.attributes r.mark.id).decl = (t.attributes r.mark.id).decl
  scope : e.isLiteral = false → (t'.attributes e.mark.id).scope = (t.attributes e.mark.id).scope

namespace Program

variable {p : Program} {mark : Mark} {left right : PredicateCall}

/-- The analysis says the same about the arguments of a unification when its sides change places. -/
theorem turn_same (hp : p.Numbered) (hok : p.settled.issues = [])
    (hok' : (p.turn mark.id).settled.issues = [])
    (h : .statement (.unify mark left right) ∈ p.nodes)
    (hes : ∀ e ∈ left.arguments ++ right.arguments, e.isOperand = true)
    (hvars : ∀ r, .reference r ∈ left.arguments ++ right.arguments →
      ∃ d, (p.settled.table.attributes r.mark.id).decl = some d ∧ d.isAssignable = true ∧
        ¬ d.Among (left.arguments ++ right.arguments)) :
    ∀ e ∈ left.arguments ++ right.arguments,
      p.settled.table.Same (p.turn mark.id).settled.table e := by
  intro e he
  have hp' := hp.turn mark.id
  obtain ⟨i, t, t', s, s', hparallel⟩ := turn_parallel hp h hes e he
  have hinside := (lasts hp hparallel.visit).ready.inside
  have hinside' := (lasts hp' hparallel.visit').ready.inside
  rcases Expr.isOperand_cases (hes e he) with hliteral | ⟨r, rfl⟩ | ⟨m, name, type, rfl⟩
  · refine ⟨?_, fun _ limit m => ?_, ?_, ?_⟩
    · exact literal_typed hp hp' hliteral (hinside e.self_mem_nodes) (hinside' e.self_mem_nodes)
    · exact Eval.literal_congr e m
        (fun c hc hc' => literal_typed hp hp' hc' (hinside hc) (hinside' hc)) hliteral
    · rintro r rfl
      cases hliteral
    · intro hnot
      cases hliteral.symm.trans hnot
  · obtain ⟨d, hd, hvar, hother⟩ := hvars r he
    obtain ⟨hdecl, hscope, htype⟩ := hparallel.reference hp hp' hok hok' hd hvar hother
    refine ⟨htype, fun hliteral => ?_, ?_, fun _ => hscope⟩
    · cases hliteral
    · rintro _ ⟨⟩
      exact hdecl
  · refine ⟨hparallel.placeholder hp hp' hok hok', fun hliteral => ?_, ?_, fun _ => ?_⟩
    · cases hliteral
    · rintro _ ⟨⟩
    · exact (placeholder_filed hp' (hinside' (Expr.self_mem_nodes _))).trans
        (placeholder_filed hp (hinside (Expr.self_mem_nodes _))).symm

end Program

end LogicScript
