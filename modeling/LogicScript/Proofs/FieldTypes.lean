import LogicScript.Proofs.Likeness
import LogicScript.Proofs.Typing

/-! The type of a field where it is declared and where it is accessed.

The analysis reads the written type of a field where the struct is declared, and reads it again at each
access, by what the names of types stand for there. So both are the same type if and only if the name
that is written stands for the same type in both places. -/
namespace LogicScript

open Analysis

namespace TypeExpr

/-- The name inside a written type. -/
def base : TypeExpr → String
  | .simple _ name => name
  | .array _ element => element.base

/-- The type that is written, if the name inside stands for a certain one. -/
def read : TypeExpr → Ty → Ty
  | .simple _ _, t => t
  | .array _ element, t => .array (element.read t)

theorem read_inj (e : TypeExpr) {t u : Ty} : e.read t = e.read u ↔ t = u := by
  induction e with
  | simple => rfl
  | array m element ih => simp [read, ih]

end TypeExpr

namespace Ty

/-- The declaration of a struct type. -/
def struct? : Ty → Option StructDecl
  | .struct d => some d
  | _ => none

theorem struct?_eq_some {t : Ty} {d : StructDecl} : t.struct? = some d ↔ t = .struct d := by
  cases t <;> simp [struct?]

end Ty

namespace Decl

/-- The type that the name of a type stands for. -/
def type? : Decl → Option Ty
  | .builtinType p => some (.prim p)
  | .struct d => some (.struct d)
  | _ => none

theorem type?_eq_some {d : Decl} {t : Ty} (h : d.type? = some t) :
    (∃ p, d = .builtinType p ∧ t = .prim p) ∨ ∃ c, d = .struct c ∧ t = .struct c := by
  unfold type? at h
  split at h <;> cases h
  · exact .inl ⟨_, rfl, rfl⟩
  · exact .inr ⟨_, rfl, rfl⟩

end Decl

namespace Analysis

variable {all : List Node} {I : Share} {s s' : State} {i : ScopeId} {name : String} {t : Ty}

/-- A name is found that stands for a type. -/
def Denotes (s : State) (i : ScopeId) (name : String) (t : Ty) : Prop :=
  ∃ d owner, s.table.scopes.find i name = some (d, owner) ∧ d.type? = some t

theorem resolveType_reads (e : TypeExpr) (hok : (s.after (resolveType e i)).issues = []) :
    ∃ t, Denotes s i e.base t ∧ (resolveType e i s).1 = e.read t := by
  induction e with
  | array m element ih =>
    obtain ⟨t, hdenotes, hresult⟩ := ih hok
    exact ⟨t, hdenotes, congrArg Ty.array hresult⟩
  | simple m name =>
    have hfind : Ends s (find i name) fun s' found => s' = s ∧
        found = s.table.scopes.find i name := ⟨rfl, rfl⟩
    refine (hfind.bind ?_ : Ends s (resolveType (.simple m name) i) fun s' u => s'.issues = [] →
      ∃ t, Denotes s i name t ∧ u = t) hok
    rintro s' found ⟨rfl, hfound⟩
    split
    · exact fun _ => ⟨_, ⟨_, _, hfound.symm, rfl⟩, rfl⟩
    · exact fun _ => ⟨_, ⟨_, _, hfound.symm, rfl⟩, rfl⟩
    · exact fun hnil => absurd hnil (report_issues m _)

theorem Plain.find (h : Plain all I s s') (hi : i < s.table.scopes.all.size) (name : String) :
    s'.table.scopes.find i name = s.table.scopes.find i name := by
  unfold Scopes.find
  rw [h.chain hi]
  induction s.table.scopes.chain i with
  | nil => rfl
  | cons j rest ih =>
    unfold Scopes.findIn
    rw [h.same, ih]

theorem fields_read {fs : List FieldDecl} (hd : (fs.map fun f => f.mark.id).Nodup)
    (hi : i < s.table.scopes.all.size) (hok : (s.after (fields fs i)).issues = []) :
    ∀ f ∈ fs, ∃ t, Denotes s i f.type.base t ∧
      ((s.after (fields fs i)).table.attributes f.mark.id).type = some (f.type.read t) := by
  induction fs generalizing s with
  | nil => simp
  | cons f fs ih =>
    let rest : Share := fun duty id => duty = .type ∧ ∃ g ∈ fs, g.mark.id = id
    let s₁ := (s.after (resolveType f.type i)).after (setType f.mark (resolveType f.type i s).1)
    have hfirst : Plain [] (fun _ _ => True) s s₁ :=
      (Reports.resolveType f.type).plain.trans (.setType trivial)
    have hrest : Plain [] rest s₁ (s₁.after (fields fs i)) := .fields fun g hg => ⟨rfl, g, hg, rfl⟩
    have hsame : (s₁.after (fields fs i)) = s.after (fields (f :: fs) i) := rfl
    rw [List.map_cons, List.nodup_cons] at hd
    intro g hg
    rcases List.mem_cons.mp hg with rfl | hg
    · obtain ⟨t, hdenotes, hread⟩ := resolveType_reads (s := s) (i := i) g.type (hrest.issues_nil hok)
      refine ⟨t, hdenotes, ?_⟩
      have hother : ¬ rest .type g.mark.id := by
        rintro ⟨-, f, hf, hid⟩
        exact hd.1 (List.mem_map.mpr ⟨f, hf, hid⟩)
      rw [← hsame, hrest.type_eq hother (by rintro ⟨d, hd, -⟩; cases hd), ← hread]
      exact Table.type_setType_self ..
    · have hthere : i < s₁.table.scopes.all.size := Nat.lt_of_lt_of_le hi hfirst.size
      obtain ⟨t, ⟨d, owner, hfind, hd⟩, htype⟩ := ih hd.2 hthere hok g hg
      exact ⟨t, ⟨d, owner, (hfirst.find hi _).symm.trans hfind, hd⟩, htype⟩

end Analysis

namespace Program

variable {p : Program} {name : String} {t u : Ty} {v : Visit}

/-- A name stands for a type where the analysis comes to a node. -/
def Means (p : Program) (v : Visit) (name : String) (t : Ty) : Prop :=
  ∃ d owner, d.type? = some t ∧
    Resolves (analyze p).1 (fun j => v.state.table.scopes.findLocal j name = none) v.scope name d owner

/-- Of all types there is one of the name at most. -/
structure NamesOne (p : Program) (name : String) : Prop where
  struct : ∀ d e : StructDecl, .statement (.struct d) ∈ p.nodes → .statement (.struct e) ∈ p.nodes →
    d.name = name → e.name = name → d = e
  builtin : ∀ d : StructDecl, .statement (.struct d) ∈ p.nodes → d.name = name →
    ∀ q ∈ Primitive.named, q.name ≠ name

theorem means_of_denotes {s : State} (hp : p.Numbered) (hv : v ∈ p.visits)
    (hbefore : Kept p.nodes (fun _ _ => True) v.state s)
    (hafter : Kept p.nodes (fun _ _ => True) s v.after) (h : Denotes s v.scope name t) :
    p.Means v name t := by
  obtain ⟨d, owner, hfind, hd⟩ := h
  obtain ⟨below, above, hchain, hlocal, hbelow⟩ := Scopes.findIn_split hfind
  obtain ⟨I, J, hb⟩ := between hp hv
  have hdeclared := hb.after.declared (hafter.declared hlocal)
  have hthere := Nat.lt_of_lt_of_le hb.there hbefore.size
  have hstays : p.settled.table.scopes.chain v.scope = s.table.scopes.chain v.scope :=
    (hb.after.chain (Nat.lt_of_lt_of_le hthere hafter.size)).trans (hafter.chain hthere)
  refine ⟨d, owner, hd, ?_⟩
  rw [analyze_eq]
  refine ⟨⟨below, above, hstays.trans hchain, fun j hj => ?_⟩, hdeclared,
    fun m hm => scope_of_declared hp hdeclared hm⟩
  -- A name that was there already would still be there.
  cases hold : v.state.table.scopes.findLocal j name with
  | none => rfl
  | some e => cases (hbefore.declared hold).symm.trans (hbelow j hj)

theorem Means.cases (hp : p.Numbered) (h : p.Means v name t) :
    (∃ q ∈ Primitive.named, q.name = name ∧ t = .prim q) ∨
      ∃ d, .statement (.struct d) ∈ p.nodes ∧ d.name = name ∧ t = .struct d := by
  obtain ⟨d, owner, hd, hresolves⟩ := h
  have hlocal := hresolves.declared
  rw [analyze_eq] at hlocal
  have hsuits := (settled_sound hp).declared owner name d hlocal
  rcases Decl.type?_eq_some hd with ⟨q, rfl, rfl⟩ | ⟨c, rfl, rfl⟩
  · refine .inl ⟨q, ?_, hsuits.name, rfl⟩
    have hmem := hsuits.builtin rfl
    simp only [builtins, List.mem_append, List.mem_map, List.mem_singleton, reduceCtorEq,
      or_false, Decl.builtinType.injEq, exists_eq_right] at hmem
    exact hmem
  · refine .inr ⟨c, ?_, hsuits.name, rfl⟩
    rw [(settled_files p p.nodes).2.1] at hlocal
    rcases (trace hp).step.known (known_empty _) owner name _ hlocal with hbuiltin | ⟨n, hn, hdeclares⟩
    · cases hbuiltin
    · unfold Node.declares at hdeclares
      split at hdeclares <;> cases hdeclares
      exact hn

theorem NamesOne.eq (hp : p.Numbered) (hone : p.NamesOne name) {w : Visit} (ht : p.Means v name t)
    (hu : p.Means w name u) : t = u := by
  rcases ht.cases hp with ⟨q, hq, hname, rfl⟩ | ⟨d, hd, hdname, rfl⟩ <;>
    rcases hu.cases hp with ⟨r, hr, hname', rfl⟩ | ⟨e, he, hename, rfl⟩
  · rw [Primitive.eq_of_name (hname.trans hname'.symm)]
  · exact absurd hname (hone.builtin e he hename q hq)
  · exact absurd hname' (hone.builtin d hd hdname r hr)
  · rw [hone.struct d e hd he hdname hename]

theorem type_self {e : Expr} {i : ScopeId} {s : State} (hp : p.Numbered)
    (hv : ⟨.expression e, i, s⟩ ∈ p.visits) :
    (p.settled.table.attributes e.mark.id).type = some (expression e i s).1 := by
  have hlasts := lasts hp hv
  have hmem : .expression e ∈ p.nodes := hlasts.ready.inside e.self_mem_nodes
  have hduty : duties (.expression e) .type = true := by
    unfold duties
    split <;> simp_all
  have hshare : nodeShare (.expression e) .type e.mark.id := files_self e.self_mem_nodes hduty
  exact (hlasts.type hshare (hp.not_function hmem (by simp))).trans (expression_filed e i s)

section Field

variable {d : StructDecl} {f : FieldDecl} {m : Mark} {stem : Expr}

theorem access_read (hp : p.Numbered) (hok : p.settled.issues = [])
    (hstem : p.settled.table.typeOf stem.mark = .struct d) (hf : d.field? name = some f)
    (hv : v ∈ p.visits) (hnode : v.node = .expression (.field m stem name)) :
    ∃ t, p.Means v f.type.base t ∧
      (p.settled.table.attributes m.id).type = some (f.type.read t) := by
  obtain ⟨_, i, s⟩ := v
  dsimp only at hnode
  subst hnode
  let s₁ := s.after (expression stem i)
  have hlasts := lasts hp hv
  have hready : Ready p.nodes (Expr.field m stem name).nodes i s := hlasts.ready
  have hbefore : Step p.nodes (files stem.nodes) s s₁ :=
    (Trace.expression stem (hready.sublist (by simp [Expr.nodes]))).step
  -- The stem has the type that was filed for it, so it is the field of that struct.
  have hpart : p.settled.table.typeOf stem.mark = (expression stem i s).1 :=
    typeOf_operand hp hv rfl (Expr.self_mem_nodes stem) (by rintro ⟨n, hn, -⟩; cases hn)
      ((Reports.fieldType m _ name).plain.step : Step p.nodes (files []) s₁ _) rfl
  have hpass : fieldType m (expression stem i s).1 name i = resolveType f.type i := by
    rw [← hpart, hstem]
    unfold fieldType
    simp only [hf]
  have hresult : (expression (.field m stem name) i s).1 = (resolveType f.type i s₁).1 := by
    rw [← hpass]
    rfl
  have hafter : s.after (expression (.field m stem name) i) =
      (s₁.after (resolveType f.type i)).after (setType m (resolveType f.type i s₁).1) := by
    rw [← hpass]
    rfl
  have hissues : (s.after (expression (.field m stem name) i)).issues = [] := hlasts.issues hok
  rw [hafter] at hissues
  obtain ⟨t, hdenotes, hread⟩ := resolveType_reads f.type hissues
  refine ⟨t, ?_, ?_⟩
  · refine means_of_denotes hp hv (hbefore.toKept.mono fun _ _ _ => trivial) ?_ hdenotes
    show Kept p.nodes (fun _ _ => True) s₁ (s.after (expression (.field m stem name) i))
    rw [hafter]
    exact ((Reports.resolveType f.type).plain.trans (.setType trivial)).toKept
  · exact (type_self hp hv).trans (congrArg some (hresult.trans hread))

theorem fields_distinct (h : Distinct (Stmt.struct d).nodes) :
    (d.fields.map fun g => g.mark.id).Nodup := by
  have hsub : (d.fields.map Node.field).Sublist (Stmt.struct d).nodes := by
    simp only [Stmt.nodes, StructDecl.nodes]
    refine .cons _ ?_
    induction d.fields with
    | nil => exact .slnil
    | cons g gs ih => exact .cons_cons _ (ih.trans (List.sublist_append_right ..))
  have hnodup : ((d.fields.map Node.field).map fun n => n.mark.id).Nodup :=
    List.Nodup.sublist (hsub.map fun n => n.mark.id) h
  rwa [List.map_map] at hnodup

theorem declaration_read (hp : p.Numbered) (hok : p.settled.issues = []) (hf : f ∈ d.fields)
    (hv : v ∈ p.visits) (hnode : v.node = .statement (.struct d)) :
    ∃ t, p.Means v f.type.base t ∧
      (p.settled.table.attributes f.mark.id).type = some (f.type.read t) := by
  obtain ⟨_, i, s⟩ := v
  dsimp only at hnode
  subst hnode
  let s₁ := s.after (setType d.mark .type)
  have hlasts := lasts hp hv
  have hready : Ready p.nodes (Stmt.struct d).nodes i s := hlasts.ready
  have hmem : ∀ g ∈ d.fields, .field g ∈ (Stmt.struct d).nodes := fun g hg => by
    simp only [Stmt.nodes, StructDecl.nodes, List.mem_cons, List.mem_flatMap]
    exact .inr ⟨g, hg, List.mem_cons_self⟩
  have hplain : Plain p.nodes (fun _ _ => True) s s₁ := .setType trivial
  have hissues : (s₁.after (fields d.fields i)).issues = [] := hlasts.issues hok
  obtain ⟨t, hdenotes, htype⟩ :=
    fields_read (s := s₁) (fields_distinct hready.distinct) hready.there hissues f hf
  refine ⟨t, ?_, ?_⟩
  · refine means_of_denotes hp hv hplain.toKept ?_ hdenotes
    exact (Plain.fields fun g _ => trivial : Plain p.nodes _ s₁ (s₁.after (fields d.fields i))).toKept
  · have hshare : nodeShare (.statement (.struct d)) .type f.mark.id :=
      ⟨files_self (hmem f hf) rfl, by rintro ⟨⟨⟩, -⟩⟩
    have hnot := hp.not_function (hready.inside (hmem f hf)) (by simp)
    exact (hlasts.type hshare hnot).trans htype

end Field

/-- The type of an access to a field is read by what the name in its written type stands for at the
access, and the type of the field by what the name stands for where the struct is declared. So the
access has the type of the field if and only if that is the same, as it is wherever no two types of the
program have the name. -/
theorem field_types {m : Mark} {stem : Expr} {d : StructDecl} {f : FieldDecl} (hp : p.Numbered)
    (hok : (analyze p).2 = []) (he : .expression (.field m stem name) ∈ p.nodes)
    (hstem : (analyze p).1.typeOf stem.mark = .struct d) (hf : d.field? name = some f) :
    ∃ v ∈ p.visits, v.node = .expression (.field m stem name) ∧
    ∃ w ∈ p.visits, w.node = .statement (.struct d) ∧
    ∃ t u, p.Means v f.type.base t ∧ p.Means w f.type.base u ∧
      ((analyze p).1.attributes m.id).type = some (f.type.read t) ∧
      ((analyze p).1.attributes f.mark.id).type = some (f.type.read u) ∧
      (((analyze p).1.attributes m.id).type = ((analyze p).1.attributes f.mark.id).type ↔ t = u) ∧
      (p.NamesOne f.type.base → t = u) := by
  have hissues : p.settled.issues = [] := by
    rw [analyze_eq] at hok
    exact hok
  have htable : (analyze p).1 = p.settled.table := by rw [analyze_eq]
  rw [htable] at hstem ⊢
  have hdeclared : .statement (.struct d) ∈ p.nodes := by
    have hknown := p.typeOf_known stem.mark
    rw [hstem] at hknown
    exact Ty.Known.struct_iff.mp hknown
  obtain ⟨v, hv, hnode⟩ := p.visited he rfl
  obtain ⟨w, hw, hnode'⟩ := p.visited hdeclared rfl
  obtain ⟨t, ht, haccess⟩ := access_read hp hissues hstem hf hv hnode
  obtain ⟨u, hu, hfield⟩ := declaration_read hp hissues (List.mem_of_find?_eq_some hf) hw hnode'
  refine ⟨v, hv, hnode, w, hw, hnode', t, u, ht, hu, haccess, hfield, ?_, fun h => h.eq hp ht hu⟩
  rw [haccess, hfield, Option.some.injEq, f.type.read_inj]

/-- `struct P { x: Float }`, and a block that declares a struct of the name Float, in which the field is
accessed. -/
def shadowedField : FieldDecl := ⟨⟨2, {}⟩, "x", .simple ⟨3, {}⟩ "Float"⟩

def shadowedDecl : StructDecl := ⟨⟨1, {}⟩, "P", [shadowedField]⟩

def shadowedStem : Expr := .reference ⟨⟨14, {}⟩, "p"⟩

def shadowed : Program where
  mark := ⟨0, {}⟩
  statements := [
    .struct shadowedDecl,
    .var ⟨⟨4, {}⟩, "p", some (.simple ⟨5, {}⟩ "P"),
      some (.call ⟨6, {}⟩ (.constructor ⟨7, {}⟩ "P") [.int ⟨8, {}⟩ 7])⟩,
    .block ⟨⟨9, {}⟩, [
      .struct ⟨⟨10, {}⟩, "Float", []⟩,
      .ret ⟨11, {}⟩ (some (.binary ⟨12, {}⟩ .divide (.field ⟨13, {}⟩ shadowedStem "x")
        (.int ⟨15, {}⟩ 2)))]⟩]

theorem shadowed_numbered : shadowed.Numbered := by
  unfold Numbered Distinct
  decide

theorem shadowed_accepted : (analyze shadowed).2 = [] := List.isEmpty_iff.mp (by decide +kernel)

theorem shadowed_access : .expression (.field ⟨13, {}⟩ shadowedStem "x") ∈ shadowed.nodes := by
  simp [shadowed, nodes, Stmt.nodesOfList, Stmt.nodes, Expr.nodes]

theorem shadowed_stem : (analyze shadowed).1.typeOf shadowedStem.mark = .struct shadowedDecl :=
  Ty.struct?_eq_some.mp (by decide +kernel)

theorem shadowed_differ : Ty.same? ((analyze shadowed).1.attributes 13).type
    ((analyze shadowed).1.attributes 2).type = false := by decide +kernel

/-- The name of the builtin type stands for the struct at the access. -/
theorem shadowed_read : ∃ v ∈ shadowed.visits, ∃ w ∈ shadowed.visits, ∃ t u,
    shadowed.Means v "Float" t ∧ shadowed.Means w "Float" u ∧ t ≠ u ∧ ¬ shadowed.NamesOne "Float" := by
  obtain ⟨v, hv, -, w, hw, -, t, u, ht, hu, -, -, hiff, hone⟩ := field_types
    shadowed_numbered shadowed_accepted shadowed_access shadowed_stem
    (by decide : shadowedDecl.field? "x" = some shadowedField)
  have hne : t ≠ u := fun heq => by
    have hdiffer := shadowed_differ
    rw [hiff.mpr heq] at hdiffer
    cases (Ty.same?_refl _).symm.trans hdiffer
  exact ⟨v, hv, w, hw, t, u, ht, hu, hne, fun h => hne (hone h)⟩

/-- The type of an access need not be that of the field. -/
theorem shadowed_not_same : ¬ ∀ p : Program, p.Numbered → (analyze p).2 = [] → ∀ m stem name d f,
    .expression (.field m stem name) ∈ p.nodes → (analyze p).1.typeOf stem.mark = .struct d →
    d.field? name = some f → Ty.same? ((analyze p).1.attributes m.id).type
      ((analyze p).1.attributes f.mark.id).type = true := by
  intro hsame
  have hfield := hsame shadowed shadowed_numbered shadowed_accepted ⟨13, {}⟩ shadowedStem "x" shadowedDecl
    shadowedField shadowed_access shadowed_stem (by decide)
  cases hfield.symm.trans shadowed_differ

end Program
end LogicScript
