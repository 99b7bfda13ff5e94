import LogicScript.Proofs.Walk

/-! The uses of a name and its declaration agree on the scope that has it.

A reference or constructor is resolved when the analysis comes to it. The scopes grow after that,
but what was found stays where it was. An atom or predicate call is resolved in the end, by the
scopes as they are then. -/
namespace LogicScript

open Analysis

namespace Node

/-- The name that a node resolves on the spot. -/
def name? : Node → Option String
  | .expression (.reference r) => some r.name
  | .expression (.constructor _ name) => some name
  | _ => none

/-- The name that a node resolves in the end. -/
def postponed? : Node → Option String
  | .expression (.logic (.atom _ name)) => some name
  | .expression (.logic (.call _ functor _)) => some functor
  | _ => none

/-- What the name of a node may be resolved to. -/
def Accepts : Node → Decl → Prop
  | .expression (.constructor _ _) => fun d => ∃ decl, d = .struct decl
  | _ => fun _ => True

theorem isVisited_of_name {n : Node} {name : String} (h : n.name? = some name) :
    n.isVisited = true := by
  unfold name? at h
  split at h <;> first | rfl | cases h

theorem isVisited_of_postponed {n : Node} {name : String} (h : n.postponed? = some name) :
    n.isVisited = true := by
  unfold postponed? at h
  split at h <;> first | rfl | cases h

end Node

/-- A name that is used in a scope stands for a declaration of one of the scopes around it, and the
scopes that are nearer are free of the name. -/
structure Resolves (t : Table) (free : ScopeId → Prop) (i : ScopeId) (name : String) (d : Decl)
    (owner : ScopeId) : Prop where
  around : ∃ below above, t.scopes.chain i = below ++ owner :: above ∧ ∀ j ∈ below, free j
  declared : t.scopes.findLocal owner name = some d
  scope : ∀ m, d.mark? = some m → (t.attributes m.id).scope = some owner

namespace Analysis

/-- What a pass files for a node that resolves a name: the declaration that it found, which is such a
declaration, or else nothing but an issue. -/
def Finds (P : Decl → Prop) (s : State) (m : Mark) (name : String) (i : ScopeId) (s' : State) :
    Prop :=
  ((s'.table.attributes m.id).decl = (s.table.attributes m.id).decl ∧ s'.issues ≠ []) ∨
    ∃ d owner, s.table.scopes.find i name = some (d, owner) ∧ P d ∧
      (s'.table.attributes m.id).decl = some d ∧ (s'.table.attributes m.id).scope = some owner

namespace Finds

variable {all : List Node} {P : Decl → Prop} {s s' : State} {m : Mark} {name : String} {i : ScopeId}

theorem typed {x : Pass Ty} (h : Finds P s m name i (s.after x)) :
    Finds P s m name i (s.after (typed m x)) := by
  have hdecl : ((s.after (Analysis.typed m x)).table.attributes m.id).decl =
      ((s.after x).table.attributes m.id).decl := Table.decl_setType ..
  have hscope : ((s.after (Analysis.typed m x)).table.attributes m.id).scope =
      ((s.after x).table.attributes m.id).scope := Table.scope_setType ..
  unfold Finds
  rw [hdecl, hscope]
  exact h

/-- The name is looked up in the scopes as they are. -/
theorem found {α : Type} {f : Option (Decl × ScopeId) → Pass α}
    (h : ∀ found, found = s.table.scopes.find i name → Finds P s m name i (s.after (f found))) :
    Finds P s m name i (s.after (find i name >>= f)) := h _ rfl

theorem missed {problem : Problem} : Finds P s m name i (s.after (report m problem)) := by
  refine .inl ⟨rfl, ?_⟩
  have hissues : (s.after (report m problem)).issues = s.issues ++ [⟨m.span, problem⟩] := rfl
  rw [hissues]
  simp

/-- The declaration that was found is filed, and nothing is changed in it any more. -/
theorem hit {d : Decl} {owner : ScopeId} (hfind : s.table.scopes.find i name = some (d, owner))
    (hd : P d)
    (hrest : Plain all (fun _ _ => False) ((s.after (setDecl m d)).after (setScope m owner)) s') :
    Finds P s m name i s' := by
  refine .inr ⟨d, owner, hfind, hd, ?_, ?_⟩
  · rw [hrest.decl id]
    exact (Table.decl_setScope ..).trans (Table.decl_setDecl_self ..)
  · rw [hrest.scope id]
    exact Table.scope_setScope_self ..

theorem reference {r : Reference} (hs : s.Known all) :
    Finds (fun _ => True) s r.mark r.name i (s.after (reference r i)) := by
  refine .typed (.found fun found hfound => ?_)
  split
  · exact .missed
  · exact .hit hfound.symm trivial (Plain.declType (hs.find hfound.symm))

theorem constructor (m : Mark) (name : String) :
    Finds (fun d => ∃ decl, d = .struct decl) s m name i
      (s.after (expression (.constructor m name) i)) := by
  refine .typed (.found fun found hfound => ?_)
  split
  · exact .hit hfound.symm ⟨_, rfl⟩ ((Reports.resolveTypes _).plain : Plain [] _ _ _)
  · exact .missed

end Finds

variable {all : List Node} {s : State} {i : ScopeId}

theorem Visit.finds {v : Visit} {name : String} (hname : v.node.name? = some name)
    (hs : v.state.Known all) : Plain all (files [v.node]) v.state v.after ∧
      Finds v.node.Accepts v.state v.node.mark name v.scope v.after := by
  obtain ⟨n, i, s⟩ := v
  dsimp only at hname hs
  unfold Node.name? at hname
  split at hname <;> cases hname
  · exact ⟨.reference hs, .reference hs⟩
  · rename_i m
    exact ⟨.typed .constructorType (files_own (.expression (.constructor m name)) _ rfl),
      .constructor m name⟩

theorem nodeShare_name {n : Node} {name : String} (hname : n.name? = some name) :
    nodeShare n .decl n.mark.id ∧ nodeShare n .scope n.mark.id := by
  unfold Node.name? at hname
  split at hname <;> cases hname <;>
    exact ⟨files_self List.mem_cons_self rfl, files_self List.mem_cons_self rfl⟩

theorem nodeShare_postponed {n : Node} {name : String} (hname : n.postponed? = some name) :
    nodeShare n .name n.mark.id := by
  unfold Node.postponed? at hname
  split at hname <;> cases hname <;> exact files_self List.mem_cons_self rfl

/-- A visit to a node that resolves its name in the end postpones the name, and for no other node
than those below it any other one. -/
theorem Visit.postpones {v : Visit} {name : String} (hname : v.node.postponed? = some name)
    (hv : Ready all v.node.nodes v.scope v.state) {q : Pending} (hq : q ∈ v.after.pending)
    (hid : q.mark.id = v.node.mark.id) :
    q ∈ v.state.pending ∨ q.name = name ∧ q.scope = v.scope := by
  obtain ⟨n, i, s⟩ := v
  dsimp only at hname hv hid ⊢
  unfold Node.postponed? at hname
  split at hname <;> cases hname
  · rename_i m
    have hpending : q ∈ s.pending ++ [⟨.atom, m, name, i⟩] := hq
    rcases List.mem_append.mp hpending with hold | hnew
    · exact .inl hold
    · rw [List.mem_singleton.mp hnew]
      exact .inr ⟨rfl, rfl⟩
  · rename_i m arguments
    have hpending : q ∈ (s.after (expressions arguments i)).pending ++ [⟨.predicate, m, name, i⟩] := hq
    rcases List.mem_append.mp hpending with hold | hnew
    · have hd : Distinct ([.expression (.logic (.call m name arguments))] ++
          Expr.nodesOfList arguments) := hv.distinct
      have hbelow : Ready all (Expr.nodesOfList arguments) i s :=
        hv.sublist (List.sublist_cons_self ..)
      rcases (Trace.expressions arguments hbelow).step.postponed q hold with hold | hfiles
      · exact .inl hold
      · refine absurd hfiles.marks (hd.apart _ ⟨_, List.mem_singleton_self _, ?_⟩)
        exact hid.symm
    · rw [List.mem_singleton.mp hnew]
      exact .inr ⟨rfl, rfl⟩

end Analysis

namespace Program

variable {p : Program} {v : Visit} {name : String} {d : Decl} {owner : ScopeId}

theorem scope_of_declared (hp : p.Numbered)
    (h : p.settled.table.scopes.findLocal owner name = some d) {m : Mark} (hm : d.mark? = some m) :
    (p.settled.table.attributes m.id).scope = some owner := by
  obtain ⟨hsettle, hscopes, -⟩ := settled_files p p.nodes
  rw [hscopes] at h
  rcases (trace hp).step.entries h with hold | hbuiltin | ⟨n, -, hdeclares, hfiles, hscope, -⟩
  · cases hold
  · rw [Decl.isBuiltin, hm] at hbuiltin
    cases hbuiltin
  · have hmark := Node.mark?_declares hdeclares
    rw [hm] at hmark
    cases hmark
    exact (hsettle.scope (settles_apart hp _ _ hfiles)).trans hscope

theorem filed (hp : p.Numbered) (hv : v ∈ p.visits) {id : Nat} :
    (nodeShare v.node .decl id →
      (p.settled.table.attributes id).decl = (v.after.table.attributes id).decl ∧
      (v.state.table.attributes id).decl = none) ∧
    (nodeShare v.node .scope id →
      (p.settled.table.attributes id).scope = (v.after.table.attributes id).scope ∧
      (v.state.table.attributes id).scope = none) := by
  obtain ⟨I, J, hb⟩ := between hp hv
  refine ⟨fun h => ⟨?_, ?_⟩, fun h => ⟨?_, ?_⟩⟩
  · exact hb.after.decl (hb.future _ _ h)
  · exact hb.before.decl fun hi => hb.past _ _ hi h
  · exact hb.after.scope (hb.future _ _ h)
  · exact hb.before.scope fun hi => hb.past _ _ hi h

theorem resolves_found (hp : p.Numbered) (hv : v ∈ p.visits) (hname : v.node.name? = some name)
    (hdecl : (p.settled.table.attributes v.node.mark.id).decl = some d)
    (hscope : (p.settled.table.attributes v.node.mark.id).scope = some owner) :
    Resolves p.settled.table (fun j => v.state.table.scopes.findLocal j name = none) v.scope name d
      owner := by
  obtain ⟨I, J, hb⟩ := between hp hv
  obtain ⟨hdecl', hnone⟩ := (filed hp hv).1 (nodeShare_name hname).1
  obtain ⟨hscope', -⟩ := (filed hp hv).2 (nodeShare_name hname).2
  rw [hdecl'] at hdecl
  rw [hscope'] at hscope
  obtain ⟨hplain, hfinds⟩ := Visit.finds hname hb.known
  rcases hfinds with ⟨hsame, -⟩ | ⟨d', owner', hfind, -, hd, ho⟩
  · rw [hsame, hnone] at hdecl
    cases hdecl
  · rw [hdecl] at hd
    rw [hscope] at ho
    cases hd
    cases ho
    obtain ⟨below, above, hchain, hlocal, hbelow⟩ := Scopes.findIn_split hfind
    have hdeclared := hb.after.declared (hplain.declared hlocal)
    have hstays : p.settled.table.scopes.chain v.scope = v.state.table.scopes.chain v.scope :=
      (hb.after.chain (Nat.lt_of_lt_of_le hb.there hplain.size)).trans (hplain.chain hb.there)
    exact ⟨⟨below, above, hstays.trans hchain, hbelow⟩, hdeclared, fun m hm =>
      scope_of_declared hp hdeclared hm⟩

/-- The name of a logic expression is postponed once, when the analysis comes to it. -/
theorem pending_eq (hp : p.Numbered) (hv : v ∈ p.visits) (hname : v.node.postponed? = some name)
    {q : Pending} (hq : q ∈ p.walked.pending) (hid : q.mark.id = v.node.mark.id) :
    q.name = name ∧ q.scope = v.scope := by
  obtain ⟨I, J, hb⟩ := between hp hv
  have hsettle := (settled_files p p.nodes).1
  have hshare := nodeShare_postponed hname
  rcases hb.after.postponed q (hsettle.pending.subset hq) with hq | hlater
  · have hready : Ready p.nodes v.node.nodes v.scope v.state :=
      ⟨hb.distinct, hb.inside, hb.known, hb.there⟩
    rcases Visit.postpones hname hready hq hid with hbefore | hhere
    · rcases hb.before.postponed q hbefore with hempty | hearlier
      · cases hempty
      · rw [hid] at hearlier
        exact absurd hshare (hb.past _ _ hearlier)
    · exact hhere
  · rw [hid] at hlater
    exact absurd hlater (hb.future _ _ hshare)

/-- The walk files no declaration for a node whose name is resolved in the end. -/
theorem walked_decl (hp : p.Numbered) {n : Node} (hn : n ∈ p.nodes)
    (hname : n.postponed? = some name) : (p.walked.table.attributes n.mark.id).decl = none := by
  refine (trace hp).step.decl ?_
  rintro ⟨n', hn', hid, hduty⟩
  have hsame := hp.eq hn' hn hid
  subst hsame
  unfold Node.postponed? at hname
  split at hname <;> first | cases hduty | cases hname

theorem resolves_postponed (hp : p.Numbered) (hn : v.node ∈ p.nodes) (hv : v ∈ p.visits)
    (hname : v.node.postponed? = some name)
    (hdecl : (p.settled.table.attributes v.node.mark.id).decl = some d)
    (hscope : (p.settled.table.attributes v.node.mark.id).scope = some owner) :
    Resolves p.settled.table (fun j => p.settled.table.scopes.findLocal j name = none) v.scope name d
      owner := by
  have hwalked := walked_decl hp hn hname
  rcases (settled_files p p.nodes).2.2 v.node.mark.id with hsame | ⟨q, hq, hid, hsettled⟩
  · rw [hsame, hwalked] at hdecl
    cases hdecl
  · obtain ⟨d', owner', hfind, hd, ho⟩ := hsettled
    rw [hdecl] at hd
    rw [hscope] at ho
    cases hd
    cases ho
    obtain ⟨rfl, hq⟩ := pending_eq hp hv hname hq hid
    rw [hq] at hfind
    obtain ⟨below, above, hchain, hlocal, hbelow⟩ := Scopes.findIn_split hfind
    exact ⟨⟨below, above, hchain, hbelow⟩, hlocal, fun m hm => scope_of_declared hp hlocal hm⟩

/-- A node that uses a name is visited, and if it has a declaration and a scope, these are what the
name stands for in the scope of the visit. -/
def Agrees (p : Program) (n : Node) (name : String) (free : Visit → ScopeId → Prop) : Prop :=
  (∃ v ∈ p.visits, v.node = n) ∧ ∀ v ∈ p.visits, v.node = n → ∀ d owner,
    ((analyze p).1.attributes n.mark.id).decl = some d →
    ((analyze p).1.attributes n.mark.id).scope = some owner →
    Resolves (analyze p).1 (free v) v.scope name d owner

/-- Uses and declarations agree on the scope of a name, whether or not the analysis finds issues:
the scope of a use lies around it, still declares the name as it was found, and is the scope of the
declaration. No nearer scope had a name that is resolved on the spot when the analysis came to the
use; no nearer scope has a name that is resolved in the end. -/
theorem uses_agree (hp : p.Numbered) :
    (∀ n ∈ p.nodes, ∀ name, n.name? = some name →
      p.Agrees n name fun v j => v.state.table.scopes.findLocal j name = none) ∧
    (∀ n ∈ p.nodes, ∀ name, n.postponed? = some name →
      p.Agrees n name fun _ j => (analyze p).1.scopes.findLocal j name = none) := by
  have htable : (analyze p).1 = p.settled.table := by rw [analyze_eq]
  refine ⟨fun n hn name hname => ⟨p.visited hn (Node.isVisited_of_name hname), ?_⟩,
    fun n hn name hname => ⟨p.visited hn (Node.isVisited_of_postponed hname), ?_⟩⟩
  · rintro v hv rfl d owner hdecl hscope
    rw [htable] at hdecl hscope ⊢
    exact resolves_found hp hv hname hdecl hscope
  · rintro v hv rfl d owner hdecl hscope
    rw [htable] at hdecl hscope ⊢
    exact resolves_postponed hp hn hv hname hdecl hscope

/-- A block uses the name of an outer variable, then declares the name itself, and uses it again. A
rule above calls a functor that is declared below it. -/
def shadowing : Program where
  mark := ⟨0, {}⟩
  statements := [
    .var ⟨⟨1, {}⟩, "x", none, some (.int ⟨2, {}⟩ 1)⟩,
    .rule ⟨⟨3, {}⟩, "r", [⟨⟨4, {}⟩, "y", .simple ⟨5, {}⟩ "Int"⟩],
      .call ⟨6, {}⟩ "q" [.reference ⟨⟨7, {}⟩, "y"⟩]⟩,
    .block ⟨⟨8, {}⟩, [
      .expr ⟨9, {}⟩ (.reference ⟨⟨10, {}⟩, "x"⟩),
      .var ⟨⟨11, {}⟩, "x", none, some (.int ⟨12, {}⟩ 2)⟩,
      .expr ⟨13, {}⟩ (.reference ⟨⟨14, {}⟩, "x"⟩)]⟩,
    .fact ⟨⟨15, {}⟩, "q", [.int ⟨16, {}⟩ 1]⟩]

theorem shadowing_agrees :
    shadowing.Numbered ∧
    (((analyze shadowing).1.attributes 10).scope = some 0 ∧
      ((analyze shadowing).1.attributes 14).scope = some 2 ∧
      ((analyze shadowing).1.attributes 6).scope = some 0) ∧
    (∀ n ∈ shadowing.nodes, ∀ name, n.name? = some name →
      shadowing.Agrees n name fun v j => v.state.table.scopes.findLocal j name = none) ∧
    (∀ n ∈ shadowing.nodes, ∀ name, n.postponed? = some name →
      shadowing.Agrees n name fun _ j => (analyze shadowing).1.scopes.findLocal j name = none) := by
  have hnumbered : shadowing.Numbered := by
    unfold Numbered Distinct
    decide
  exact ⟨hnumbered, by decide +kernel, uses_agree hnumbered⟩

end Program

end LogicScript
