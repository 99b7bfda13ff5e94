import LogicScript.Proofs.Declarations
import LogicScript.Proofs.Frames
import LogicScript.Proofs.Meaning
import LogicScript.Proofs.Stores

/-! A functor means the same to all that declare it or ask for it in one scope.

A fact or rule joins the nearest functor of its name that is there when the analysis comes to it, and
declares one if there is none. A query is resolved by the scopes as they are in the end. Both come to
the same, since a functor is declared only where none is visible: no scope between a declaration
and the functor that it joined ever declares the name. -/
namespace LogicScript

open Analysis

namespace Scopes

variable {s : Scopes} {name : String} {d : Decl} {i j k : ScopeId} {scopes above : List ScopeId}

theorem findIn_of_split (below : List ScopeId) (hd : s.findLocal j name = some d)
    (hbelow : ∀ i ∈ below, s.findLocal i name = none) :
    s.findIn name (below ++ j :: above) = some (d, j) := by
  induction below with
  | nil => simp [findIn, hd]
  | cons i below ih =>
    have hrest := ih fun k hk => hbelow k (List.mem_cons_of_mem _ hk)
    simp [findIn, hbelow i List.mem_cons_self, hrest]

theorem find_declare (hi : i < s.all.size) (h : s.find i name = none) :
    (s.declare i name d).2.find i name = some (d, i) := by
  have hfree : s.findLocal i name = none := by
    unfold find chain findIn at h
    split at h
    · cases h
    · assumption
  have hnew : (s.declare i name d).1 = true := by simp [declare, hfree]
  exact findIn_of_split [] (findLocal_declare_self hi hnew) (by simp)

theorem findIn_ne_none (hj : j ∈ scopes) (hd : s.findLocal j name = some d) :
    s.findIn name scopes ≠ none := by
  induction scopes with
  | nil => cases hj
  | cons i rest ih =>
    unfold findIn
    split
    · simp
    · rename_i hnone
      rcases List.mem_cons.mp hj with rfl | hj
      · rw [hnone] at hd
        cases hd
      · exact ih hj

theorem Nested.mem_chain (hs : s.Nested) (h : s.chain i = below ++ j :: above) (hk : k ∈ below) :
    j ∈ s.chain k := by
  obtain ⟨near, far, rfl⟩ := List.append_of_mem hk
  cases near with
  | nil =>
    obtain ⟨rfl, houter⟩ := List.cons.inj h
    simp [chain, houter]
  | cons first near =>
    have houter : (s.get i).outer = near ++ k :: (far ++ j :: above) := by
      simpa using (List.cons.inj h).2
    simp [chain, hs i k near _ houter]

end Scopes

/-- Whatever a program declares under a name is a fact or a rule. -/
structure Program.OnlyPredicates (p : Program) (functor : String) : Prop where
  declared : ∀ n ∈ p.nodes, ∀ d ∈ n.declares, d.name = functor → d.isPredicate = true
  builtin : ∀ d ∈ builtins, d.name ≠ functor

namespace Node

/-- The functor that a fact or rule is about. -/
def head? : Node → Option String
  | .statement (.fact d) => some d.functor
  | .statement (.rule d) => some d.functor
  | _ => none

/-- The functor that a fact, a rule or a query is about. -/
def functor? : Node → Option String
  | .expression (.logic (.call _ functor _)) => some functor
  | n => n.head?

theorem head?_of_declares {n : Node} {d : Decl} (hd : n.declares = some d)
    (h : d.isPredicate = true) : n.head? = some d.name := by
  unfold declares at hd
  split at hd <;> cases hd <;> first | rfl | cases h

theorem statement_of_head {n : Node} {functor : String} (h : n.head? = some functor) :
    ∃ st, n = .statement st := by
  unfold head? at h
  split at h <;> cases h <;> exact ⟨_, rfl⟩

theorem isVisited_of_head {n : Node} {functor : String} (h : n.head? = some functor) :
    n.isVisited = true := by
  obtain ⟨st, rfl⟩ := statement_of_head h
  rfl

theorem eq_of_head {n n' : Node} {functor functor' : String} (h : n.head? = some functor)
    (h' : n'.head? = some functor') (hn : n' ∈ n.nodes) : n' = n := by
  obtain ⟨st, rfl⟩ := statement_of_head h'
  unfold head? at h
  split at h <;> cases h
  · simpa [nodes, Stmt.nodes, FactDecl.nodes, Expr.statement_not_mem_nodesOfList] using hn
  · simpa [nodes, Stmt.nodes, RuleDecl.nodes, Goal.statement_not_mem_nodes,
      Parameter.statement_not_mem_nodes] using hn

end Node

namespace Analysis

/-- The scope and the declaration of a fact or rule are filed on the visit to it. -/
theorem nodeShare_head {n : Node} {functor : String} (h : n.head? = some functor) :
    nodeShare n .scope n.mark.id ∧ nodeShare n .decl n.mark.id := by
  have hself := n.self_mem_nodes
  unfold Node.head? at h
  split at h <;> cases h <;>
    exact ⟨⟨files_self hself rfl, by rintro ⟨-, ⟨⟩, -⟩⟩, files_self hself rfl, by rintro ⟨⟨⟩, -⟩⟩

variable {s : State} {i : ScopeId} {m : Mark} {d : Decl} {functor : String} {params : List Ty}

/-- A fact or rule is filed with what its functor stands for in its scope afterwards, and if it
declares the functor then none was visible. -/
theorem predicate_joins (hi : i < s.table.scopes.all.size)
    (hs : ∀ k e, s.table.scopes.findLocal k functor = some e → e.isPredicate = true) :
    Ends s (predicate d m functor params i) fun s' _ => ∃ e owner,
      (s'.table.attributes m.id).decl = some e ∧ (s'.table.attributes m.id).scope = some owner ∧
      s'.table.scopes.find i functor = some (e, owner) ∧
      ∀ k e, s'.table.scopes.findLocal k functor = some e →
        s.table.scopes.findLocal k functor = some e ∨
        k = i ∧ s.table.scopes.find i functor = none := by
  have hset : Ends s (setType m (.predicate functor params)) fun s' _ =>
      s'.table.scopes = s.table.scopes := rfl
  refine hset.bind fun s₁ _ h₁ => ?_
  have hfind : Ends s₁ (find i functor) fun s' found =>
      s' = s₁ ∧ found = s.table.scopes.find i functor := ⟨rfl, by rw [← h₁]; rfl⟩
  refine hfind.bind ?_
  rintro s₂ found ⟨rfl, hfound⟩
  cases found with
  | none =>
    have henter : Ends s₂ (enter i functor d) fun s' _ =>
        s'.table.scopes = (s.table.scopes.declare i functor d).2 := by rw [← h₁]; rfl
    have hdeclare : Ends s₂ (declare i functor d m) fun s' _ =>
        s'.table.scopes = (s.table.scopes.declare i functor d).2 ∧
        (s'.table.attributes m.id).scope = some i := by
      refine henter.bind fun s₃ free h₃ => ?_
      cases free <;> exact ⟨h₃, Table.scope_setScope_self ..⟩
    refine hdeclare.bind fun s₃ _ h₃ => ?_
    have hown : Ends s₃ (setDecl m d) fun s' _ =>
        s'.table.scopes = (s.table.scopes.declare i functor d).2 ∧
        (s'.table.attributes m.id).decl = some d ∧ (s'.table.attributes m.id).scope = some i :=
      ⟨h₃.1, Table.decl_setDecl_self .., (Table.scope_setDecl ..).trans h₃.2⟩
    refine hown.weaken fun s₄ _ ⟨h₄, hdecl, hscope⟩ => ⟨d, i, hdecl, hscope, ?_, fun k e he => ?_⟩
    · rw [h₄]
      exact Scopes.find_declare hi hfound.symm
    · rw [h₄] at he
      exact (Scopes.findLocal_declare he).imp_right fun hnew => ⟨hnew.1, hfound.symm⟩
  | some pair =>
    obtain ⟨existing, owner⟩ := pair
    have hpredicate := hs owner existing (Scopes.findIn_some hfound.symm).2
    have hjoin : Ends s₂ (setScope m owner >>= fun _ => setDecl m existing) fun s' _ =>
        s'.table.scopes = s₂.table.scopes ∧ (s'.table.attributes m.id).decl = some existing ∧
        (s'.table.attributes m.id).scope = some owner := by
      have hscope : Ends s₂ (setScope m owner) fun s' _ =>
          s'.table.scopes = s₂.table.scopes ∧ (s'.table.attributes m.id).scope = some owner :=
        ⟨rfl, Table.scope_setScope_self ..⟩
      refine hscope.bind fun s₃ _ h₃ => ?_
      exact ⟨h₃.1, Table.decl_setDecl_self .., (Table.scope_setDecl ..).trans h₃.2⟩
    simp only [hpredicate, if_true]
    refine hjoin.weaken fun s₃ _ ⟨h₃, hdecl, hscope⟩ =>
      ⟨existing, owner, hdecl, hscope, ?_, fun k e he => .inl ?_⟩
    · rw [h₃, h₁]
      exact hfound.symm
    · rwa [h₃, h₁] at he

end Analysis

namespace Analysis

variable {s : State} {q : Pending} {d : Decl} {owner : ScopeId}

theorem settle_predicate (hform : q.form = .predicate)
    (hfind : s.table.scopes.find q.scope q.name = some (d, owner)) (hd : d.isPredicate = true) :
    ((s.after (settle q)).table.attributes q.mark.id).decl = some d := by
  have hlookup : Ends s (find q.scope q.name) fun s' found => s' = s ∧ found = some (d, owner) :=
    ⟨rfl, hfind⟩
  refine (hlookup.bind ?_ : Ends s (settle q) fun s' _ =>
    (s'.table.attributes q.mark.id).decl = some d)
  rintro s' _ ⟨rfl, rfl⟩
  have hfile : Ends s' (setDecl q.mark d >>= fun _ => setScope q.mark owner) fun s' _ =>
      (s'.table.attributes q.mark.id).decl = some d :=
    (Table.decl_setScope ..).trans (Table.decl_setDecl_self ..)
  simp only [hform, hd, if_true]
  exact hfile

theorem settleAll_predicate {qs : List Pending} (hq : q ∈ qs) (hform : q.form = .predicate)
    (hfind : s.table.scopes.find q.scope q.name = some (d, owner)) (hd : d.isPredicate = true) :
    ((s.after (settleAll qs)).table.attributes q.mark.id).decl.isSome := by
  induction qs generalizing s with
  | nil => cases hq
  | cons first rest ih =>
    obtain ⟨-, hscopes, -⟩ : Plain [] (settles [first]) s (s.after (settle first)) ∧ _ :=
      settle_files first
    have hrest : ((s.after (settle first)).table.attributes q.mark.id).decl.isSome →
        ((s.after (settleAll (first :: rest))).table.attributes q.mark.id).decl.isSome := by
      intro hfirst
      obtain ⟨-, -, hattributes⟩ : Plain [] (settles rest) (s.after (settle first)) _ ∧ _ :=
        settleAll_files rest
      rcases hattributes q.mark.id with hsame | ⟨_, -, -, d, owner, -, hdecl, -⟩
      · rw [← hsame] at hfirst
        exact hfirst
      · exact Option.isSome_iff_exists.mpr ⟨d, hdecl⟩
    rcases List.mem_cons.mp hq with rfl | hq
    · exact hrest (Option.isSome_iff_exists.mpr ⟨d, settle_predicate hform hfind hd⟩)
    · exact ih (s := s.after (settle first)) hq (by rw [hscopes]; exact hfind)

end Analysis

namespace Program

variable {p : Program} {functor : String} {v w : Visit} {d e : Decl} {owner k : ScopeId}

/-- What a program declares under such a name stands for one of its facts and rules. -/
theorem OnlyPredicates.of_declared (hf : p.OnlyPredicates functor) (hp : p.Numbered)
    (h : p.settled.table.scopes.findLocal k functor = some d) :
    d.name = functor ∧ d.isPredicate = true ∧ ∃ n ∈ p.nodes, n.declares = some d := by
  have hsuits := (settled_sound hp).declared k functor d h
  rw [(settled_files p p.nodes).2.1] at h
  rcases (trace hp).step.entries h with hold | hbuiltin | ⟨n, hn, hd, -⟩
  · cases hold
  · exact absurd hsuits.name (hf.builtin d (hsuits.builtin hbuiltin))
  · exact ⟨hsuits.name, hf.declared n hn d hd hsuits.name, n, hn, hd⟩

/-- The part of a visit to a fact or rule in which it joins its functor, from one state to another:
what was done before and what is done after it is for other nodes. -/
structure Joins (p : Program) (v : Visit) (s s' : State) : Prop where
  before : ∃ I, Step p.nodes I v.state s ∧ ¬ I .scope v.node.mark.id
  pass : ∃ d functor params, v.node.declares = some d ∧ v.node.head? = some functor ∧
    s' = s.after (predicate d v.node.mark functor params v.scope)
  step : Step p.nodes (fun _ id => id = v.node.mark.id) s s'
  after : ∃ J, Kept p.nodes J s' v.after ∧ ¬ J .scope v.node.mark.id ∧ ¬ J .decl v.node.mark.id

theorem joins (hp : p.Numbered) (hv : v ∈ p.visits) (hhead : v.node.head? = some functor) :
    ∃ s s', p.Joins v s s' := by
  have hready := (lasts hp hv).ready
  obtain ⟨n, i, s⟩ := v
  dsimp only at hhead hready
  unfold Node.head? at hhead
  split at hhead <;> cases hhead
  · rename_i d
    have hd : Distinct ([.statement (.fact d)] ++ Expr.nodesOfList d.arguments) := hready.distinct
    have hbelow : Ready p.nodes (Expr.nodesOfList d.arguments) i s :=
      hready.sublist (List.sublist_cons_self ..)
    have hstep := (Trace.expressions d.arguments hbelow).step
    have hpredicate : Ends (s.after (expressions d.arguments i))
        (predicate (.fact d.mark d.functor) d.mark d.functor (expressions d.arguments i s).1 i)
        fun s' _ => Step p.nodes (fun _ id => id = d.mark.id) (s.after (expressions d.arguments i)) s' ∧
          (s'.table.attributes d.mark.id).scope.isSome :=
      Step.predicate (n := .statement (.fact d)) (hready.inside List.mem_cons_self) rfl rfl rfl rfl
    refine ⟨_, _, ⟨_, hstep, ?_⟩, ⟨_, _, _, rfl, rfl, rfl⟩, hpredicate.1, ⟨fun _ _ => False, .refl _,
      id, id⟩⟩
    exact fun hf => hd.apart _ ⟨_, List.mem_singleton_self _, rfl⟩ hf.marks
  · rename_i d
    let params := d.parameters.flatMap Parameter.nodes
    have hd : Distinct ([.statement (.rule d)] ++ (params ++ d.body.nodes)) := by
      simpa [Node.nodes, Stmt.nodes, RuleDecl.nodes] using hready.distinct
    have hother : ∀ {l : List Node} {duty : Duty}, l ⊆ params ++ d.body.nodes →
        ¬ files l duty d.mark.id := fun hl hf =>
      hd.apart _ ⟨_, List.mem_singleton_self _, rfl⟩ (Marks.mono hl _ hf.marks)
    have hinner : Ready p.nodes (params ++ d.body.nodes) i s :=
      hready.sublist (by simp [Node.nodes, Stmt.nodes, RuleDecl.nodes, params])
    obtain ⟨hopen, hbody, -⟩ : Plain p.nodes (.one .bodyScope d.mark.id) s _ ∧ _ ∧ _ :=
      openRule_files (i := i) d
    have h₁ := (hinner.next hopen.step).at_scope hbody
    have hparams := (Trace.parameters d.parameters (h₁.sublist (List.sublist_append_left ..))).step
    have hbefore := hopen.step.trans hparams (K := (Share.one .bodyScope d.mark.id).or (files params))
      (fun _ _ h => .inl h) (fun _ _ h => .inr h) ?_
    let entered := (s.after (openRule d i)).after (parameters d.parameters (openRule d i s).1)
    have hpredicate : Ends entered (predicate (.rule d.mark d.functor) d.mark d.functor
        (parameters d.parameters (openRule d i s).1 (s.after (openRule d i))).1 i)
        fun s' _ => Step p.nodes (fun _ id => id = d.mark.id) entered s' ∧
          (s'.table.attributes d.mark.id).scope.isSome :=
      Step.predicate (n := .statement (.rule d)) (hready.inside List.mem_cons_self) rfl rfl rfl rfl
    have hlogic := (Trace.logic d.body (((h₁.sublist (List.sublist_append_right ..)).next
      hparams).next hpredicate.1)).step
    refine ⟨_, _, ⟨_, hbefore, ?_⟩, ⟨_, _, _, rfl, rfl, rfl⟩, hpredicate.1, ⟨_, hlogic.toKept,
      hother (List.subset_append_right ..), hother (List.subset_append_right ..)⟩⟩
    · rintro (⟨⟨⟩, -⟩ | hf)
      exact hother (List.subset_append_left ..) hf
    · rintro _ _ ⟨rfl, rfl⟩
      exact hother (List.subset_append_left ..)

namespace Joins

variable {s s' : State}

theorem later (hj : p.Joins v s s') (hp : p.Numbered) (hv : v ∈ p.visits) :
    Kept p.nodes (fun _ _ => True) s' p.settled := by
  obtain ⟨J, hafter, -⟩ := hj.after
  obtain ⟨_, _, hb⟩ := between hp hv
  exact (hafter.mono fun _ _ _ => trivial).trans (hb.after.mono fun _ _ _ => trivial)

theorem there (hj : p.Joins v s s') (hp : p.Numbered) (hv : v ∈ p.visits) :
    v.scope < s.table.scopes.all.size := by
  obtain ⟨I, hbefore, -⟩ := hj.before
  exact Nat.lt_of_lt_of_le (lasts hp hv).ready.there hbefore.size

theorem chain (hj : p.Joins v s s') (hp : p.Numbered) (hv : v ∈ p.visits) :
    p.settled.table.scopes.chain v.scope = s.table.scopes.chain v.scope := by
  have hthere := hj.there hp hv
  rw [(hj.later hp hv).chain (Nat.lt_of_lt_of_le hthere hj.step.size), hj.step.chain hthere]

/-- No scope has the declaration of a fact or rule before the fact or rule joins its functor. -/
theorem undeclared (hj : p.Joins v s s') (hp : p.Numbered) (hv : v ∈ p.visits)
    (hd : v.node.declares = some d) (name : String) : s.table.scopes.findLocal k name ≠ some d := by
  have hnone : ∀ {I : Share} {s' : State}, ¬ I .scope v.node.mark.id →
      ¬ Analysis.Entry p.nodes I s' k d := by
    rintro I s' hI (hbuiltin | ⟨n, -, hn, hscope, -⟩)
    · rw [Decl.isBuiltin, Node.mark?_declares hd] at hbuiltin
      cases hbuiltin
    · have hmark := (Node.mark?_declares hn).symm.trans (Node.mark?_declares hd)
      rw [Option.some.inj hmark] at hscope
      exact hI hscope
  intro h
  obtain ⟨I, hbefore, hI⟩ := hj.before
  obtain ⟨K, _, hb⟩ := between hp hv
  obtain ⟨_, _, _, -, hhead, -⟩ := hj.pass
  have hK : ¬ K .scope v.node.mark.id := fun hK => hb.past _ _ hK (nodeShare_head hhead).1
  rcases hbefore.entries h with hold | hnew
  · rcases hb.before.entries hold with hempty | hearlier
    · cases hempty
    · exact hnone hK hearlier
  · exact hnone hI hnew

/-- A fact or rule is filed with what its functor stands for once it has joined it, and if it is
its own functor then none was visible in its scope. -/
theorem found (hj : p.Joins v s s') (hp : p.Numbered) (hf : p.OnlyPredicates functor)
    (hv : v ∈ p.visits) (hhead : v.node.head? = some functor) : ∃ e owner,
    (p.settled.table.attributes v.node.mark.id).decl = some e ∧
    (p.settled.table.attributes v.node.mark.id).scope = some owner ∧
    s'.table.scopes.find v.scope functor = some (e, owner) ∧
    (v.node.declares = some e → owner = v.scope ∧ s.table.scopes.find v.scope functor = none) := by
  obtain ⟨d, functor', params, hd, hhead', rfl⟩ := hj.pass
  obtain rfl : functor = functor' := Option.some.inj (hhead.symm.trans hhead')
  have hpredicate : ∀ k e, s.table.scopes.findLocal k functor = some e → e.isPredicate = true :=
    fun k e h => (hf.of_declared hp ((hj.later hp hv).declared (hj.step.declared h))).2.1
  obtain ⟨e, owner, hdecl, hscope, hfind, hnew⟩ :
      Ends s (predicate d v.node.mark functor params v.scope) _ :=
    predicate_joins (hj.there hp hv) hpredicate
  obtain ⟨J, hafter, hJscope, hJdecl⟩ := hj.after
  have hshare := nodeShare_head hhead
  refine ⟨e, owner, ?_, ?_, hfind, fun he => ?_⟩
  · exact ((lasts hp hv).decl hshare.2).trans ((hafter.decl hJdecl).trans hdecl)
  · exact ((lasts hp hv).scope hshare.1).trans ((hafter.scope hJscope).trans hscope)
  · exact (hnew owner e (Scopes.findIn_some hfind).2).resolve_left
      (hj.undeclared hp hv he functor)

end Joins

theorem node_eq_of_head (hp : p.Numbered) (hv : v ∈ p.visits) (hw : w ∈ p.visits)
    (hhead : v.node.head? = some functor) (hhead' : w.node.head? = some functor)
    (h : Marks v.node.nodes w.node.mark.id) : w.node = v.node := by
  obtain ⟨n, hn, hid⟩ := h
  have hsame := hp.eq ((lasts hp hv).ready.inside hn)
    ((lasts hp hw).ready.inside w.node.self_mem_nodes) hid
  exact Node.eq_of_head hhead hhead' (hsame ▸ hn)

/-- What a functor stands for in the end, in a scope with a fact or rule about it, is what is filed
for the fact or rule. -/
theorem head_found (hp : p.Numbered) (hf : p.OnlyPredicates functor) (hv : v ∈ p.visits)
    (hhead : v.node.head? = some functor) : ∃ e owner,
    (p.settled.table.attributes v.node.mark.id).decl = some e ∧
    (p.settled.table.attributes v.node.mark.id).scope = some owner ∧
    p.settled.table.scopes.find v.scope functor = some (e, owner) := by
  obtain ⟨s, s', hj⟩ := joins hp hv hhead
  obtain ⟨e, owner, hdecl, hscope, hfind, -⟩ := hj.found hp hf hv hhead
  obtain ⟨below, above, hchain, hlocal, hbelow⟩ := Scopes.findIn_split hfind
  have hchain : p.settled.table.scopes.chain v.scope = below ++ owner :: above := by
    rw [hj.chain hp hv, ← hj.step.chain (hj.there hp hv), hchain]
  suffices hfree : ∀ k ∈ below, p.settled.table.scopes.findLocal k functor = none by
    refine ⟨e, owner, hdecl, hscope, ?_⟩
    rw [Scopes.find, hchain]
    exact Scopes.findIn_of_split _ ((hj.later hp hv).declared hlocal) hfree
  -- A scope between that declared the functor would have done so before or after the visit.
  intro k hk
  by_contra hdeclared
  obtain ⟨d, hd⟩ := Option.ne_none_iff_exists'.mp hdeclared
  obtain ⟨hname, hpredicate, n, hn, hdeclares⟩ := hf.of_declared hp hd
  have hhead' : n.head? = some functor := hname ▸ Node.head?_of_declares hdeclares hpredicate
  obtain ⟨w, hw, rfl⟩ := p.visited hn (Node.isVisited_of_head hhead')
  obtain ⟨t, t', hj'⟩ := joins hp hw hhead'
  obtain ⟨e', owner', -, hscope', hfind', hown⟩ := hj'.found hp hf hw hhead'
  obtain rfl : owner' = k := Option.some.inj
    (hscope'.symm.trans (scope_of_declared hp hd (Node.mark?_declares hdeclares)))
  obtain rfl : e' = d := Option.some.inj
    (((hj'.later hp hw).declared (Scopes.findIn_some hfind').2).symm.trans hd)
  obtain ⟨rfl, hnone⟩ := hown hdeclares
  have hother : w.node ≠ v.node := by
    intro hsame
    rw [hsame, hscope] at hscope'
    rw [Option.some.inj hscope', hbelow _ hk] at hlocal
    cases hlocal
  obtain ⟨I, hbefore, -⟩ := hj.before
  obtain ⟨J, hafter, -⟩ := hj.after
  obtain ⟨I', hbefore', -⟩ := hj'.before
  obtain ⟨J', hafter', -⟩ := hj'.after
  rcases follows hp hv hw with rfl | (hinside | hlater) | (hinside | hearlier)
  · exact hother rfl
  · exact hother (node_eq_of_head hp hv hw hhead hhead' hinside)
  · -- The functor was visible when the other one was declared.
    have hthere := hbefore'.declared (hlater.declared (hafter.declared hlocal))
    have hmem : owner ∈ t.table.scopes.chain w.scope := by
      rw [← hj'.chain hp hw]
      exact (settled_sound hp).nested.mem_chain hchain hk
    exact Scopes.findIn_ne_none hmem hthere hnone
  · exact hother (node_eq_of_head hp hw hv hhead' hhead hinside).symm
  · -- The other one was visible, and nearer, when the functor was looked up.
    have hthere := hj.step.declared (hbefore.declared (hearlier.declared
      (hafter'.declared (Scopes.findIn_some hfind').2)))
    cases (hbelow _ hk).symm.trans hthere

/-- A query is filed with what its functor stands for in the end, if that is a fact or rule. -/
theorem call_found (hp : p.Numbered) (hv : v ∈ p.visits) {m : Mark} {arguments : List Expr}
    (hnode : v.node = .expression (.logic (.call m functor arguments)))
    (hfind : p.settled.table.scopes.find v.scope functor = some (e, owner))
    (he : e.isPredicate = true) :
    (p.settled.table.attributes v.node.mark.id).decl = some e ∧
      (p.settled.table.attributes v.node.mark.id).scope = some owner := by
  have hname : v.node.postponed? = some functor := by rw [hnode]; rfl
  have hn : v.node ∈ p.nodes := (lasts hp hv).ready.inside v.node.self_mem_nodes
  have hq : ⟨.predicate, m, functor, v.scope⟩ ∈ p.walked.pending := by
    obtain ⟨_, _, hb⟩ := (trace hp).met v hv
    refine hb.after.pending.subset ?_
    rw [Visit.after, Visit.pass, hnode]
    exact List.mem_append_right _ (List.mem_singleton_self _)
  have hmark : v.node.mark.id = m.id := by rw [hnode]; rfl
  have hscopes := (settled_files p p.nodes).2.1
  have hsome := settleAll_predicate hq rfl (hscopes ▸ hfind) he
  rcases (settled_files p p.nodes).2.2 m.id with hsame | ⟨q, hq, hid, d, home, hfound, hdecl, hscope⟩
  · have hnone := walked_decl hp hn hname
    rw [hmark] at hnone
    rw [settled] at hsame
    rw [hsame, hnone] at hsome
    cases hsome
  · obtain ⟨rfl, hqscope⟩ := pending_eq hp hv hname hq (hid.trans hmark.symm)
    rw [hqscope, hfind] at hfound
    cases hfound
    exact hmark ▸ ⟨hdecl, hscope⟩

/-- All facts and rules of a functor in one scope, and all queries for it there, are filed with the
same declaration and the same scope. -/
theorem functor_filed (hp : p.Numbered) (hf : p.OnlyPredicates functor) (hv : v ∈ p.visits)
    (hhead : v.node.head? = some functor) : ∃ e owner, ∀ w ∈ p.visits, w.scope = v.scope →
      w.node.functor? = some functor →
      (p.settled.table.attributes w.node.mark.id).decl = some e ∧
      (p.settled.table.attributes w.node.mark.id).scope = some owner := by
  obtain ⟨e, owner, -, -, hfind⟩ := head_found hp hf hv hhead
  have he := (hf.of_declared hp (Scopes.findIn_some hfind).2).2.1
  refine ⟨e, owner, fun w hw hscope hfunctor => ?_⟩
  rw [← hscope] at hfind
  unfold Node.functor? at hfunctor
  split at hfunctor
  · rename_i hnode
    cases hfunctor
    exact call_found hp hw hnode hfind he
  · obtain ⟨e', owner', hdecl, hscope', hfind'⟩ := head_found hp hf hw hfunctor
    rw [hfind] at hfind'
    cases hfind'
    exact ⟨hdecl, hscope'⟩

end Program

open Eval

theorem PredicateStore.mem_of_addFact {s s' : PredicateStore} {functor : String}
    {tuple : List Value} (h : s.addFact functor tuple = .ok s') :
    ∃ tuples, s'.get? functor = some (.facts tuples) ∧ tuple ∈ tuples := by
  unfold addFact at h
  split at h
  · cases h
    exact ⟨_, Bindings.get?_set_self .., List.mem_singleton_self _⟩
  · cases h
  · split at h
    · cases h
    · cases h
      exact ⟨_, Bindings.get?_set_self .., List.mem_append_right _ (List.mem_singleton_self _)⟩

/-- Frames stay with their scopes, whatever else happens. -/
def growthContract : Contract where
  Inv _ := True
  Leads := Machine.FramesKept
  Blame _ := True
  Stop _ := True
  refl := .refl
  trans := .trans
  blame_attach _ := trivial
  stop_attach _ := trivial

theorem growthContract_permits : growthContract.Permits := by
  have hsame : ∀ {m m' : Machine}, m'.frames.size = m.frames.size →
      (∀ f, (m'.frame f).scope = (m.frame f).scope) → True ∧ m.FramesKept m' := fun hsize hscope =>
    ⟨trivial, Nat.le_of_eq hsize.symm, fun f _ => hscope f⟩
  refine .of_frames (fun _ => trivial) (fun _ => trivial) (fun _ => trivial) (fun _ hframes => ?_)
    (fun _ => hsame (by simp) (by simp))
    (fun _ => ⟨trivial, .push ..⟩) (fun _ _ _ => hsame (by simp) (by simp))
    fun _ _ => hsame (by simp) (by simp)
  exact hsame (by rw [hframes]) fun f => by rw [Machine.frame_of_frames hframes]

section Query

variable {ctx : Context} {sub : Evaluator} {env : Env} {m m₁ : Machine}

theorem Contract.Permits.of_expressions {c : Contract} (hc : c.Permits) (hends : ∀ m, c.Endless m)
    (hm : c.Inv m) {fuel : Nat} {es : List Expr} {vs : List Value}
    (h : expressions (evaluator ctx fuel) env es m = .ok vs m₁) :
    c.Inv m₁ ∧ c.Leads m m₁ := by
  have hends := (Honours.expressions (c := c) (V := fun _ => True) (m := m)
    fun e (_ : e ∈ es) m' _ => (hc.keeps_evaluator hends ctx fuel).expression m' env e) hm
  rw [h] at hends
  exact ⟨hends.1.1, hends.1.2.1⟩

theorem expressions_of_ground {functor : String} {es : List Expr} {tuple : List Value}
    (h : ground sub env functor es m = .ok tuple m₁) : expressions sub env es m = .ok tuple m₁ := by
  induction es generalizing m tuple with
  | nil => exact h
  | cons e es ih =>
    have hrest : (sub.expression env e >>= fun v =>
        if v.kind = .void then raiseAt (.voidInFact functor) e.ref >>= fun _ : Unit =>
          ground sub env functor es >>= fun vs => pure (v :: vs)
        else ground sub env functor es >>= fun vs => pure (v :: vs)) m = .ok tuple m₁ →
        expressions sub env (e :: es) m = .ok tuple m₁ := by
      intro h
      obtain ⟨v, m₂, hv, h⟩ := ok_of_bind h
      by_cases hvoid : v.kind = .void
      · rw [if_pos hvoid] at h
        cases h
      · rw [if_neg hvoid] at h
        obtain ⟨vs, m₃, hvs, h⟩ := ok_of_bind h
        cases h
        exact (bind_of_ok hv).trans (bind_of_ok (ih hvs))
    unfold ground at h
    generalize e.unwrap = inner at h
    cases inner with
    | placeholder _ _ _ => cases h
    | _ => exact hrest h

theorem storeFrame_ok {node : NodeRef} {f : FrameId} (h : storeFrame ctx env node m = .ok f m₁) :
    m₁ = m ∧ ∃ scope, (ctx.table.attributes node.mark.id).scope = some scope ∧
      m.frameOf? env scope = some f := by
  obtain ⟨scope, m₀, hscope, hstore⟩ := ok_of_bind h
  unfold scopeOf at hscope
  cases hs : (ctx.table.attributes node.mark.id).scope with
  | none =>
    rw [hs] at hscope
    cases hscope
  | some owner =>
    rw [hs] at hscope
    cases hscope
    obtain ⟨m₀, m₂, hget, hstore⟩ := ok_of_bind hstore
    cases hget
    cases hf : m.frameOf? env scope with
    | none =>
      simp only [hf] at hstore
      cases hstore
    | some f' =>
      simp only [hf] at hstore
      cases hstore
      exact ⟨rfl, scope, rfl, hf⟩

theorem changeStore_ok {f : FrameId} {change : PredicateStore → Except Cause PredicateStore}
    (h : changeStore f change m = .ok () m₁) : ∃ store, change (m.frame f).predicates = .ok store ∧
      m₁ = m.setStore f store := by
  have hstep : (lift (change (m.frame f).predicates) >>= fun store => modify (·.setStore f store)) m =
    .ok () m₁ := h
  cases hc : change (m.frame f).predicates with
  | error cause =>
    rw [hc] at hstep
    cases hstep
  | ok store =>
    rw [hc] at hstep
    cases hstep
    exact ⟨store, rfl, rfl⟩

theorem declareFact_ok {d : FactDecl} (h : declareFact ctx sub env d m = .ok () m₁) :
    ∃ tuple m₀ scope f store, expressions sub env d.arguments m = .ok tuple m₀ ∧
      (ctx.table.attributes d.mark.id).scope = some scope ∧ m₀.frameOf? env scope = some f ∧
      (m₀.frame f).predicates.addFact d.functor tuple = .ok store ∧
      m₁ = (m₀.setStore f store).log (.factDeclared d.functor tuple.length) := by
  obtain ⟨tuple, m₀, hground, h⟩ := ok_of_bind h
  obtain ⟨f, m₂, hframe, h⟩ := ok_of_bind h
  obtain ⟨⟨⟩, m₃, hstore, h⟩ := ok_of_bind h
  obtain ⟨rfl, scope, hscope, hf⟩ := storeFrame_ok hframe
  obtain ⟨store, hadd, rfl⟩ := changeStore_ok hstore
  cases h
  exact ⟨tuple, _, scope, f, store, expressions_of_ground hground, hscope, hf, hadd, rfl⟩

/-- A query whose arguments have values of a declared fact is answered with yes, by whatever was
declared on the way as well. -/
theorem resolve_of_fact {tuples : List (List Value)} {tuple vs : List Value} {mark : Mark}
    {functor : String} {arguments : List Expr} {d : Decl} {scope : ScopeId} {f : FrameId}
    {fuel : Nat} {m₂ : Machine} (hm : m.StoresWellFiled)
    (hd : (ctx.table.attributes mark.id).decl = some d)
    (hs : (ctx.table.attributes mark.id).scope = some scope) (hf : m.frameOf? env scope = some f)
    (hfacts : (m.frame f).predicates.get? functor = some (.facts tuples)) (htuple : tuple ∈ tuples)
    (hargs : expressions (evaluator ctx fuel) env arguments m = .ok vs m₂)
    (hvs : ∀ v ∈ vs, ∃ w ∈ tuple, w.equal v = true) :
    (evaluator ctx (fuel + 1)).resolve env 0 (.call mark functor arguments) m = .ok true m₂ := by
  have hgrows := (storeContract_permits.of_expressions (fun _ => trivial) hm hargs).2
  have hstep : (evaluator ctx (fuel + 1)).resolve env 0 (.call mark functor arguments) m =
      resolveCall ctx (evaluator ctx fuel) env 0 mark functor arguments m := by
    rw [evaluator_succ]
    rfl
  obtain ⟨e, he, hext⟩ := hgrows f functor _ hfacts
  rw [hstep, resolveCall_apply hd hs]
  simp only [hf, hfacts]
  have hanswer : ((m₂.frame f).predicates.get? functor).any (·.contains vs) = true := by
    cases e with
    | rule r => exact hext.elim
    | facts tuples' =>
      rw [he, Option.any_some]
      refine List.all_eq_true.mpr fun v hv => ?_
      obtain ⟨w, hw, hequal⟩ := hvs v hv
      exact List.any_eq_true.mpr ⟨tuple, hext.subset htuple, List.any_eq_true.mpr ⟨w, hw, hequal⟩⟩
  rw [bind_of_ok hargs, ← hanswer]
  rfl

/-- What was declared as a fact is known to a query of the same scope. -/
theorem resolve_after_fact {d : FactDecl} {mark : Mark} {arguments : List Expr} {e : Decl}
    {scope : ScopeId} {fuel : Nat} (hm : m.StoresWellFiled) (henv : ∀ f ∈ env, f < m.frames.size)
    (hfact : (ctx.table.attributes d.mark.id).scope = some scope)
    (hdecl : (ctx.table.attributes mark.id).decl = some e)
    (hscope : (ctx.table.attributes mark.id).scope = some scope)
    (h : (evaluator ctx (fuel + 1)).statement env (.fact d) m = .ok .normal m₁) :
    ∃ tuple m₀, expressions (evaluator ctx fuel) env d.arguments m = .ok tuple m₀ ∧
      ((∀ v ∈ tuple, v.isNaN = false) → ∀ fuel' vs m₂,
        expressions (evaluator ctx fuel') env arguments m₁ = .ok vs m₂ → (∀ v ∈ vs, v ∈ tuple) →
        (evaluator ctx (fuel' + 1)).resolve env 0 (.call mark d.functor arguments) m₁ =
          .ok true m₂) := by
  obtain ⟨⟨⟩, m', hdeclared, hend⟩ := ok_of_bind (ok_of_attach h)
  cases hend
  obtain ⟨tuple, m₀, home, f, store, hargs, hs, hf, hadd, rfl⟩ := declareFact_ok hdeclared
  obtain rfl : home = scope := Option.some.inj (hs.symm.trans hfact)
  refine ⟨tuple, m₀, hargs, fun hnan fuel' vs m₂ hvs hmem => ?_⟩
  have hfiled : m₀.StoresWellFiled := (storeContract_permits.of_expressions (fun _ => trivial) hm hargs).1
  have hkept : m.FramesKept m₀ := (growthContract_permits.of_expressions (fun _ => trivial) trivial hargs).2
  obtain ⟨tuples, hfacts, htuple⟩ := PredicateStore.mem_of_addFact hadd
  have hthere : f < m₀.frames.size :=
    Nat.lt_of_lt_of_le (henv f (List.mem_of_find?_eq_some hf)) hkept.1
  have hstore : ((m₀.setStore f store).frame f).predicates = store := by
    rw [Machine.setStore, Machine.frame_updateFrame, if_pos ⟨rfl, hthere⟩]
  have hframe : (m₀.setStore f store).frameOf? env home = some f := by
    simpa only [Machine.frameOf?, Machine.scope_setStore] using hf
  refine resolve_of_fact (f := f) ?_ hdecl hscope ?_ ?_ htuple hvs
    fun v hv => ⟨v, hmem v hv, Value.equal_self (hnan v (hmem v hv))⟩
  · exact (Machine.stores_setStore hfiled (PredicateStore.addFact_ok (hfiled f) hadd)).1
  · exact hframe
  · exact (congrArg (·.get? d.functor) hstore).trans hfacts

end Query

namespace Program

theorem Reaches.storesWellFiled {p : Program} {ctx : Context} {m : Machine} (h : p.Reaches ctx m) :
    m.StoresWellFiled := by
  obtain ⟨o, fuel, rfl⟩ := h
  exact (p.stores_compare ctx (.refl o) (Nat.le_refl fuel)).inv

/-- A fact or rule and a query that stand in one scope mean the same functor by one name, if the
program declares nothing else under the name: they are filed with the same declaration and the same
scope. So a query that comes right after a fact was declared, and asks for values of the fact, is
answered with yes. -/
theorem functor_agrees {p : Program} {functor : String} (hp : p.Numbered)
    (hf : p.OnlyPredicates functor) :
    (∀ v ∈ p.visits, v.node.head? = some functor → ∃ d owner, ∀ w ∈ p.visits, w.scope = v.scope →
      w.node.functor? = some functor →
      ((analyze p).1.attributes w.node.mark.id).decl = some d ∧
      ((analyze p).1.attributes w.node.mark.id).scope = some owner) ∧
    ∀ limit, ∀ v ∈ p.visits, ∀ w ∈ p.visits, w.scope = v.scope →
      ∀ d mark arguments, v.node = .statement (.fact d) → d.functor = functor →
      w.node = .expression (.logic (.call mark functor arguments)) →
      ∀ m env fuel m₁, p.Reaches ⟨(analyze p).1, limit⟩ m → (∀ f ∈ env, f < m.frames.size) →
      (evaluator ⟨(analyze p).1, limit⟩ (fuel + 1)).statement env (.fact d) m = .ok .normal m₁ →
      ∃ tuple m₀, expressions (evaluator ⟨(analyze p).1, limit⟩ fuel) env d.arguments m =
          .ok tuple m₀ ∧
        ((∀ v ∈ tuple, v.isNaN = false) → ∀ fuel' vs m₂,
          expressions (evaluator ⟨(analyze p).1, limit⟩ fuel') env arguments m₁ = .ok vs m₂ →
          (∀ v ∈ vs, v ∈ tuple) →
          (evaluator ⟨(analyze p).1, limit⟩ (fuel' + 1)).resolve env 0
            (.call mark functor arguments) m₁ = .ok true m₂) := by
  have htable : (analyze p).1 = p.settled.table := by rw [analyze_eq]
  rw [htable]
  refine ⟨fun v hv hhead => functor_filed hp hf hv hhead, ?_⟩
  rintro limit v hv w hw hscope d mark arguments hfact rfl hcall m env fuel m₁ hm henv hdone
  have hhead : v.node.head? = some d.functor := by rw [hfact]; rfl
  obtain ⟨e, owner, hfiled⟩ := functor_filed hp hf hv hhead
  obtain ⟨-, howner⟩ := hfiled v hv rfl (by rw [hfact]; rfl)
  obtain ⟨hdecl, howner'⟩ := hfiled w hw hscope (by rw [hcall]; rfl)
  rw [hfact] at howner
  rw [hcall] at hdecl howner'
  exact resolve_after_fact hm.storesWellFiled henv howner hdecl howner' hdone

def twoFunctorsFact : FactDecl := ⟨⟨4, {}⟩, "p", [.int ⟨5, {}⟩ 2]⟩

def twoFunctorsQuery : Goal := .call ⟨7, {}⟩ "p" [.int ⟨8, {}⟩ 2]

/-- A block has a functor of its own, since the outer one is declared below; then the outer one is
asked for the fact that was just declared. -/
def twoFunctors : Program where
  mark := ⟨0, {}⟩
  statements := [
    .block ⟨⟨1, {}⟩, [.fact ⟨⟨2, {}⟩, "p", [.int ⟨3, {}⟩ 1]⟩]⟩,
    .fact twoFunctorsFact,
    .expr ⟨6, {}⟩ (.logic twoFunctorsQuery)]

theorem twoFunctors_agree :
    twoFunctors.Numbered ∧ twoFunctors.OnlyPredicates "p" ∧
    (∃ d, ((analyze twoFunctors).1.attributes 4).decl = some d ∧
      ((analyze twoFunctors).1.attributes 7).decl = some d) ∧
    ((analyze twoFunctors).1.attributes 7).scope = some 0 ∧
    ((analyze twoFunctors).1.attributes 2).scope = some 1 ∧
    ∃ m₁ m₂, (evaluator ⟨(analyze twoFunctors).1, 1⟩ 2).statement [0]
        (.fact twoFunctorsFact) (twoFunctors.run ⟨(analyze twoFunctors).1, 1⟩ 0).machine = .ok .normal m₁ ∧
      (evaluator ⟨(analyze twoFunctors).1, 1⟩ 2).resolve [0] 0 twoFunctorsQuery m₁ = .ok true m₂ := by
  have hnumbered : twoFunctors.Numbered := by
    unfold Numbered Distinct
    decide
  have hpredicates : twoFunctors.OnlyPredicates "p" := ⟨by decide, by decide⟩
  obtain ⟨hfiled, hasked⟩ := functor_agrees hnumbered hpredicates
  have hfact : ∃ s, (⟨.statement (.fact twoFunctorsFact), 0, s⟩ : Visit) ∈ twoFunctors.visits :=
    ⟨_, List.mem_append_right _ (List.mem_append_left _ List.mem_cons_self)⟩
  have hcall : ∃ s, (⟨.expression (.logic twoFunctorsQuery), 0, s⟩ : Visit) ∈ twoFunctors.visits :=
    ⟨_, List.mem_append_right _ (List.mem_append_right _ (List.mem_append_left _
      (List.mem_cons_of_mem _ List.mem_cons_self)))⟩
  obtain ⟨s, hfact⟩ := hfact
  obtain ⟨t, hcall⟩ := hcall
  obtain ⟨d, owner, hsame⟩ := hfiled _ hfact rfl
  refine ⟨hnumbered, hpredicates, ⟨d, (hsame _ hfact rfl rfl).1, (hsame _ hcall rfl rfl).1⟩,
    by decide +kernel, by decide +kernel, ?_⟩
  have hdone : (match (evaluator ⟨(analyze twoFunctors).1, 1⟩ 2).statement [0]
      (.fact twoFunctorsFact) (twoFunctors.run ⟨(analyze twoFunctors).1, 1⟩ 0).machine with
      | .ok .normal _ => true
      | .ok (.returned _) _ => false
      | .error _ _ => false) = true := by decide +kernel
  split at hdone
  · rename_i m₁ hdeclared
    obtain ⟨tuple, m₀, htuple, hanswer⟩ := hasked 1 _ hfact _ hcall rfl _ _ _ rfl rfl rfl _ [0] 1 m₁
      (reaches_run ..) (by decide +kernel) hdeclared
    cases htuple
    exact ⟨m₁, m₁, hdeclared, hanswer (by decide +kernel) 1 [.int 2] m₁ rfl (by simp)⟩
  · cases hdone
  · cases hdone

end Program

end LogicScript
