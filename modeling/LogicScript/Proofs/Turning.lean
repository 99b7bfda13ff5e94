import LogicScript.Proofs.Likeness

/-! Programs in which the two sides of a unification change places.

The walk over such a program is the walk over the original one as far as the unification, but for the
bodies of the functions that are declared ahead. So the analysis comes to both in states that look
alike. -/
namespace LogicScript

open Analysis

mutual

/-- The sides of the unification of the number change places. -/
def Stmt.turn (id : Nat) : Stmt → Stmt
  | .block ⟨m, body⟩ => .block ⟨m, Stmt.turnAll id body⟩
  | .function ⟨m, name, params, result, ⟨bodyMark, body⟩⟩ =>
    .function ⟨m, name, params, result, ⟨bodyMark, Stmt.turnAll id body⟩⟩
  | .cond m condition yes none => .cond m condition (yes.turn id) none
  | .cond m condition yes (some no) => .cond m condition (yes.turn id) (some (no.turn id))
  | .loop m condition body => .loop m condition (body.turn id)
  | .unify m left right => if m.id = id then .unify m right left else .unify m left right
  | st => st

def Stmt.turnAll (id : Nat) : List Stmt → List Stmt
  | [] => []
  | st :: rest => st.turn id :: Stmt.turnAll id rest

end

def Program.turn (id : Nat) (p : Program) : Program :=
  { p with statements := Stmt.turnAll id p.statements }

namespace Stmt

variable {id : Nat}

mutual

theorem turn_eq (st : Stmt) (h : ¬ Marks st.nodes id) : st.turn id = st := by
  have hbelow : ∀ {l : List Node}, l ⊆ st.nodes → ¬ Marks l id := fun hl hm => h (hm.mono hl id)
  match st with
  | .block ⟨m, body⟩ =>
    rw [turn, turnAll_eq body (hbelow (by simp [nodes]))]
  | .function ⟨m, name, params, result, ⟨bodyMark, body⟩⟩ =>
    rw [turn, turnAll_eq body (hbelow fun n hn => by simp [nodes, hn])]
  | .cond m condition yes none =>
    rw [turn, turn_eq yes (hbelow (by simp [nodes]))]
  | .cond m condition yes (some no) =>
    rw [turn, turn_eq yes (hbelow fun n hn => by simp [nodes, hn]),
      turn_eq no (hbelow fun n hn => by simp [nodes, hn])]
  | .loop m condition body =>
    rw [turn, turn_eq body (hbelow (by simp [nodes]))]
  | .unify m left right =>
    have hne : m.id ≠ id := fun heq => h ⟨_, self_mem_nodes _, heq⟩
    rw [turn, if_neg hne]
  | .expr _ _ | .var _ | .struct _ | .ret _ none | .ret _ (some _) | .atom _ | .fact _ | .rule _ =>
    simp only [turn]

theorem turnAll_eq (ss : List Stmt) (h : ¬ Marks (nodesOfList ss) id) : turnAll id ss = ss := by
  match ss with
  | [] => rw [turnAll]
  | st :: rest =>
    have hst : ¬ Marks st.nodes id := fun hm => h (hm.mono (by simp [nodesOfList]) id)
    have hrest : ¬ Marks (nodesOfList rest) id := fun hm => h (hm.mono (by simp [nodesOfList]) id)
    rw [turnAll, turn_eq st hst, turnAll_eq rest hrest]

end

mutual

theorem numbers_turn (st : Stmt) : (numbers (st.turn id).nodes).Perm (numbers st.nodes) := by
  match st with
  | .block ⟨m, body⟩ =>
    simp only [turn, nodes, numbers_cons]
    exact (numbers_turnAll body).cons _
  | .function ⟨m, name, params, result, ⟨bodyMark, body⟩⟩ =>
    simp only [turn, nodes, numbers_cons, numbers_append]
    exact (((numbers_turnAll body).cons _).append_left _).cons _
  | .cond m condition yes none =>
    simp only [turn, nodes, numbers_cons, numbers_append]
    exact ((numbers_turn yes).append_left _).cons _
  | .cond m condition yes (some no) =>
    simp only [turn, nodes, numbers_cons, numbers_append]
    exact (((numbers_turn yes).append_left _).append (numbers_turn no)).cons _
  | .loop m condition body =>
    simp only [turn, nodes, numbers_cons, numbers_append]
    exact ((numbers_turn body).append_left _).cons _
  | .unify m left right =>
    rw [turn]
    split
    · simp only [nodes, numbers_cons, numbers_append]
      exact List.perm_append_comm.cons _
    · exact .refl _
  | .expr _ _ | .var _ | .struct _ | .ret _ none | .ret _ (some _) | .atom _ | .fact _ | .rule _ =>
    simp only [turn, List.Perm.refl]

theorem numbers_turnAll (ss : List Stmt) :
    (numbers (nodesOfList (turnAll id ss))).Perm (numbers (nodesOfList ss)) := by
  match ss with
  | [] =>
    rw [turnAll]
  | st :: rest =>
    simp only [turnAll, nodesOfList, numbers_append]
    exact (numbers_turn st).append (numbers_turnAll rest)

end

theorem hoistedAlike_turn {all : List Node} {st : Stmt} (h : .statement st ∈ all) :
    HoistedAlike all st (st.turn id) := by
  cases st with
  | struct d =>
    simp only [turn]
    exact .struct h
  | function d =>
    obtain ⟨m, name, params, result, ⟨bodyMark, body⟩⟩ := d
    rw [turn]
    exact .function ..
  | block b =>
    obtain ⟨m, body⟩ := b
    rw [turn]
    exact .other rfl rfl
  | cond m condition yes no => cases no <;> rw [turn] <;> exact .other rfl rfl
  | loop =>
    rw [turn]
    exact .other rfl rfl
  | unify m left right =>
    rw [turn]
    split <;> exact .other rfl rfl
  | ret m value => cases value <;> exact .other rfl (by simp [turn, isHoisted])
  | _ => exact .other rfl (by simp [turn, isHoisted])

theorem hoistedAlike_turnAll {all : List Node} {ss : List Stmt} (id : Nat)
    (h : nodesOfList ss ⊆ all) :
    List.Forall₂ (HoistedAlike all) ss (turnAll id ss) := by
  induction ss with
  | nil =>
    rw [turnAll]
    exact .nil
  | cons st rest ih =>
    rw [turnAll]
    refine .cons (hoistedAlike_turn (h ?_)) (ih fun n hn => h ?_)
    · simp [nodesOfList, self_mem_nodes]
    · simp [nodesOfList, hn]

end Stmt

theorem Program.Numbered.turn {p : Program} (hp : p.Numbered) (id : Nat) : (p.turn id).Numbered := by
  have hperm : (numbers (p.turn id).nodes).Perm (numbers p.nodes) := by
    simp only [Program.turn, Program.nodes, numbers_cons]
    exact (Stmt.numbers_turnAll p.statements).cons _
  exact hperm.nodup_iff.mpr hp

namespace Analysis

variable {all : List Node} {m : Mark} {left right : PredicateCall} {vs vs' ws ws' : List Visit}
  {i : ScopeId} {s s' : State}

/-- Two walks come to the unification and to the same with its sides changed, in states that look
alike. -/
def Meet (all : List Node) (m : Mark) (left right : PredicateCall) (vs vs' : List Visit) : Prop :=
  ∃ i t t', t.Alike all t' ∧ (Stmt.unify m left right).visits i t ⊆ vs ∧
    (Stmt.unify m right left).visits i t' ⊆ vs'

theorem Meet.mono (h : Meet all m left right vs vs') (hsub : vs ⊆ ws) (hsub' : vs' ⊆ ws') :
    Meet all m left right ws ws' := by
  obtain ⟨i, t, t', ht, hvs, hvs'⟩ := h
  exact ⟨i, t, t', ht, List.Subset.trans hvs hsub, List.Subset.trans hvs' hsub'⟩

mutual

theorem statement_meet (st : Stmt) {i : ScopeId} {s s' : State} (hs : s.Alike all s')
    (hd : Distinct st.nodes) (hall : st.nodes ⊆ all)
    (h : .statement (.unify m left right) ∈ st.nodes) :
    Meet all m left right (st.visits i s) ((st.turn m.id).visits i s') := by
  have hmarks : ∀ {l : List Node}, .statement (.unify m left right) ∈ l → Marks l m.id :=
    fun h => ⟨_, h, rfl⟩
  have hinside : ∀ {l : List Node}, l.Sublist st.nodes → l ⊆ all := fun hl =>
    List.Subset.trans hl.subset hall
  have hdistinct : ∀ {l : List Node}, l.Sublist st.nodes → Distinct l := fun hl =>
    List.Nodup.sublist (hl.map _) hd
  match st with
  | .block ⟨b, body⟩ =>
    have hsub : (Stmt.nodesOfList body).Sublist (Stmt.block ⟨b, body⟩).nodes := by simp [Stmt.nodes]
    have hbody : .statement (.unify m left right) ∈ Stmt.nodesOfList body := by
      simpa [Stmt.nodes] using h
    obtain ⟨hinner, hopen⟩ := Agree.openBlock (m := b) (i := i) s s' hs
    have hhoist := (Agree.hoist (Stmt.hoistedAlike_turnAll m.id (hinside hsub))
      (i := (openBlock b i s).1) _ _ hopen).2
    have hmeet := statements_meet body hhoist (hdistinct hsub) (hinside hsub) hbody
      (i := (openBlock b i s).1)
    rw [Stmt.turn]
    refine hmeet.mono ?_ ?_
    · simp [Stmt.visits, State.after]
    · simp [Stmt.visits, State.after, hinner]
  | .function ⟨f, name, params, result, ⟨b, body⟩⟩ =>
    have hsub : (Stmt.nodesOfList body).Sublist
        (Stmt.function ⟨f, name, params, result, ⟨b, body⟩⟩).nodes := by
      simp only [Stmt.nodes]
      exact .cons _ (.trans (.cons _ (.refl _)) (List.sublist_append_right ..))
    have hbody : .statement (.unify m left right) ∈ Stmt.nodesOfList body := by
      simpa [Stmt.nodes, Parameter.statement_not_mem_nodes, TypeExpr.statement_not_mem_option]
        using h
    have hopened : Agree all Eq (openFunction f params result i) (openFunction f params result i) :=
      .openFunction
    obtain ⟨houter, hopen⟩ := hopened s s' hs
    let outer := (openFunction f params result i s).1
    have hparams := (Agree.parameters params (i := outer) _ _ hopen).2
    let s₂ := (s.after (openFunction f params result i)).after (parameters params outer)
    obtain ⟨hinner, hblock⟩ := Agree.openBlock (m := b) (i := outer) _ _ hparams
    let inner := (openBlock b outer s₂).1
    have hhoist := (Agree.hoist (Stmt.hoistedAlike_turnAll m.id (hinside hsub))
      (i := inner) _ _ hblock).2
    have hmeet := statements_meet body hhoist (hdistinct hsub) (hinside hsub) hbody (i := inner)
    rw [Stmt.turn]
    refine hmeet.mono ?_ ?_
    · exact fun v hv => by simpa [Stmt.visits, State.after] using .inr (.inr (.inr hv))
    · intro v hv
      have hv : v ∈ Stmt.visitsOfList (Stmt.turnAll m.id body) inner _ := hv
      simp only [inner, s₂, State.after, outer] at hv
      simp only [Stmt.visits, State.after, ← houter, List.mem_cons, List.mem_append]
      rw [← hinner]
      exact .inr (.inr (.inr hv))
  | .cond c condition yes none =>
    have hsub : yes.nodes.Sublist (Stmt.cond c condition yes none).nodes := by simp [Stmt.nodes]
    have hyes : .statement (.unify m left right) ∈ yes.nodes := by
      simpa [Stmt.nodes, Expr.statement_not_mem_nodes] using h
    have hcondition := (Agree.expression condition (i := i) s s' hs).2
    have hmeet := statement_meet yes hcondition (hdistinct hsub) (hinside hsub) hyes (i := i)
    rw [Stmt.turn]
    refine hmeet.mono ?_ ?_ <;> simp [Stmt.visits, State.after]
  | .cond c condition yes (some no) =>
    have hboth : (yes.nodes ++ no.nodes).Sublist (Stmt.cond c condition yes (some no)).nodes := by
      simp [Stmt.nodes]
    have hyes := (List.sublist_append_left yes.nodes no.nodes).trans hboth
    have hno := (List.sublist_append_right yes.nodes no.nodes).trans hboth
    have hcondition := (Agree.expression condition (i := i) s s' hs).2
    have hcases : .statement (.unify m left right) ∈ yes.nodes ∨
        .statement (.unify m left right) ∈ no.nodes := by
      simpa [Stmt.nodes, Expr.statement_not_mem_nodes] using h
    rw [Stmt.turn]
    rcases hcases with hmem | hmem
    · have hmeet := statement_meet yes hcondition (hdistinct hyes) (hinside hyes) hmem (i := i)
      refine hmeet.mono ?_ ?_ <;> exact fun v hv => by
        simpa [Stmt.visits, State.after] using .inr (.inr (.inl hv))
    · have hsame : yes.turn m.id = yes := Stmt.turn_eq yes fun hm =>
        (hdistinct hboth).apart _ hm (hmarks hmem)
      have hnext := (Agree.statement yes (hinside hyes) (i := i) _ _ hcondition).2
      have hmeet := statement_meet no hnext (hdistinct hno) (hinside hno) hmem (i := i)
      rw [hsame]
      refine hmeet.mono ?_ ?_ <;> exact fun v hv => by
        simpa [Stmt.visits, State.after] using .inr (.inr (.inr hv))
  | .loop c condition body =>
    have hsub : body.nodes.Sublist (Stmt.loop c condition body).nodes := by simp [Stmt.nodes]
    have hbody : .statement (.unify m left right) ∈ body.nodes := by
      simpa [Stmt.nodes, Expr.statement_not_mem_nodes] using h
    have hcondition := (Agree.expression condition (i := i) s s' hs).2
    have hmeet := statement_meet body hcondition (hdistinct hsub) (hinside hsub) hbody (i := i)
    rw [Stmt.turn]
    refine hmeet.mono ?_ ?_ <;> simp [Stmt.visits, State.after]
  | .unify m' l r =>
    have hself : .statement (.unify m left right) = Node.statement (.unify m' l r) := by
      simpa [Stmt.nodes, Goal.statement_not_mem_nodes] using h
    cases hself
    rw [Stmt.turn, if_pos rfl]
    exact ⟨i, s, s', hs, List.Subset.refl _, List.Subset.refl _⟩
  | .expr _ value => simp [Stmt.nodes, Expr.statement_not_mem_nodes] at h
  | .var d =>
    simp [Stmt.nodes, VarDecl.nodes, Expr.statement_not_mem_option,
      TypeExpr.statement_not_mem_option] at h
  | .struct d =>
    simp [Stmt.nodes, StructDecl.nodes, FieldDecl.nodes, TypeExpr.statement_not_mem_nodes] at h
  | .ret _ none => simp [Stmt.nodes] at h
  | .ret _ (some value) => simp [Stmt.nodes, Expr.statement_not_mem_nodes] at h
  | .atom d => simp [Stmt.nodes] at h
  | .fact d => simp [Stmt.nodes, FactDecl.nodes, Expr.statement_not_mem_nodesOfList] at h
  | .rule d =>
    simp [Stmt.nodes, RuleDecl.nodes, Parameter.statement_not_mem_nodes,
      Goal.statement_not_mem_nodes] at h

theorem statements_meet (ss : List Stmt) {i : ScopeId} {s s' : State} (hs : s.Alike all s')
    (hd : Distinct (Stmt.nodesOfList ss)) (hall : Stmt.nodesOfList ss ⊆ all)
    (h : .statement (.unify m left right) ∈ Stmt.nodesOfList ss) :
    Meet all m left right (Stmt.visitsOfList ss i s)
      (Stmt.visitsOfList (Stmt.turnAll m.id ss) i s') := by
  match ss with
  | [] => cases h
  | st :: rest =>
    have hst : st.nodes.Sublist (Stmt.nodesOfList (st :: rest)) := by simp [Stmt.nodesOfList]
    have hrest : (Stmt.nodesOfList rest).Sublist (Stmt.nodesOfList (st :: rest)) := by
      simp [Stmt.nodesOfList]
    rw [Stmt.turnAll]
    rcases List.mem_append.mp h with hmem | hmem
    · have hmeet := statement_meet st hs (List.Nodup.sublist (hst.map _) hd)
        (List.Subset.trans hst.subset hall) hmem (i := i)
      refine hmeet.mono ?_ ?_ <;> simp [Stmt.visitsOfList]
    · have hsame : st.turn m.id = st := Stmt.turn_eq st fun hm =>
        Distinct.apart hd _ hm ⟨_, hmem, rfl⟩
      have hnext := (Agree.statement st (List.Subset.trans hst.subset hall) (i := i) s s' hs).2
      have hmeet := statements_meet rest hnext (List.Nodup.sublist (hrest.map _) hd)
        (List.Subset.trans hrest.subset hall) hmem (i := i)
      rw [hsame]
      refine hmeet.mono ?_ ?_ <;> simp [Stmt.visitsOfList, State.after]

end

end Analysis

namespace Program

variable {p : Program} {m : Mark} {left right : PredicateCall}

/-- The analysis of a program and that of the program with the sides changed come to the unification
in states that look alike. -/
theorem turn_meet (hp : p.Numbered) (h : .statement (.unify m left right) ∈ p.nodes) :
    Meet p.nodes m left right p.visits (p.turn m.id).visits := by
  have hinside : Stmt.nodesOfList p.statements ⊆ p.nodes := List.subset_cons_self ..
  have hmem : .statement (.unify m left right) ∈ Stmt.nodesOfList p.statements := by
    simpa [nodes] using h
  exact statements_meet p.statements
    (opened_alike rfl (Stmt.hoistedAlike_turnAll m.id hinside)) (List.nodup_cons.mp hp).2 hinside hmem

end Program

end LogicScript
