import LogicScript.Proofs.Attribution
import LogicScript.Proofs.Numbering

/-! Where the analysis places the nodes of a program.

Every statement stands in a list of scopes, from the nearest to the outermost. Blocks, functions and
rules open new scopes, and whatever scope is filed for a node is one of those it stands in. -/
namespace LogicScript

/-- The nodes of a function before its body. -/
def FunctionDecl.head (d : FunctionDecl) : List Node :=
  .statement (.function d) :: (d.parameters.flatMap Parameter.nodes ++
    (d.returnType.map TypeExpr.nodes).getD [])

theorem Stmt.nodes_function (d : FunctionDecl) :
    (Stmt.function d).nodes = d.head ++ (Stmt.block d.body).nodes := by
  obtain ⟨m, name, parameters, returnType, ⟨block, body⟩⟩ := d
  simp [nodes, FunctionDecl.head]

theorem Node.self_mem_nodes (n : Node) : n ∈ n.nodes := by
  cases n with
  | statement st => exact st.self_mem_nodes
  | expression e => exact e.self_mem_nodes
  | type t => cases t <;> exact List.mem_cons_self
  | _ => exact List.mem_cons_self

namespace Analysis

/-- The scope of a node is among some scopes, and if it is still to be resolved it will be. -/
def State.Belongs (s : State) (scopes : List ScopeId) (id : Nat) : Prop :=
  (∀ i, (s.table.attributes id).scope = some i → i ∈ scopes) ∧
  ∀ q ∈ s.pending, q.mark.id = id → q.scope < s.table.scopes.all.size ∧
    ∀ i ∈ s.table.scopes.chain q.scope, i ∈ scopes

/-- Nothing is to be resolved for a node. -/
def State.Quiet (s : State) (id : Nat) : Prop := ∀ q ∈ s.pending, q.mark.id ≠ id

/-- The scope of a node is a certain one, and nothing is to be resolved for the node. -/
def State.Opens (s : State) (i : ScopeId) (id : Nat) : Prop :=
  (s.table.attributes id).scope = some i ∧ s.Quiet id

/-- All nodes belong to some scopes. -/
def State.Owns (s : State) (scopes : List ScopeId) (nodes : List Node) : Prop :=
  ∀ node ∈ nodes, s.Belongs scopes node.mark.id

mutual

/-- A statement stands in some scopes. -/
def Placed (s : State) : List ScopeId → Stmt → Prop
  | scopes, .block ⟨m, body⟩ => ∃ i, s.Opens i m.id ∧ i ∉ scopes ∧ PlacedAll s (i :: scopes) body
  | scopes, .function ⟨m, _, _, _, ⟨block, body⟩⟩ => s.Belongs scopes m.id ∧
    ∃ b, (s.table.attributes m.id).bodyScope = some b ∧ b < s.table.scopes.all.size ∧
      b ∉ scopes ∧ (s.table.scopes.get b).outer = scopes ∧
      ∃ i, s.Opens i block.id ∧ i ∉ b :: scopes ∧ PlacedAll s (i :: b :: scopes) body
  | scopes, .cond _ condition yes none => s.Owns scopes condition.nodes ∧ Placed s scopes yes
  | scopes, .cond _ condition yes (some no) =>
    s.Owns scopes condition.nodes ∧ Placed s scopes yes ∧ Placed s scopes no
  | scopes, .loop _ condition body => s.Owns scopes condition.nodes ∧ Placed s scopes body
  | scopes, .rule d => s.Belongs scopes d.mark.id ∧
    ∃ b, (s.table.attributes d.mark.id).bodyScope = some b ∧ b ∉ scopes ∧
      s.Owns (b :: scopes) d.body.nodes
  | scopes, .expr _ e => s.Owns scopes e.nodes
  | scopes, .var d => s.Owns scopes d.nodes
  | scopes, .struct d => s.Owns scopes d.nodes
  | _, .ret _ none => True
  | scopes, .ret _ (some e) => s.Owns scopes e.nodes
  | scopes, .atom d => s.Owns scopes [.statement (.atom d)]
  | scopes, .fact d => s.Owns scopes d.nodes
  | scopes, .unify m left right =>
    s.Owns scopes (.statement (.unify m left right) :: (left.goal.nodes ++ right.goal.nodes))

def PlacedAll (s : State) : List ScopeId → List Stmt → Prop
  | _, [] => True
  | scopes, st :: rest => Placed s scopes st ∧ PlacedAll s scopes rest

end

/-- What is known about some nodes stays true. -/
structure Carries (N : Nat → Prop) (s s' : State) : Prop where
  size : s.table.scopes.all.size ≤ s'.table.scopes.all.size
  outer : ∀ i < s.table.scopes.all.size,
    (s'.table.scopes.get i).outer = (s.table.scopes.get i).outer
  belongs : ∀ {scopes id}, N id → s.Belongs scopes id → s'.Belongs scopes id
  opens : ∀ {i id}, N id → s.Opens i id → s'.Opens i id
  bodyScope : ∀ {id i}, (s.table.attributes id).bodyScope = some i →
    (s'.table.attributes id).bodyScope = some i

namespace Carries

variable {N : Nat → Prop} {s s' : State}

theorem mono {M : Nat → Prop} (h : Carries N s s') (hM : ∀ id, M id → N id) : Carries M s s' :=
  ⟨h.size, h.outer, fun hid => h.belongs (hM _ hid), fun hid => h.opens (hM _ hid), h.bodyScope⟩

theorem owns (h : Carries N s s') {scopes : List ScopeId} {nodes : List Node}
    (hN : ∀ node ∈ nodes, N node.mark.id) (ho : s.Owns scopes nodes) : s'.Owns scopes nodes :=
  fun node hnode => h.belongs (hN node hnode) (ho node hnode)

mutual

theorem placed (h : Carries N s s') (st : Stmt) {scopes : List ScopeId}
    (hN : ∀ node ∈ st.nodes, N node.mark.id) (hp : Placed s scopes st) : Placed s' scopes st := by
  match st with
  | .block ⟨m, body⟩ =>
    obtain ⟨i, hi, hfresh, hbody⟩ := hp
    refine ⟨i, h.opens (hN _ (Stmt.self_mem_nodes _)) hi, hfresh,
      h.placedAll body (fun node hmem => ?_) hbody⟩
    exact hN node (by simp [Stmt.nodes, hmem])
  | .function ⟨m, name, params, returnType, ⟨block, body⟩⟩ =>
    obtain ⟨hself, b, hb, hsize, hfresh, houter, i, hi, hfresh', hbody⟩ := hp
    have hm : N m.id := hN _ (Stmt.self_mem_nodes _)
    have hblock : N block.id := hN (.statement (.block ⟨block, body⟩)) (by simp [Stmt.nodes])
    refine ⟨h.belongs hm hself, b, h.bodyScope hb, Nat.lt_of_lt_of_le hsize h.size,
      hfresh, by rw [h.outer b hsize, houter], i, h.opens hblock hi, hfresh',
      h.placedAll body (fun node hmem => ?_) hbody⟩
    exact hN node (by simp [Stmt.nodes, hmem])
  | .cond _ condition yes none =>
    exact ⟨h.owns (fun node hmem => hN node (by simp [Stmt.nodes, hmem])) hp.1,
      h.placed yes (fun node hmem => hN node (by simp [Stmt.nodes, hmem])) hp.2⟩
  | .cond _ condition yes (some no) =>
    exact ⟨h.owns (fun node hmem => hN node (by simp [Stmt.nodes, hmem])) hp.1,
      h.placed yes (fun node hmem => hN node (by simp [Stmt.nodes, hmem])) hp.2.1,
      h.placed no (fun node hmem => hN node (by simp [Stmt.nodes, hmem])) hp.2.2⟩
  | .loop _ condition body =>
    exact ⟨h.owns (fun node hmem => hN node (by simp [Stmt.nodes, hmem])) hp.1,
      h.placed body (fun node hmem => hN node (by simp [Stmt.nodes, hmem])) hp.2⟩
  | .rule d =>
    obtain ⟨hself, b, hb, hfresh, hbody⟩ := hp
    have hm : N d.mark.id := hN _ (Stmt.self_mem_nodes _)
    refine ⟨h.belongs hm hself, b, h.bodyScope hb, hfresh, h.owns ?_ hbody⟩
    exact fun node hmem => hN node (by simp [Stmt.nodes, RuleDecl.nodes, hmem])
  | .expr _ e => exact h.owns (fun node hmem => hN node (by simp [Stmt.nodes, hmem])) hp
  | .var d => exact h.owns (fun node hmem => hN node (by simp [Stmt.nodes, hmem])) hp
  | .struct d => exact h.owns (fun node hmem => hN node (by simp [Stmt.nodes, hmem])) hp
  | .ret _ none => trivial
  | .ret _ (some e) => exact h.owns (fun node hmem => hN node (by simp [Stmt.nodes, hmem])) hp
  | .atom d => exact h.owns (fun node hmem => hN node (by simpa [Stmt.nodes] using hmem)) hp
  | .fact d => exact h.owns (fun node hmem => hN node (by simp [Stmt.nodes, hmem])) hp
  | .unify _ left right => exact h.owns (fun node hmem => hN node hmem) hp

theorem placedAll (h : Carries N s s') (ss : List Stmt) {scopes : List ScopeId}
    (hN : ∀ node ∈ Stmt.nodesOfList ss, N node.mark.id) (hp : PlacedAll s scopes ss) :
    PlacedAll s' scopes ss := by
  match ss with
  | [] => trivial
  | st :: rest =>
    exact ⟨h.placed st (fun node hmem => hN node (by simp [Stmt.nodesOfList, hmem])) hp.1,
      h.placedAll rest (fun node hmem => hN node (by simp [Stmt.nodesOfList, hmem])) hp.2⟩

end

end Carries

namespace Change

variable {I : Nat → Prop} {C : ScopeId → Prop} {s s' : State} {id : Nat} {scopes : List ScopeId}

theorem quiet (h : Change I C s s') (hid : ¬ I id) (hq : s.Quiet id) : s'.Quiet id := by
  intro q hmem heq
  have hold := (h.pending q hmem).resolve_right fun hnew => hid (heq ▸ hnew.1)
  exact hq q hold heq

theorem carries (h : Change I C s s') : Carries (fun id => ¬ I id) s s' where
  size := h.size
  outer := h.outer
  belongs {scopes id} hid hb := by
    refine ⟨fun i hi => ?_, fun q hq hqid => ?_⟩
    · rw [(h.scope id).resolve_right fun hnew => hid hnew.1] at hi
      exact hb.1 i hi
    · have hold := (h.pending q hq).resolve_right fun hnew => hid (hqid ▸ hnew.1)
      obtain ⟨hsize, hchain⟩ := hb.2 q hold hqid
      exact ⟨Nat.lt_of_lt_of_le hsize h.size, by rw [h.chain hsize]; exact hchain⟩
  opens {i id} hid ho := by
    refine ⟨?_, h.quiet hid ho.2⟩
    rw [(h.scope id).resolve_right fun hnew => hid hnew.1]
    exact ho.1
  bodyScope {id i} hi := by
    rcases h.bodyScope id with heq | ⟨-, hnone⟩
    · rw [heq, hi]
    · simp [hi] at hnone

theorem belongs (h : Change I (· ∈ scopes) s s') (hb : s.Belongs scopes id) :
    s'.Belongs scopes id := by
  refine ⟨fun i hi => ?_, fun q hq hqid => ?_⟩
  · rcases h.scope id with hold | ⟨-, j, hj, hnew⟩
    · exact hb.1 i (hold ▸ hi)
    · rw [hnew] at hi
      exact Option.some.inj hi ▸ hj
  · rcases h.pending q hq with hold | ⟨-, hsize, hchain⟩
    · obtain ⟨hsize, hchain⟩ := hb.2 q hold hqid
      exact ⟨Nat.lt_of_lt_of_le hsize h.size, by rw [h.chain hsize]; exact hchain⟩
    · exact ⟨hsize, hchain⟩

end Change

/-- The scopes around a scope are these, and all of them are open. -/
structure Around (scopes : List ScopeId) (scope : ScopeId) (s : State) : Prop where
  size : scope < s.table.scopes.all.size
  chain : s.table.scopes.chain scope = scopes
  below : ∀ i ∈ scopes, i < s.table.scopes.all.size

/-- Some nodes belong to some scopes, and nothing is to be resolved or filed as a body for them
yet. -/
def State.Fresh (s : State) (scopes : List ScopeId) (nodes : List Node) : Prop :=
  ∀ node ∈ nodes, s.Belongs scopes node.mark.id ∧ s.Quiet node.mark.id ∧
    (s.table.attributes node.mark.id).bodyScope = none

section Around

variable {I : Nat → Prop} {C : ScopeId → Prop} {s s' : State} {scopes : List ScopeId}
  {scope : ScopeId} {nodes nodes' : List Node}

theorem Around.mono (h : Around scopes scope s) (hc : Change I C s s') : Around scopes scope s' :=
  ⟨Nat.lt_of_lt_of_le h.size hc.size, (hc.chain h.size).trans h.chain,
    fun i hi => Nat.lt_of_lt_of_le (h.below i hi) hc.size⟩

theorem Around.inside (h : Around scopes scope s) : In (· ∈ scopes) scope s :=
  ⟨h.size, fun i hi => by rwa [h.chain] at hi⟩

theorem State.Fresh.owns (h : s.Fresh scopes nodes) : s.Owns scopes nodes :=
  fun node hnode => (h node hnode).1

theorem State.Fresh.subset (h : s.Fresh scopes nodes) (hsub : nodes' ⊆ nodes) :
    s.Fresh scopes nodes' := fun node hnode => h node (hsub hnode)

theorem State.Fresh.mono (h : s.Fresh scopes nodes) (hc : Change I C s s')
    (hI : ∀ node ∈ nodes, ¬ I node.mark.id) : s'.Fresh scopes nodes := by
  intro node hnode
  obtain ⟨hbelongs, hquiet, hbody⟩ := h node hnode
  refine ⟨hc.carries.belongs (hI node hnode) hbelongs, hc.quiet (hI node hnode) hquiet, ?_⟩
  rw [(hc.bodyScope _).resolve_right fun hnew => hI node hnode hnew.1, hbody]

theorem State.Belongs.cons {id : Nat} (h : s.Belongs scopes id) (i : ScopeId) :
    s.Belongs (i :: scopes) id :=
  ⟨fun j hj => List.mem_cons_of_mem _ (h.1 j hj), fun q hq hid =>
    ⟨(h.2 q hq hid).1, fun j hj => List.mem_cons_of_mem _ ((h.2 q hq hid).2 j hj)⟩⟩

end Around

/-- All is set for a pass over some nodes in some scopes. -/
structure Ahead (F : FunctionDecl → Prop) (scopes : List ScopeId) (scope : ScopeId)
    (nodes : List Node) (s : State) : Prop where
  around : Around scopes scope s
  fresh : s.Fresh scopes nodes
  distinct : Distinct nodes
  functions : ∀ d, .statement (.function d) ∈ nodes → F d

namespace Ahead

variable {F : FunctionDecl → Prop} {I : Nat → Prop} {C : ScopeId → Prop} {s s' : State}
  {scopes : List ScopeId} {scope : ScopeId} {nodes nodes' : List Node}

theorem sublist (h : Ahead F scopes scope nodes s) (hsub : nodes'.Sublist nodes) :
    Ahead F scopes scope nodes' s where
  around := h.around
  fresh := h.fresh.subset hsub.subset
  distinct := h.distinct.sublist (hsub.map _)
  functions d hd := h.functions d (hsub.subset hd)

theorem mono (h : Ahead F scopes scope nodes s) (hc : Change I C s s')
    (hI : ∀ id, I id → ¬ Marks nodes id) : Ahead F scopes scope nodes s' where
  around := h.around.mono hc
  fresh := h.fresh.mono hc fun _ hnode hid => hI _ hid (marks_of_mem hnode)
  distinct := h.distinct
  functions := h.functions

theorem inner (h : Ahead F scopes scope nodes s) {i : ScopeId} (ha : Around (i :: scopes) i s) :
    Ahead F (i :: scopes) i nodes s where
  around := ha
  fresh node hnode := ⟨(h.fresh node hnode).1.cons i, (h.fresh node hnode).2⟩
  distinct := h.distinct
  functions := h.functions

end Ahead

namespace Does

variable {F : FunctionDecl → Prop} {I J K : Nat → Prop} {α β : Type} {s : State}
  {scopes : List ScopeId} {scope : ScopeId} {nodes nodes' : List Node}

theorem owning {x : Pass α} {P : State → α → Prop} (h : Does F I (· ∈ scopes) s x P)
    (ho : s.Owns scopes nodes) :
    Does F I (fun _ => True) s x fun s' _ => s'.Owns scopes nodes :=
  (h.weaken fun _ _ hc _ node hnode => hc.belongs (ho node hnode)).mono (fun _ h => h)
    fun _ _ => trivial

theorem plain {x : Pass α} {P : State → α → Prop} (h : Ahead F scopes scope nodes s)
    (hsub : nodes' ⊆ nodes)
    (hx : (∀ node ∈ nodes', Marks nodes node.mark.id) → Does F (Marks nodes) (· ∈ scopes) s x P) :
    Does F (Marks nodes) (fun _ => True) s x fun s' _ => s'.Owns scopes nodes' :=
  (hx fun _ hnode => marks_of_mem (hsub hnode)).owning fun node hnode =>
    (h.fresh node (hsub hnode)).1

/-- Two passes for different nodes: what the first one found out holds after the second one. -/
theorem sequence {x : Pass α} {f : α → Pass β} {P Q : State → Prop}
    (h : Ahead F scopes scope (nodes ++ nodes') s)
    (hx : Ahead F scopes scope nodes s →
      Does F (Marks nodes) (fun _ => True) s x fun s' _ => P s')
    (hP : ∀ {s₁ s₂}, Carries (Marks nodes) s₁ s₂ → P s₁ → P s₂)
    (hf : ∀ {s'} a, Ahead F scopes scope nodes' s' →
      Does F (Marks nodes') (fun _ => True) s' (f a) fun s'' _ => Q s'') :
    Does F (Marks (nodes ++ nodes')) (fun _ => True) s (x >>= f) fun s' _ => P s' ∧ Q s' := by
  have hapart := h.distinct.apart
  have hrest := h.sublist (List.sublist_append_right nodes nodes')
  have hfirst : Does F (Marks (nodes ++ nodes')) (fun _ => True) s x fun s' _ =>
      P s' ∧ Ahead F scopes scope nodes' s' :=
    ((hx (h.sublist (List.sublist_append_left ..))).weaken fun _ _ hc h =>
      ⟨h, hrest.mono hc hapart⟩)
      |>.mono (Marks.mono (List.subset_append_left ..)) fun _ h => h
  refine hfirst.bind fun s₁ a _ ⟨hp, h₁⟩ => ?_
  exact ((hf a h₁).weaken fun s₂ _ hc hq => ⟨hP (hc.carries.mono hapart) hp, hq⟩).mono
    (Marks.mono (List.subset_append_right ..)) fun _ h => h

theorem openInside {node : NodeRef} (ha : Around scopes scope s) :
    Does F (fun _ => False) (fun _ => True) s (Analysis.openScope node (some scope)) fun s' i =>
      i ∉ scopes ∧ Around (i :: scopes) i s' := by
  have hscope : ∀ i ∈ some scope, i < s.table.scopes.all.size := by
    rintro _ ⟨⟩
    exact ha.size
  refine (openScope hscope nofun).weaken ?_
  rintro s' i hc ⟨rfl, hlt, hchain, -⟩
  refine ⟨fun hmem => Nat.lt_irrefl _ (ha.below _ hmem), hlt, hchain.trans ?_, fun i hi => ?_⟩
  · exact congrArg _ ha.chain
  · rcases List.mem_cons.mp hi with rfl | hi
    · exact hlt
    · exact Nat.lt_of_lt_of_le (ha.below i hi) hc.size

theorem openBlock {m : Mark} (ha : Around scopes scope s) (hq : s.Quiet m.id) :
    Does F (· = m.id) (fun _ => True) s (openBlock m scope) fun s' i =>
      i ∉ scopes ∧ Around (i :: scopes) i s' ∧ s'.Opens i m.id := by
  have hopen : Does F (fun _ => False) (fun _ => True) s
      (Analysis.openScope ⟨.block, m⟩ (some scope)) fun s' i =>
      (i ∉ scopes ∧ Around (i :: scopes) i s') ∧ s'.Quiet m.id :=
    (openInside ha).weaken fun s₁ i hc h => ⟨h, hc.quiet (fun h => h) hq⟩
  refine (hopen.mono (fun _ h => h.elim) fun _ h => h).bind ?_
  rintro s₁ i - ⟨⟨hi, ha₁⟩, hq₁⟩
  have hset : Does F (· = m.id) (fun _ => True) s₁ (Analysis.setScope m i) fun s' _ =>
      (s'.table.attributes m.id).scope = some i ∧ Calm s₁ s' := setScope rfl trivial
  refine hset.bind fun s₂ _ hc ⟨hs, hp⟩ => pure ?_
  exact ⟨hi, ha₁.mono hc, hs, fun q hmem => hq₁ q (hp.pending ▸ hmem)⟩

theorem hoisted {ss : List Stmt} (h : Ahead F scopes scope (Stmt.nodesOfList ss) s) :
    Does F (Marks (Stmt.nodesOfList ss)) (fun _ => True) s (Analysis.hoist ss scope)
      fun s' _ => Ahead F scopes scope (Stmt.nodesOfList ss) s' := by
  have hmem : ∀ st ∈ ss, .statement st ∈ Stmt.nodesOfList ss := fun st hst =>
    Stmt.mem_nodesOfList.mpr ⟨st, hst, st.self_mem_nodes⟩
  have hhoist : Does F (Marks (Stmt.nodesOfList ss)) (· ∈ scopes) s (Analysis.hoist ss scope)
      fun s' _ => Calm s s' :=
    hoist h.around.inside.self (fun st hst => marks_of_mem (hmem st hst))
      fun f hf => h.functions f (hmem _ hf)
  refine (hhoist.weaken fun s₁ _ hc hcalm => ?_).mono (fun _ h => h) fun _ _ => trivial
  refine ⟨h.around.mono hc, fun node hnode => ?_, h.distinct, h.functions⟩
  obtain ⟨hbelongs, hquiet, hnone⟩ := h.fresh node hnode
  exact ⟨hc.belongs hbelongs, fun q hq => hquiet q (hcalm.pending ▸ hq),
    (hcalm.bodyScope _).trans hnone⟩

theorem block {m : Mark} {body : List Stmt}
    (hbody : ∀ {s : State} {inner : ScopeId},
      Ahead F (inner :: scopes) inner (Stmt.nodesOfList body) s →
      Does F (Marks (Stmt.nodesOfList body)) (fun _ => True) s (Analysis.statements body inner)
        fun s' _ => PlacedAll s' (inner :: scopes) body)
    (h : Ahead F scopes scope (Stmt.block ⟨m, body⟩).nodes s) :
    Does F (Marks (Stmt.block ⟨m, body⟩).nodes) (fun _ => True) s
      (Analysis.openBlock m scope >>= fun inner => Analysis.hoist body inner >>= fun _ =>
        Analysis.statements body inner) fun s' _ => Placed s' scopes (.block ⟨m, body⟩) := by
  have hself := h.fresh _ (Stmt.self_mem_nodes _)
  have hrest : Ahead F scopes scope (Stmt.nodesOfList body) s :=
    h.sublist (by simp [Stmt.nodes])
  have hapart : ¬ Marks (Stmt.nodesOfList body) m.id := by
    have hd : Distinct ([.statement (.block ⟨m, body⟩)] ++ Stmt.nodesOfList body) := by
      simpa [Stmt.nodes] using h.distinct
    exact hd.apart m.id ⟨_, List.mem_singleton_self _, rfl⟩
  have hopen := (openBlock (F := F) h.around hself.2.1).weaken fun s₁ i hc hi =>
    And.intro hi (hrest.mono hc (by rintro id rfl; exact hapart))
  refine (hopen.mono (fun id hid => ⟨_, Stmt.self_mem_nodes _, hid.symm⟩) fun _ h => h).bind ?_
  rintro s₁ i - ⟨⟨hi, ha₁, ho₁⟩, hrest₁⟩
  have hlist := (hoisted (hrest₁.inner ha₁)).bind fun s₂ _ _ h₂ => hbody h₂
  refine (hlist.weaken fun s₂ _ hc hp => ?_).mono (Marks.mono (by simp [Stmt.nodes])) fun _ h => h
  exact ⟨i, hc.carries.opens hapart ho₁, hi, hp⟩

theorem openBody {node : NodeRef} {m : Mark} {k : ScopeId → Pass β} {Q : State → β → Prop}
    (ha : Around scopes scope s) (hself : s.Belongs scopes m.id)
    (hnone : (s.table.attributes m.id).bodyScope = none) (hI : I m.id)
    (hk : ∀ s' b, Change (· = m.id) (fun _ => True) s s' → b ∉ scopes → Around (b :: scopes) b s' →
      (s'.table.attributes m.id).bodyScope = some b → s'.Belongs scopes m.id →
      Does F I (fun _ => True) s' (k b) Q) :
    Does F I (fun _ => True) s (Analysis.openScope node (some scope) >>= fun b =>
      Analysis.setBodyScope m b >>= fun _ => k b) Q := by
  have hopen : Does F (fun _ => False) (fun _ => True) s (Analysis.openScope node (some scope))
      fun s' b => (b ∉ scopes ∧ Around (b :: scopes) b s') ∧ s'.Belongs scopes m.id ∧
        (s'.table.attributes m.id).bodyScope = none ∧
        Change (fun _ => False) (fun _ => True) s s' :=
    (openInside ha).weaken fun s₁ b hc h => ⟨h, hc.carries.belongs (fun h => h) hself,
      ((hc.bodyScope m.id).resolve_right fun h => h.1).trans hnone, hc⟩
  refine (hopen.mono (fun _ h => h.elim) fun _ h => h).bind ?_
  rintro s₁ b - ⟨⟨hb, ha₁⟩, hself₁, hnone₁, hc₁⟩
  have hset : Does F (· = m.id) (· ∈ scopes) s₁ (Analysis.setBodyScope m b) fun s' _ =>
      (s'.table.attributes m.id).bodyScope = some b ∧ s'.Belongs scopes m.id ∧
      Change (· = m.id) (fun _ => True) s s' :=
    (setBodyScope (I := (· = m.id)) rfl hnone₁).weaken fun s₂ _ hc h => ⟨h, hc.belongs hself₁,
      (hc₁.mono (fun _ h => h.elim) fun _ h => h).trans (hc.mono (fun _ h => h) fun _ _ => trivial)⟩
  refine (hset.mono (by rintro id rfl; exact hI) fun _ _ => trivial).bind ?_
  rintro s₂ - hc ⟨hbody, hself₂, hc₂⟩
  exact hk s₂ b hc₂ hb (ha₁.mono hc) hbody hself₂

theorem signature {d : FunctionDecl} (h : Ahead F scopes scope d.head s) :
    Does F (Marks d.head) (fun _ => True) s
      (Analysis.signature d.mark d.parameters d.returnType scope) fun s' b =>
      b ∉ scopes ∧ Around (b :: scopes) b s' ∧
      (s'.table.attributes d.mark.id).bodyScope = some b ∧ s'.Belongs scopes d.mark.id := by
  have hparams : ∀ p ∈ d.parameters, .parameter p ∈ d.parameters.flatMap Parameter.nodes :=
    fun p hp => List.mem_flatMap.mpr ⟨p, hp, List.mem_cons_self⟩
  have hapart : ¬ Marks (d.parameters.flatMap Parameter.nodes) d.mark.id := by
    have hd : Distinct ([.statement (.function d)] ++ d.parameters.flatMap Parameter.nodes) :=
      h.distinct.sublist (by simp [FunctionDecl.head])
    exact hd.apart d.mark.id ⟨_, List.mem_singleton_self _, rfl⟩
  have hself : Marks d.head d.mark.id := ⟨_, List.mem_cons_self, rfl⟩
  have hahead : ∀ {α : Type} {s : State} {x : Pass α}, Ahead F scopes scope d.head s →
      Does F (fun _ => False) (fun _ => True) s x (fun _ _ => True) →
      Does F (Marks d.head) (fun _ => True) s x fun s' _ => Ahead F scopes scope d.head s' :=
    fun h hx => (hx.weaken fun s₁ _ hc _ => h.mono hc fun _ h => h.elim).mono (fun _ h => h.elim)
      fun _ h => h
  refine (hahead h functionType).bind fun s₀ _ _ h₀ => ?_
  refine (hahead h₀ setType).bind fun s₁ _ _ h₁ => ?_
  obtain ⟨hbelongs, -, hnone⟩ := h₁.fresh _ List.mem_cons_self
  refine openBody h₁.around hbelongs hnone hself fun s₂ b _ hb ha₂ hbody₂ hself₂ => ?_
  have hbound : Does F (Marks (d.parameters.flatMap Parameter.nodes)) (· ∈ b :: scopes) s₂
      (Functor.discard (Analysis.parameters d.parameters b)) fun s' _ => Around (b :: scopes) b s' ∧
        (s'.table.attributes d.mark.id).bodyScope = some b ∧ s'.Belongs scopes d.mark.id :=
    (parameters ha₂.inside fun p hp => marks_of_mem (hparams p hp)).discard.weaken
      fun s₃ _ hc _ => ⟨ha₂.mono hc, hc.carries.bodyScope hbody₂, hc.carries.belongs hapart hself₂⟩
  refine (hbound.mono (Marks.mono fun node hnode => ?_) fun _ _ => trivial).bind
    fun s₃ _ _ h₃ => pure ⟨hb, h₃⟩
  exact List.mem_cons_of_mem _ (List.mem_append_left _ hnode)

theorem function {d : FunctionDecl}
    (hbody : ∀ {s : State} {outer inner : ScopeId},
      Ahead F (inner :: outer :: scopes) inner (Stmt.nodesOfList d.body.statements) s →
      Does F (Marks (Stmt.nodesOfList d.body.statements)) (fun _ => True) s
        (Analysis.statements d.body.statements inner)
        fun s' _ => PlacedAll s' (inner :: outer :: scopes) d.body.statements)
    (h : Ahead F scopes scope (Stmt.function d).nodes s) :
    Does F (Marks (Stmt.function d).nodes) (fun _ => True) s
      (Analysis.signature d.mark d.parameters d.returnType scope >>= fun outer =>
        Analysis.openBlock d.body.mark outer >>= fun inner =>
          Analysis.hoist d.body.statements inner >>= fun _ =>
            Analysis.statements d.body.statements inner)
      fun s' _ => Placed s' scopes (.function d) := by
  obtain ⟨m, name, params, returnType, ⟨bodyMark, body⟩⟩ := d
  rw [Stmt.nodes_function] at h ⊢
  have hapart := h.distinct.apart
  have hhead := h.sublist (List.sublist_append_left ..)
  have hblock := h.sublist (List.sublist_append_right ..)
  have hsignature := (signature hhead).weaken fun s₁ b hc h₁ =>
    And.intro h₁ (hblock.mono hc hapart)
  refine (hsignature.mono (Marks.mono (List.subset_append_left ..)) fun _ h => h).bind ?_
  rintro s₁ b - ⟨⟨hb, ha₁, hbody₁, hself₁⟩, hblock₁⟩
  refine ((block hbody (hblock₁.inner ha₁)).weaken fun s₂ _ hc hplaced => ?_).mono
    (Marks.mono (List.subset_append_right ..)) fun _ h => h
  have ha₂ := ha₁.mono hc
  obtain ⟨i, hi, hfresh, hrest⟩ := hplaced
  exact ⟨hc.carries.belongs (hapart _ ⟨_, List.mem_cons_self, rfl⟩) hself₁, b,
    hc.carries.bodyScope hbody₁, ha₂.size, hb, (List.cons.inj ha₂.chain).2, i, hi, hfresh, hrest⟩

end Does

/-- The scope of a rule's body is open, and the rule and its body belong where they should. -/
structure Opened (d : RuleDecl) (scopes : List ScopeId) (scope body : ScopeId) (s : State) :
    Prop where
  around : Around scopes scope s
  inner : Around (body :: scopes) body s
  filed : (s.table.attributes d.mark.id).bodyScope = some body
  belongs : s.Belongs scopes d.mark.id
  owns : s.Owns (body :: scopes) d.body.nodes

theorem Opened.mono {I : Nat → Prop} {C : ScopeId → Prop} {d : RuleDecl} {scopes : List ScopeId}
    {scope body : ScopeId} {s s' : State} (h : Opened d scopes scope body s) (hc : Change I C s s')
    (hbelongs : s'.Belongs scopes d.mark.id) (howns : s'.Owns (body :: scopes) d.body.nodes) :
    Opened d scopes scope body s' :=
  ⟨h.around.mono hc, h.inner.mono hc, hc.carries.bodyScope h.filed, hbelongs, howns⟩

namespace Does

variable {F : FunctionDecl → Prop} {s : State} {scopes : List ScopeId} {scope : ScopeId}

theorem rule {d : RuleDecl} (h : Ahead F scopes scope (Stmt.rule d).nodes s) :
    Does F (Marks (Stmt.rule d).nodes) (fun _ => True) s (Analysis.rule d scope)
      fun s' _ => Placed s' scopes (.rule d) := by
  let params := d.parameters.flatMap Parameter.nodes
  have hnodes : (Stmt.rule d).nodes = [.statement (.rule d)] ++ (params ++ d.body.nodes) := by
    simp [Stmt.nodes, RuleDecl.nodes, params]
  have hself : Marks (Stmt.rule d).nodes d.mark.id := marks_of_mem (Stmt.self_mem_nodes (.rule d))
  have hparams : ∀ p ∈ d.parameters, Marks params p.mark.id := fun p hp =>
    ⟨.parameter p, List.mem_flatMap.mpr ⟨p, hp, List.mem_cons_self⟩, rfl⟩
  have hapart : ¬ Marks (params ++ d.body.nodes) d.mark.id := by
    have hd := h.distinct
    rw [hnodes] at hd
    exact hd.apart d.mark.id ⟨_, List.mem_singleton_self _, rfl⟩
  have hapartParams : ¬ Marks params d.mark.id := fun hm =>
    hapart (Marks.mono (List.subset_append_left ..) _ hm)
  have hapartBody : ¬ Marks d.body.nodes d.mark.id := fun hm =>
    hapart (Marks.mono (List.subset_append_right ..) _ hm)
  have hdisjoint : ∀ node ∈ d.body.nodes, node.mark.id ≠ d.mark.id := fun node hnode heq =>
    hapartBody ⟨node, hnode, heq⟩
  have hrule := h.fresh _ (Stmt.self_mem_nodes (.rule d))
  have hbody : s.Owns scopes d.body.nodes := fun node hnode =>
    (h.fresh node (by simp [hnodes, hnode])).1
  refine openBody h.around hrule.1 hrule.2.2 hself fun s₁ b hc₁ hb ha₁ hbody₁ hself₁ => ?_
  have ho₁ : Opened d scopes scope b s₁ := ⟨h.around.mono hc₁, ha₁, hbody₁, hself₁,
    fun node hnode => (hc₁.carries.belongs (hdisjoint node hnode) (hbody node hnode)).cons b⟩
  have hbound : Does F (Marks params) (· ∈ b :: scopes) s₁ (Analysis.parameters d.parameters b)
      fun s' _ => Opened d scopes scope b s' :=
    (parameters ho₁.inner.inside hparams).weaken fun s₂ _ hc _ => ho₁.mono hc
      (hc.carries.belongs hapartParams ho₁.belongs)
      fun node hnode => hc.belongs (ho₁.owns node hnode)
  refine (hbound.mono (Marks.mono (by simp [hnodes])) fun _ _ => trivial).bind
    fun s₂ types _ ho₂ => ?_
  have hpredicate : Does F (· = d.mark.id) (· ∈ scopes) s₂
      (Analysis.predicate (.rule d.mark d.functor) d.mark d.functor types scope)
      fun s' _ => Opened d scopes scope b s' :=
    (predicate (I := (· = d.mark.id)) ⟨rfl, by rintro ⟨⟩, by rintro f ⟨⟩⟩ ho₂.around.inside rfl).weaken
      fun s₃ _ hc _ => ho₂.mono hc (hc.belongs ho₂.belongs) fun node hnode =>
        hc.carries.belongs (hdisjoint node hnode) (ho₂.owns node hnode)
  refine (hpredicate.mono (by rintro id rfl; exact hself) fun _ _ => trivial).bind
    fun s₃ _ _ ho₃ => ?_
  have hlogic : Does F (Marks d.body.nodes) (· ∈ b :: scopes) s₃
      (Functor.discard (Analysis.logic d.body b)) fun s' _ => Opened d scopes scope b s' :=
    (logic d.body ho₃.inner.inside fun node hnode => marks_of_mem hnode).discard.weaken
      fun s₄ _ hc _ => ho₃.mono hc (hc.carries.belongs hapartBody ho₃.belongs)
        fun node hnode => hc.belongs (ho₃.owns node hnode)
  refine (hlogic.weaken fun s₄ _ _ ho₄ => ?_).mono (Marks.mono (by simp [hnodes]))
    fun _ _ => trivial
  exact ⟨ho₄.belongs, b, ho₄.filed, hb, ho₄.owns⟩

theorem guarded {e : Expr} {nodes : List Node} {x : Pass Unit} {Q : State → Prop}
    (h : Ahead F scopes scope (e.nodes ++ nodes) s)
    (hx : ∀ {s'}, Ahead F scopes scope nodes s' →
      Does F (Marks nodes) (fun _ => True) s' x fun s'' _ => Q s'') :
    Does F (Marks (e.nodes ++ nodes)) (fun _ => True) s
      (Functor.discard (Analysis.expression e scope) >>= fun _ => x)
      fun s' _ => s'.Owns scopes e.nodes ∧ Q s' :=
  sequence h (fun h => plain h (List.Subset.refl _) fun hI =>
    (expression e h.around.inside hI).discard)
    (fun hc ho => hc.owns (fun _ hnode => marks_of_mem hnode) ho) fun _ => hx

theorem tail {x : Pass Unit} {Q : State → Prop} {node : Node} {nodes : List Node}
    (h : Ahead F scopes scope (node :: nodes) s)
    (hx : Ahead F scopes scope nodes s →
      Does F (Marks nodes) (fun _ => True) s x fun s' _ => Q s') :
    Does F (Marks (node :: nodes)) (fun _ => True) s x fun s' _ => Q s' :=
  (hx (h.sublist (List.sublist_cons_self ..))).mono (Marks.mono (List.subset_cons_self ..))
    fun _ h => h

mutual

/-- After the pass over a statement it is placed. -/
theorem statement (st : Stmt) {s : State} {scopes : List ScopeId} {scope : ScopeId}
    (h : Ahead F scopes scope st.nodes s) :
    Does F (Marks st.nodes) (fun _ => True) s (Analysis.statement st scope)
      fun s' _ => Placed s' scopes st := by
  have hin := h.around.inside
  match st with
  | .block ⟨m, body⟩ => exact block (fun h => statements body h) h
  | .function ⟨m, name, params, returnType, ⟨block, body⟩⟩ =>
    exact function (fun h => statements body h) h
  | .rule d => exact rule h
  | .cond m condition yes none => exact tail h fun h => guarded h fun h => statement yes h
  | .cond m condition yes (some no) =>
    rw [Stmt.nodes, List.append_assoc] at h ⊢
    exact tail h fun h => guarded h fun h => sequence h (fun h => statement yes h)
      (fun hc hp => hc.placed yes (fun _ hnode => marks_of_mem hnode) hp) fun _ h => statement no h
  | .loop m condition body => exact tail h fun h => guarded h fun h => statement body h
  | .expr m e => exact plain h (by simp [Stmt.nodes]) fun hI => (expression e hin hI).discard
  | .var d => exact plain h (by simp [Stmt.nodes]) fun hI => varDecl hin hI
  | .struct d => exact plain h (by simp [Stmt.nodes]) fun _ => setType.next fun _ => fields
  | .ret m none => exact pure trivial
  | .ret m (some e) =>
    exact plain h (by simp [Stmt.nodes]) fun hI => (expression e hin hI).discard
  | .atom d =>
    exact plain h (by simp [Stmt.nodes]) fun hI => atom hin (hI _ (List.mem_singleton_self _))
  | .fact d => exact plain h (by simp [Stmt.nodes]) fun hI => fact hin hI
  | .unify m left right =>
    refine plain (P := fun _ _ => True) h (by simp [Stmt.nodes]) fun hI => ?_
    have hl : ∀ node ∈ left.goal.nodes, Marks (Stmt.unify m left right).nodes node.mark.id :=
      fun node hnode => hI node (List.mem_cons_of_mem _ (List.mem_append_left _ hnode))
    have hr : ∀ node ∈ right.goal.nodes, Marks (Stmt.unify m left right).nodes node.mark.id :=
      fun node hnode => hI node (List.mem_cons_of_mem _ (List.mem_append_right _ hnode))
    exact (logic left.goal hin hl).discard.bind fun s₁ _ hc _ =>
      (logic right.goal (hin.mono hc) hr).discard

theorem statements (ss : List Stmt) {s : State} {scopes : List ScopeId} {scope : ScopeId}
    (h : Ahead F scopes scope (Stmt.nodesOfList ss) s) :
    Does F (Marks (Stmt.nodesOfList ss)) (fun _ => True) s (Analysis.statements ss scope)
      fun s' _ => PlacedAll s' scopes ss := by
  match ss with
  | [] => exact pure trivial
  | st :: rest =>
    exact sequence h (fun h => statement st h)
      (fun hc hp => hc.placed st (fun _ hnode => marks_of_mem hnode) hp)
      fun _ h => statements rest h

end

theorem settle {q : Pending} :
    Does F (· = q.mark.id) (· ∈ s.table.scopes.chain q.scope) s (Analysis.settle q)
      fun s' _ => Calm s s' := by
  refine find.bind ?_
  rintro s₁ found - ⟨rfl, hfound⟩
  cases found with
  | none => exact pure (.refl s₁)
  | some pair =>
    obtain ⟨d, owner⟩ := pair
    obtain ⟨howner, hd⟩ := hfound d owner rfl
    have hfile : Does F (· = q.mark.id) (· ∈ s₁.table.scopes.chain q.scope) s₁
        (Analysis.setDecl q.mark d >>= fun _ => Analysis.setScope q.mark owner)
        fun s' _ => Calm s₁ s' :=
      (setDecl hd).bind fun s₂ _ _ h₂ =>
        (setScope (I := (· = q.mark.id)) rfl howner).weaken fun s₃ _ _ h₃ => h₂.trans h₃.2
    dsimp only
    split
    all_goals
      split
      · exact hfile
      · exact pure (.refl s₁)

theorem enterAll (scope : ScopeId) {ds : List Decl} (hds : ∀ d ∈ ds, Suits F d.name d) :
    Does F (fun _ => False) (fun _ => True) s (Analysis.enterAll scope ds) fun _ _ => True := by
  induction ds generalizing s with
  | nil => exact pure trivial
  | cons d ds ih =>
    exact (enter (hds d List.mem_cons_self)).discard.next fun _ =>
      ih fun d hd => hds d (List.mem_cons_of_mem _ hd)

end Does

theorem Carries.trans {N : Nat → Prop} {s s' s'' : State} (h : Carries N s s')
    (h' : Carries N s' s'') : Carries N s s'' where
  size := Nat.le_trans h.size h'.size
  outer i hi := (h'.outer i (Nat.lt_of_lt_of_le hi h.size)).trans (h.outer i hi)
  belongs hid hb := h'.belongs hid (h.belongs hid hb)
  opens hid ho := h'.opens hid (h.opens hid ho)
  bodyScope hi := h'.bodyScope (h.bodyScope hi)

/-- What is known about a node already takes into account how its name will be resolved. -/
theorem Change.settled {q : Pending} {s s' : State}
    (h : Change (· = q.mark.id) (· ∈ s.table.scopes.chain q.scope) s s') (hcalm : Calm s s')
    (hq : q ∈ s.pending) : Carries (fun _ => True) s s' where
  size := h.size
  outer := h.outer
  belongs {scopes id} _ hb := by
    refine ⟨fun i hi => ?_, fun r hr hid => ?_⟩
    · rcases h.scope id with hold | ⟨rfl, j, hj, hnew⟩
      · exact hb.1 i (hold ▸ hi)
      · rw [hnew] at hi
        cases hi
        exact (hb.2 q hq rfl).2 _ hj
    · rw [hcalm.pending] at hr
      obtain ⟨hsize, hchain⟩ := hb.2 r hr hid
      exact ⟨Nat.lt_of_lt_of_le hsize h.size, by rw [h.chain hsize]; exact hchain⟩
  opens {i id} _ ho := h.carries.opens (fun hid => ho.2 q hq hid.symm) ho
  bodyScope hi := h.carries.bodyScope hi

theorem Does.settleAll {F : FunctionDecl → Prop} {qs : List Pending} {s : State}
    (hqs : ∀ q ∈ qs, q ∈ s.pending) :
    Does F (fun _ => True) (fun _ => True) s (Analysis.settleAll qs)
      fun s' _ => Carries (fun _ => True) s s' := by
  induction qs generalizing s with
  | nil => exact pure ⟨Nat.le_refl _, fun _ _ => rfl, fun _ h => h, fun _ h => h, fun h => h⟩
  | cons q qs ih =>
    have hq := hqs q List.mem_cons_self
    have hsettle := (Does.settle (F := F)).weaken fun s₁ _ hc hcalm =>
      And.intro hcalm (hc.settled hcalm hq)
    refine (hsettle.mono (fun _ _ => trivial) fun _ _ => trivial).bind ?_
    rintro s₁ - - ⟨hcalm, hcarries⟩
    refine (ih fun q hq => ?_).weaken fun s₂ _ _ h => hcarries.trans h
    rw [hcalm.pending]
    exact hqs q (List.mem_cons_of_mem _ hq)

theorem sound_empty (F : FunctionDecl → Prop) : ({} : State).Sound F where
  outer i j hj := (List.not_mem_nil hj).elim
  first i hi := absurd hi (Nat.not_lt_zero i)
  nested i j below above h := by
    have hempty : (({} : State).table.scopes.get i).outer = [] := rfl
    simp [hempty] at h
  pending q hq := (List.not_mem_nil hq).elim
  declared i name f hf := by
    have hempty : (({} : State).table.scopes.get i).declared = ∅ := rfl
    simp [hempty] at hf
  decl id f hf := by cases hf

theorem fresh_empty (scopes : List ScopeId) (nodes : List Node) : ({} : State).Fresh scopes nodes :=
  fun node _ => ⟨⟨(by rintro i ⟨⟩), fun q hq => (List.not_mem_nil hq).elim⟩,
    fun q hq => (List.not_mem_nil hq).elim, rfl⟩

theorem Does.openRoot {F : FunctionDecl → Prop} {node : NodeRef} :
    Does F (fun _ => False) (fun _ => True) {} (Analysis.openScope node none) fun s' i =>
      i = 0 ∧ Around [0] 0 s' := by
  refine (openScope (by rintro _ ⟨⟩) fun _ => rfl).weaken ?_
  rintro s₁ i hc ⟨hi, hsize, hchain, -⟩
  have hi : i = 0 := hi
  subst hi
  refine ⟨rfl, hsize, hchain, fun i hi => ?_⟩
  rw [List.mem_singleton.mp hi]
  exact hsize

end Analysis

/-- The function that a node declares. -/
def Node.function? : Node → Option FunctionDecl
  | .statement (.function d) => some d
  | _ => none

/-- The functions that a program declares anywhere. -/
def Program.functions (p : Program) : List FunctionDecl := p.nodes.filterMap Node.function?

theorem Program.mem_functions {p : Program} {d : FunctionDecl} :
    d ∈ p.functions ↔ .statement (.function d) ∈ p.nodes := by
  have hnode : ∀ node : Node, node.function? = some d ↔ node = .statement (.function d) := by
    intro node
    unfold Node.function?
    split
    · simp
    · rename_i hother
      simpa using fun h => hother d h
  simp [functions, hnode]

namespace Analysis

theorem Does.program {p : Program} (hp : p.Numbered) :
    Does (· ∈ p.functions) (fun _ => True) (fun _ => True) {} (Analysis.program p) fun s' _ =>
      (s'.table.attributes p.mark.id).scope = some 0 ∧ PlacedAll s' [0] p.statements := by
  have hd : Distinct ([.program p] ++ Stmt.nodesOfList p.statements) := hp
  have hapart : ¬ Marks (Stmt.nodesOfList p.statements) p.mark.id :=
    hd.apart p.mark.id ⟨_, List.mem_singleton_self _, rfl⟩
  have hbuiltins : ∀ d ∈ builtins, Suits (· ∈ p.functions) d.name d := by
    refine fun d hmem => ⟨rfl, fun _ => hmem, ?_⟩
    rintro f rfl
    simp [builtins] at hmem
  have hdistinct : Distinct (Stmt.nodesOfList p.statements) := (List.nodup_cons.mp hp).2
  have hopen : Does (· ∈ p.functions) (fun _ => False) (fun _ => True) {}
      (Analysis.openScope ⟨.root, p.mark⟩ none) fun s' i => i = 0 ∧ s'.Quiet p.mark.id ∧
      Ahead (· ∈ p.functions) [0] 0 (Stmt.nodesOfList p.statements) s' := by
    refine openRoot.weaken fun s₁ i hc ⟨hi, ha⟩ => ⟨hi, hc.quiet (fun h => h) ?_, ha,
      (fresh_empty _ _).mono hc fun _ _ h => h, hdistinct,
      fun d hd => Program.mem_functions.mpr (List.mem_cons_of_mem _ hd)⟩
    exact fun q hq => (List.not_mem_nil hq).elim
  refine (hopen.mono (fun _ h => h.elim) fun _ h => h).bind ?_
  rintro s₁ root - ⟨rfl, hquiet, h₁⟩
  have hset : Does (· ∈ p.functions) (· = p.mark.id) (fun _ => True) s₁ (Analysis.setScope p.mark 0)
      fun s' _ => s'.Opens 0 p.mark.id ∧
        Ahead (· ∈ p.functions) [0] 0 (Stmt.nodesOfList p.statements) s' :=
    (setScope (I := (· = p.mark.id)) rfl trivial).weaken fun s₂ _ hc h =>
      ⟨⟨h.1, fun q hq => hquiet q (h.2.pending ▸ hq)⟩,
        h₁.mono hc (by rintro id rfl; exact hapart)⟩
  refine (hset.mono (fun _ _ => trivial) fun _ h => h).bind ?_
  rintro s₂ - - ⟨ho₂, h₂⟩
  have henter := (enterAll (F := (· ∈ p.functions)) (s := s₂) 0 hbuiltins).weaken fun s₃ _ hc _ =>
    And.intro (hc.carries.opens (fun h => h) ho₂) (h₂.mono hc fun _ h => h.elim)
  refine (henter.mono (fun _ _ => trivial) fun _ h => h).bind ?_
  rintro s₃ - - ⟨ho₃, h₃⟩
  have hhoist := (hoisted h₃).weaken fun s₄ _ hc h => And.intro (hc.carries.opens hapart ho₃) h
  refine (hhoist.mono (fun _ _ => trivial) fun _ h => h).bind ?_
  rintro s₄ - - ⟨ho₄, h₄⟩
  have hwalk := (statements p.statements h₄).weaken fun s₅ _ hc h =>
    And.intro (hc.carries.opens hapart ho₄) h
  refine (hwalk.mono (fun _ _ => trivial) fun _ h => h).bind ?_
  rintro s₅ - - ⟨ho₅, h₅⟩
  refine get.bind ?_
  rintro s₆ a - ⟨rfl, rfl⟩
  refine (settleAll fun _ h => h).weaken fun s₇ _ _ hcarries => ?_
  exact ⟨(hcarries.opens trivial ho₅).1, hcarries.placedAll p.statements (fun _ _ => trivial) h₅⟩

mutual

/-- A function is placed where it stands, inside the scopes around the statement it is part of. -/
theorem placed_function {s : State} {d : FunctionDecl} (st : Stmt) {scopes : List ScopeId}
    (hp : Placed s scopes st) (hd : .statement (.function d) ∈ st.nodes) :
    (Stmt.function d).nodes ⊆ st.nodes ∧
      ∃ around, scopes ⊆ around ∧ Placed s around (.function d) := by
  match st with
  | .block ⟨m, body⟩ =>
    obtain ⟨i, -, -, hbody⟩ := hp
    obtain ⟨hnodes, around, hsub, h⟩ :=
      placedAll_function body hbody (by simpa [Stmt.nodes] using hd)
    exact ⟨List.subset_cons_of_subset _ hnodes, around,
      List.Subset.trans (List.subset_cons_self ..) hsub, h⟩
  | .function ⟨m, name, params, returnType, ⟨block, body⟩⟩ =>
    rw [Stmt.nodes_function] at hd
    rcases List.mem_append.mp hd with hhead | hblock
    · have heq : d = ⟨m, name, params, returnType, ⟨block, body⟩⟩ := by
        simpa [FunctionDecl.head, Parameter.statement_not_mem_nodes,
          TypeExpr.statement_not_mem_option] using hhead
      subst heq
      exact ⟨List.Subset.refl _, scopes, List.Subset.refl _, hp⟩
    · obtain ⟨-, b, -, -, -, -, i, -, -, hbody⟩ := hp
      obtain ⟨hnodes, around, hsub, h⟩ :=
        placedAll_function body hbody (by simpa [Stmt.nodes] using hblock)
      refine ⟨?_, around,
        fun i hi => hsub (List.mem_cons_of_mem _ (List.mem_cons_of_mem _ hi)), h⟩
      rw [Stmt.nodes_function ⟨m, name, params, returnType, ⟨block, body⟩⟩]
      exact List.subset_append_of_subset_right _ (List.subset_cons_of_subset _ hnodes)
  | .cond m condition yes none =>
    obtain ⟨hnodes, h⟩ := placed_function yes hp.2
      (by simpa [Stmt.nodes, condition.statement_not_mem_nodes] using hd)
    exact ⟨List.Subset.trans hnodes fun node hnode => by simp [Stmt.nodes, hnode], h⟩
  | .cond m condition yes (some no) =>
    have hbranch : .statement (.function d) ∈ yes.nodes ∨ .statement (.function d) ∈ no.nodes := by
      simpa [Stmt.nodes, condition.statement_not_mem_nodes] using hd
    rcases hbranch with hyes | hno
    · obtain ⟨hnodes, h⟩ := placed_function yes hp.2.1 hyes
      exact ⟨List.Subset.trans hnodes fun node hnode => by simp [Stmt.nodes, hnode], h⟩
    · obtain ⟨hnodes, h⟩ := placed_function no hp.2.2 hno
      exact ⟨List.Subset.trans hnodes fun node hnode => by simp [Stmt.nodes, hnode], h⟩
  | .loop m condition body =>
    obtain ⟨hnodes, h⟩ := placed_function body hp.2
      (by simpa [Stmt.nodes, condition.statement_not_mem_nodes] using hd)
    exact ⟨List.Subset.trans hnodes fun node hnode => by simp [Stmt.nodes, hnode], h⟩
  | .rule d' =>
    simp [Stmt.nodes, RuleDecl.nodes, Parameter.statement_not_mem_nodes,
      Goal.statement_not_mem_nodes] at hd
  | .expr m e => simp [Stmt.nodes, e.statement_not_mem_nodes] at hd
  | .var d' =>
    simp [Stmt.nodes, VarDecl.nodes, TypeExpr.statement_not_mem_option,
      Expr.statement_not_mem_option] at hd
  | .struct d' =>
    simp [Stmt.nodes, StructDecl.nodes, FieldDecl.nodes, TypeExpr.statement_not_mem_nodes] at hd
  | .ret m none => simp [Stmt.nodes] at hd
  | .ret m (some e) => simp [Stmt.nodes, e.statement_not_mem_nodes] at hd
  | .atom d' => simp [Stmt.nodes] at hd
  | .fact d' => simp [Stmt.nodes, FactDecl.nodes, Expr.statement_not_mem_nodesOfList] at hd
  | .unify m left right => simp [Stmt.nodes, Goal.statement_not_mem_nodes] at hd

theorem placedAll_function {s : State} {d : FunctionDecl} (ss : List Stmt) {scopes : List ScopeId}
    (hp : PlacedAll s scopes ss) (hd : .statement (.function d) ∈ Stmt.nodesOfList ss) :
    (Stmt.function d).nodes ⊆ Stmt.nodesOfList ss ∧
      ∃ around, scopes ⊆ around ∧ Placed s around (.function d) := by
  match ss with
  | [] => simp [Stmt.nodesOfList] at hd
  | st :: rest =>
    rcases List.mem_append.mp hd with hst | hrest
    · obtain ⟨hnodes, h⟩ := placed_function st hp.1 hst
      exact ⟨List.subset_append_of_subset_left _ hnodes, h⟩
    · obtain ⟨hnodes, h⟩ := placedAll_function rest hp.2 hrest
      exact ⟨List.subset_append_of_subset_right _ hnodes, h⟩

end

section Parts

variable {s : State} {scopes : List ScopeId} {st st' : Stmt} {e : Expr}

theorem State.Owns.subset {nodes nodes' : List Node} (h : s.Owns scopes nodes)
    (hsub : nodes' ⊆ nodes) : s.Owns scopes nodes' := fun node hnode => h node (hsub hnode)

theorem Placed.parts (hp : Placed s scopes st) (he : e ∈ st.parts) : s.Owns scopes e.nodes := by
  cases st <;> simp only [Stmt.parts, List.mem_cons, List.not_mem_nil, or_false] at he
  case expr m e' => subst he; exact hp
  case var d => exact State.Owns.subset hp (Stmt.nodes_parts (s := .var d) he)
  case cond m condition yes no =>
    subst he
    cases no with
    | none => exact hp.1
    | some no => exact hp.1
  case ret m value =>
    cases value with
    | none => simp at he
    | some e' =>
      simp only [Option.toList_some, List.mem_singleton] at he
      subst he
      exact hp
  case fact d => exact State.Owns.subset hp (Stmt.nodes_parts (s := .fact d) he)
  case unify m left right =>
    refine State.Owns.subset hp fun node hnode => ?_
    rcases List.mem_append.mp he with hl | hr
    · exact List.mem_cons_of_mem _ (List.mem_append_left _ (Goal.nodes_arguments hl hnode))
    · exact List.mem_cons_of_mem _ (List.mem_append_right _ (Goal.nodes_arguments hr hnode))

theorem Placed.branches (hp : Placed s scopes st) (hst : st' ∈ st.branches) :
    Placed s scopes st' := by
  cases st <;> simp only [Stmt.branches, List.mem_cons, List.not_mem_nil] at hst
  case cond m condition yes no =>
    cases no with
    | none =>
      rcases hst with rfl | hst
      · exact hp.2
      · cases hst
    | some no =>
      rcases hst with rfl | hst
      · exact hp.2.1
      · rw [List.mem_singleton.mp hst]
        exact hp.2.2

theorem Placed.slots {node : NodeRef} (hp : Placed s scopes st) (hnode : node ∈ st.slots) :
    s.Belongs scopes node.mark.id := by
  rcases Stmt.slots_cases hnode with heq | ⟨e, he, heq⟩
  · rw [heq]
    cases st <;> simp only [Stmt.slots, List.mem_cons, List.not_mem_nil] at hnode
    case var d => exact hp _ (Stmt.self_mem_nodes (.var d))
    case function d =>
      obtain ⟨m, name, params, returnType, ⟨block, body⟩⟩ := d
      exact hp.1
    case struct d => exact hp _ (Stmt.self_mem_nodes (.struct d))
    case atom d => exact hp _ (List.mem_singleton_self _)
    case fact d => exact hp _ (Stmt.self_mem_nodes (.fact d))
    case rule d => exact hp.1
    case unify m left right => exact hp _ List.mem_cons_self
  · rw [heq]
    exact hp.parts he _ e.self_mem_nodes

theorem Placed.of_mem {ss : List Stmt} (hp : PlacedAll s scopes ss) (hst : st ∈ ss) :
    Placed s scopes st := by
  induction ss with
  | nil => cases hst
  | cons st' rest ih =>
    rcases List.mem_cons.mp hst with rfl | hst
    · exact hp.1
    · exact ih hp.2 hst

end Parts

end Analysis
end LogicScript
