import LogicScript.Analysis
import LogicScript.Proofs.Parts

/-! What a pass of the analysis does to the attributes and scopes.

A pass works for some nodes in some scopes. It files scopes for these nodes only, and only these
scopes; what was filed for other nodes stays, and so do the scopes that were opened before. -/
namespace LogicScript

namespace Scopes

variable {s : Scopes} {i j : ScopeId} {name : String} {d : Decl}

theorem get_push (opener : Option NodeRef) (parent : Option ScopeId) (i : ScopeId) :
    (s.push opener parent).2.get i =
      if i = s.all.size then ⟨opener, (parent.map s.chain).getD [], ∅⟩ else s.get i := by
  unfold push get
  simp only [Array.getD_eq_getD_getElem?, Array.getElem?_push]
  split <;> rfl

theorem outer_declare (i j : ScopeId) (name : String) (d : Decl) :
    ((s.declare i name d).2.get j).outer = (s.get j).outer := by
  unfold declare
  split
  · rfl
  · unfold get
    simp only [Array.getD_eq_getD_getElem?, Array.getElem?_modify]
    by_cases hij : i = j
    · subst hij
      cases s.all[i]? <;> simp
    · simp [hij]

theorem size_declare (i : ScopeId) (name : String) (d : Decl) :
    (s.declare i name d).2.all.size = s.all.size := by
  unfold declare
  split
  · rfl
  · simp

theorem declared_declare {other : String} {e : Decl}
    (h : ((s.declare i name d).2.get j).declared.get? other = some e) :
    (s.get j).declared.get? other = some e ∨ other = name ∧ e = d := by
  unfold declare at h
  split at h
  · exact .inl h
  · unfold get at h ⊢
    simp only [Array.getD_eq_getD_getElem?, Array.getElem?_modify] at h ⊢
    by_cases hij : i = j
    · subst hij
      cases hi : s.all[i]? with
      | none => simp [hi] at h ⊢; exact .inl h
      | some scope =>
        simp only [hi, if_true, Option.map_some, Option.getD_some] at h ⊢
        by_cases hn : other = name
        · subst hn
          rw [Bindings.get?_set_self] at h
          exact .inr ⟨rfl, (Option.some.inj h).symm⟩
        · rw [Bindings.get?_set_ne _ _ hn] at h
          exact .inl h
    · simp only [hij, if_false] at h
      exact .inl h

theorem findIn_some {scopes : List ScopeId} (h : s.findIn name scopes = some (d, j)) :
    j ∈ scopes ∧ (s.get j).declared.get? name = some d := by
  induction scopes with
  | nil => simp [findIn] at h
  | cons i rest ih =>
    unfold findIn at h
    split at h
    · cases h
      exact ⟨List.mem_cons_self, ‹_›⟩
    · obtain ⟨hmem, hd⟩ := ih h
      exact ⟨List.mem_cons_of_mem _ hmem, hd⟩

/-- A scope that lies around another one has the same scopes around it as there. -/
def Nested (s : Scopes) : Prop :=
  ∀ i j below above, (s.get i).outer = below ++ j :: above → (s.get j).outer = above

theorem lt_size_of_outer {below above : List ScopeId} (h : (s.get i).outer = below ++ j :: above) :
    i < s.all.size := by
  refine Nat.lt_of_not_le fun hi => ?_
  have hnone : s.get i = default := by
    rw [get, Array.getD_eq_getD_getElem?, Array.getElem?_eq_none hi, Option.getD_none]
  rw [hnone] at h
  exact absurd h.symm (List.append_ne_nil_of_right_ne_nil _ (by simp))

theorem Nested.push {opener : Option NodeRef} {parent : Option ScopeId} (hs : s.Nested)
    (houter : ∀ i, ∀ j ∈ (s.get i).outer, j < i) (hparent : ∀ i ∈ parent, i < s.all.size) :
    (s.push opener parent).2.Nested := by
  have hkept : ∀ i, i < s.all.size → ((s.push opener parent).2.get i).outer = (s.get i).outer :=
    fun i hi => by rw [get_push, if_neg (Nat.ne_of_lt hi)]
  intro i j below above hi
  rw [get_push] at hi
  split at hi
  · cases parent with
    | none => exact absurd hi.symm (List.append_ne_nil_of_right_ne_nil _ (by simp))
    | some scope =>
      have hscope := hparent scope rfl
      rcases List.cons_eq_append_iff.mp hi with ⟨-, heq⟩ | ⟨below, -, heq⟩
      · cases heq
        exact hkept _ hscope
      · have hj : j < scope := houter scope j (by rw [heq]; simp)
        exact (hkept j (Nat.lt_trans hj hscope)).trans (hs scope j below above heq)
  · have hj : j < i := houter i j (by rw [hi]; simp)
    exact (hkept j (Nat.lt_trans hj (lt_size_of_outer hi))).trans (hs i j below above hi)

theorem Nested.outer_root (hs : s.Nested) (i : ScopeId) : (s.get (s.root i)).outer = [] := by
  unfold root chain
  rw [List.getLastD_cons]
  rcases List.eq_nil_or_concat (s.get i).outer with hnone | ⟨below, j, hj⟩
  · rw [hnone]
    exact hnone
  · rw [hj, List.concat_eq_append, List.getLastD_concat]
    exact hs i j below [] (hj.trans (List.concat_eq_append ..))

theorem root_mem_chain (s : Scopes) (i : ScopeId) : s.root i ∈ s.chain i := by
  unfold root chain
  rw [List.getLastD_cons]
  exact List.getLastD_mem_cons ..

end Scopes

namespace Analysis

/-- What may be declared under a name: a declaration of the name, a builtin only if it is one of
those that every program has, and a function only if it is one of those at hand. -/
structure Suits (F : FunctionDecl → Prop) (name : String) (d : Decl) : Prop where
  name : d.name = name
  builtin : d.isBuiltin = true → d ∈ builtins
  function : ∀ f, d = .function f → F f

/-- All scopes but the first one are opened inside earlier ones, each name is declared as what it may
be, and each function that a name stands for is one of those at hand. -/
structure State.Sound (F : FunctionDecl → Prop) (s : State) : Prop where
  outer : ∀ i, ∀ j ∈ (s.table.scopes.get i).outer, j < i
  first : ∀ i < s.table.scopes.all.size, (s.table.scopes.get i).outer = [] → i = 0
  nested : s.table.scopes.Nested
  pending : ∀ q ∈ s.pending, q.scope < s.table.scopes.all.size
  declared : ∀ i name d, (s.table.scopes.get i).declared.get? name = some d → Suits F name d
  decl : ∀ id f, (s.table.attributes id).decl = some (.function f) → F f

/-- What a pass for some nodes in some scopes may change. The scope of a body, once filed, stays. -/
structure Change (I : Nat → Prop) (C : ScopeId → Prop) (s s' : State) : Prop where
  size : s.table.scopes.all.size ≤ s'.table.scopes.all.size
  outer : ∀ i < s.table.scopes.all.size,
    (s'.table.scopes.get i).outer = (s.table.scopes.get i).outer
  scope : ∀ id, (s'.table.attributes id).scope = (s.table.attributes id).scope ∨
    I id ∧ ∃ i, C i ∧ (s'.table.attributes id).scope = some i
  bodyScope : ∀ id, (s'.table.attributes id).bodyScope = (s.table.attributes id).bodyScope ∨
    I id ∧ (s.table.attributes id).bodyScope = none
  pending : ∀ q ∈ s'.pending, q ∈ s.pending ∨
    I q.mark.id ∧ q.scope < s'.table.scopes.all.size ∧ ∀ i ∈ s'.table.scopes.chain q.scope, C i

namespace Change

variable {I J : Nat → Prop} {C D : ScopeId → Prop} {s s' s'' : State}

theorem refl (s : State) : Change I C s s :=
  ⟨Nat.le_refl _, fun _ _ => rfl, fun _ => .inl rfl, fun _ => .inl rfl, fun _ h => .inl h⟩

theorem chain (h : Change I C s s') {i : ScopeId} (hi : i < s.table.scopes.all.size) :
    s'.table.scopes.chain i = s.table.scopes.chain i := by
  unfold Scopes.chain
  rw [h.outer i hi]

theorem trans (h : Change I C s s') (h' : Change I C s' s'') : Change I C s s'' where
  size := Nat.le_trans h.size h'.size
  outer i hi := by rw [h'.outer i (Nat.lt_of_lt_of_le hi h.size), h.outer i hi]
  scope id := by
    rcases h'.scope id with heq | hnew
    · rw [heq]
      exact h.scope id
    · exact .inr hnew
  bodyScope id := by
    rcases h'.bodyScope id with heq | ⟨hid, hnone⟩
    · rw [heq]
      exact h.bodyScope id
    · rcases h.bodyScope id with heq | hnew
      · exact .inr ⟨hid, heq ▸ hnone⟩
      · exact .inr hnew
  pending q hq := by
    rcases h'.pending q hq with hold | hnew
    · rcases h.pending q hold with hold | ⟨hid, hsize, hchain⟩
      · exact .inl hold
      · refine .inr ⟨hid, Nat.lt_of_lt_of_le hsize h'.size, ?_⟩
        rw [h'.chain hsize]
        exact hchain
    · exact .inr hnew

theorem mono (h : Change I C s s') (hI : ∀ id, I id → J id) (hC : ∀ i, C i → D i) :
    Change J D s s' where
  size := h.size
  outer := h.outer
  scope id := (h.scope id).imp_right fun ⟨hid, i, hi, hs⟩ => ⟨hI id hid, i, hC i hi, hs⟩
  bodyScope id := (h.bodyScope id).imp_right fun ⟨hid, hnone⟩ => ⟨hI id hid, hnone⟩
  pending q hq := (h.pending q hq).imp_right fun ⟨hid, hsize, hchain⟩ =>
    ⟨hI _ hid, hsize, fun i hi => hC i (hchain i hi)⟩

end Change

/-- Nothing is postponed, and no scope of a body is filed. -/
structure Calm (s s' : State) : Prop where
  pending : s'.pending = s.pending
  bodyScope : ∀ id, (s'.table.attributes id).bodyScope = (s.table.attributes id).bodyScope

theorem Calm.refl (s : State) : Calm s s := ⟨rfl, fun _ => rfl⟩

theorem Calm.trans {s s' s'' : State} (h : Calm s s') (h' : Calm s' s'') : Calm s s'' :=
  ⟨h'.pending.trans h.pending, fun id => (h'.bodyScope id).trans (h.bodyScope id)⟩

/-- A pass keeps the state sound, changes no more than it may, and ends as told. -/
def Does (F : FunctionDecl → Prop) (I : Nat → Prop) (C : ScopeId → Prop) {α : Type} (s : State)
    (x : Pass α) (Q : State → α → Prop) : Prop :=
  s.Sound F → (x s).2.Sound F ∧ Change I C s (x s).2 ∧ Q (x s).2 (x s).1

namespace Does

variable {F : FunctionDecl → Prop} {I J : Nat → Prop} {C D : ScopeId → Prop} {α β : Type}
  {s : State} {x : Pass α} {P : State → α → Prop}

theorem pure {a : α} (h : P s a) : Does F I C s (Pure.pure a) P := fun hs => ⟨hs, .refl s, h⟩

theorem bind {f : α → Pass β} {Q : State → β → Prop} (hx : Does F I C s x P)
    (hf : ∀ s' a, Change I C s s' → P s' a → Does F I C s' (f a) Q) :
    Does F I C s (x >>= f) Q := by
  intro hs
  obtain ⟨hs', hc, hP⟩ := hx hs
  obtain ⟨hs'', hc', hQ⟩ := hf _ _ hc hP hs'
  exact ⟨hs'', hc.trans hc', hQ⟩

theorem next {f : α → Pass β} {Q : State → β → Prop} (hx : Does F I C s x P)
    (hf : ∀ {s'} a, Does F I C s' (f a) Q) : Does F I C s (x >>= f) Q :=
  hx.bind fun _ a _ _ => hf a

theorem weaken {Q : State → α → Prop} (h : Does F I C s x P)
    (hPQ : ∀ s' a, Change I C s s' → P s' a → Q s' a) : Does F I C s x Q := by
  intro hs
  obtain ⟨hs', hc, hP⟩ := h hs
  exact ⟨hs', hc, hPQ _ _ hc hP⟩

theorem forget (h : Does F I C s x P) : Does F I C s x fun _ _ => True :=
  h.weaken fun _ _ _ _ => trivial

theorem mono (h : Does F I C s x P) (hI : ∀ id, I id → J id) (hC : ∀ i, C i → D i) :
    Does F J D s x P := by
  intro hs
  obtain ⟨hs', hc, hP⟩ := h hs
  exact ⟨hs', hc.mono hI hC, hP⟩

theorem discard (h : Does F I C s x P) : Does F I C s (Functor.discard x) fun _ _ => True := by
  intro hs
  obtain ⟨hs', hc, -⟩ := h hs
  exact ⟨hs', hc, trivial⟩

theorem get : Does F I C s MonadState.get fun s' a => s' = s ∧ a = s := fun hs =>
  ⟨hs, .refl s, rfl, rfl⟩

theorem report {m : Mark} {problem : Problem} :
    Does F I C s (report m problem) fun s' _ => Calm s s' := fun hs =>
  ⟨⟨hs.outer, hs.first, hs.nested, hs.pending, hs.declared, hs.decl⟩,
    ⟨Nat.le_refl _, fun _ _ => rfl, fun _ => .inl rfl, fun _ => .inl rfl, fun _ h => .inl h⟩,
    ⟨rfl, fun _ => rfl⟩⟩

theorem onTable (id : Nat) (f : Attributes → Attributes)
    (hscope : ∀ a, (f a).scope = a.scope ∨ I id ∧ ∃ i, C i ∧ (f a).scope = some i)
    (hbody : (f (s.table.attributes id)).bodyScope = (s.table.attributes id).bodyScope ∨
      I id ∧ (s.table.attributes id).bodyScope = none)
    (hdecl : ∀ a g, (f a).decl = some (.function g) → a.decl = some (.function g) ∨ F g) :
    Does F I C s (onTable (·.update id f)) fun s' _ =>
      s'.table.attributes id = f (s.table.attributes id) ∧
      ((∀ a, (f a).bodyScope = a.bodyScope) → Calm s s') := by
  intro hs
  let t := s.table.update id f
  have hattr : ∀ j, t.attributes j =
      if id = j then f (s.table.attributes id) else s.table.attributes j := fun j =>
    Table.attributes_update s.table id j f
  have hdecls : ∀ j g, (t.attributes j).decl = some (.function g) → F g := by
    intro j g hg
    rw [hattr] at hg
    split at hg
    · rcases hdecl _ g hg with hold | hF
      · exact hs.decl id g hold
      · exact hF
    · exact hs.decl j g hg
  have hscopes : ∀ j, (t.attributes j).scope = (s.table.attributes j).scope ∨
      I j ∧ ∃ i, C i ∧ (t.attributes j).scope = some i := by
    intro j
    rw [hattr]
    split
    · subst_vars
      exact hscope _
    · exact .inl rfl
  have hbodies : ∀ j, (t.attributes j).bodyScope = (s.table.attributes j).bodyScope ∨
      I j ∧ (s.table.attributes j).bodyScope = none := by
    intro j
    rw [hattr]
    split
    · subst_vars
      exact hbody
    · exact .inl rfl
  have hcalm : (∀ a, (f a).bodyScope = a.bodyScope) → Calm s { s with table := t } := by
    refine fun hf => ⟨rfl, fun j => ?_⟩
    dsimp only
    rw [hattr]
    split
    · subst_vars
      exact hf _
    · rfl
  exact ⟨⟨hs.outer, hs.first, hs.nested, hs.pending, hs.declared, hdecls⟩,
    ⟨Nat.le_refl _, fun _ _ => rfl, hscopes, hbodies, fun _ h => .inl h⟩,
    (hattr id).trans (if_pos rfl), hcalm⟩

theorem setType {m : Mark} {t : Ty} : Does F I C s (setType m t) fun _ _ => True :=
  (onTable m.id (fun a => { a with type := some t }) (fun _ => .inl rfl) (.inl rfl)
    fun _ _ h => .inl h).forget

theorem setDecl {m : Mark} {d : Decl} (hd : ∀ f, d = .function f → F f) :
    Does F I C s (setDecl m d) fun s' _ => Calm s s' :=
  (onTable m.id (fun a => { a with decl := some d }) (fun _ => .inl rfl) (.inl rfl)
    fun _ g h => .inr (hd g (Option.some.inj h))).weaken fun _ _ _ h => h.2 fun _ => rfl

theorem setScope {m : Mark} {i : ScopeId} (hI : I m.id) (hC : C i) :
    Does F I C s (setScope m i) fun s' _ =>
      (s'.table.attributes m.id).scope = some i ∧ Calm s s' :=
  (onTable m.id (fun a => { a with scope := some i }) (fun _ => .inr ⟨hI, i, hC, rfl⟩)
    (.inl rfl) fun _ _ h => .inl h).weaken
    fun _ _ _ h => ⟨congrArg Attributes.scope h.1, h.2 fun _ => rfl⟩

theorem setBodyScope {m : Mark} {i : ScopeId} (hI : I m.id)
    (hnone : (s.table.attributes m.id).bodyScope = none) :
    Does F I C s (setBodyScope m i) fun s' _ =>
      (s'.table.attributes m.id).bodyScope = some i :=
  (onTable m.id (fun a => { a with bodyScope := some i }) (fun _ => .inl rfl)
    (.inr ⟨hI, hnone⟩) fun _ _ h => .inl h).weaken fun _ _ _ h => congrArg Attributes.bodyScope h.1

theorem postpone {q : Pending} (hI : I q.mark.id) (hsize : q.scope < s.table.scopes.all.size)
    (hC : ∀ i ∈ s.table.scopes.chain q.scope, C i) :
    Does F I C s (postpone q) fun _ _ => True := by
  intro hs
  have hmem : ∀ q' ∈ s.pending ++ [q], q' ∈ s.pending ∨ q' = q := by simp
  refine ⟨⟨hs.outer, hs.first, hs.nested, fun q' hq' => ?_, hs.declared, hs.decl⟩,
    ⟨Nat.le_refl _, fun _ _ => rfl, fun _ => .inl rfl, fun _ => .inl rfl, fun q' hq' => ?_⟩,
    trivial⟩
  · rcases hmem q' hq' with hold | rfl
    · exact hs.pending q' hold
    · exact hsize
  · rcases hmem q' hq' with hold | rfl
    · exact .inl hold
    · exact .inr ⟨hI, hsize, hC⟩

theorem find {scope : ScopeId} {name : String} :
    Does F I C s (find scope name) fun s' r => s' = s ∧ ∀ d owner, r = some (d, owner) →
      owner ∈ s.table.scopes.chain scope ∧ ∀ f, d = .function f → F f := by
  intro hs
  refine ⟨hs, .refl s, rfl, fun d owner h => ?_⟩
  obtain ⟨hmem, hd⟩ := Scopes.findIn_some h
  refine ⟨hmem, ?_⟩
  rintro f rfl
  exact (hs.declared owner name _ hd).function f rfl

theorem findLocal {scope : ScopeId} {name : String} :
    Does F I C s (findLocal scope name) fun s' _ => s' = s := fun hs => ⟨hs, .refl s, rfl⟩

theorem openScope {node : NodeRef} {parent : Option ScopeId}
    (hparent : ∀ scope ∈ parent, scope < s.table.scopes.all.size)
    (hfirst : parent = none → s.table.scopes.all.size = 0) :
    Does F I C s (openScope node parent) fun s' i => i = s.table.scopes.all.size ∧
      i < s'.table.scopes.all.size ∧
      s'.table.scopes.chain i = i :: (parent.map s.table.scopes.chain).getD [] ∧
      s'.pending = s.pending := by
  intro hs
  let around := (parent.map s.table.scopes.chain).getD []
  let scopes := (s.table.scopes.push (some node) parent).2
  have hget : ∀ i, scopes.get i = if i = s.table.scopes.all.size then
      ⟨some node, around, ∅⟩ else s.table.scopes.get i :=
    Scopes.get_push _ _
  have hsize : scopes.all.size = s.table.scopes.all.size + 1 := Array.size_push ..
  have hlt : s.table.scopes.all.size < scopes.all.size := by
    rw [hsize]
    exact Nat.lt_succ_self _
  have hchain : ∀ j ∈ around, j < s.table.scopes.all.size := by
    intro j hj
    cases parent with
    | none => exact (List.not_mem_nil hj).elim
    | some scope =>
      rcases List.mem_cons.mp hj with rfl | hj
      · exact hparent j rfl
      · exact Nat.lt_trans (hs.outer scope j hj) (hparent scope rfl)
  have houter : ∀ i, ∀ j ∈ (scopes.get i).outer, j < i := by
    intro i j hj
    rw [hget] at hj
    split at hj
    · subst_vars
      exact hchain j hj
    · exact hs.outer i j hj
  have hdeclared : ∀ i name d, (scopes.get i).declared.get? name = some d → Suits F name d := by
    intro i name d hd
    rw [hget] at hd
    split at hd
    · simp at hd
    · exact hs.declared i name d hd
  have hkept : ∀ i < s.table.scopes.all.size,
      (scopes.get i).outer = (s.table.scopes.get i).outer := by
    intro i hi
    rw [hget, if_neg (Nat.ne_of_lt hi)]
  have hnew : (scopes.get s.table.scopes.all.size).outer = around := by
    rw [hget, if_pos rfl]
  have houtermost : ∀ i < scopes.all.size, (scopes.get i).outer = [] → i = 0 := by
    intro i hi hnone
    rw [hget] at hnone
    split at hnone
    · rename_i heq
      cases parent with
      | none => exact heq.trans (hfirst rfl)
      | some scope => cases hnone
    · rename_i hne
      rw [hsize] at hi
      exact hs.first i (Nat.lt_of_le_of_ne (Nat.le_of_lt_succ hi) hne) hnone
  exact ⟨⟨houter, houtermost, hs.nested.push hs.outer hparent,
      fun q hq => Nat.lt_trans (hs.pending q hq) hlt, hdeclared, hs.decl⟩,
    ⟨Nat.le_of_lt hlt, hkept, fun _ => .inl rfl, fun _ => .inl rfl, fun _ h => .inl h⟩,
    rfl, hlt, congrArg (s.table.scopes.all.size :: ·) hnew, rfl⟩

theorem enter {scope : ScopeId} {name : String} {d : Decl} (hd : Suits F name d) :
    Does F I C s (enter scope name d) fun s' _ => Calm s s' := by
  intro hs
  have hsize := Scopes.size_declare (s := s.table.scopes) scope name d
  have hsame := fun i => Scopes.outer_declare (s := s.table.scopes) scope i name d
  refine ⟨⟨fun i j hj => ?_, fun i hi hnone => ?_, fun i j below above hi => ?_, fun q hq => ?_,
      fun i other e he => ?_, hs.decl⟩,
    ⟨Nat.le_of_eq hsize.symm, fun i _ => hsame i, fun _ => .inl rfl, fun _ => .inl rfl,
      fun _ h => .inl h⟩, ⟨rfl, fun _ => rfl⟩⟩
  · exact hs.outer i j (hsame i ▸ hj)
  · exact hs.first i (hsize ▸ hi) ((hsame i).symm.trans hnone)
  · exact (hsame j).trans (hs.nested i j below above ((hsame i).symm.trans hi))
  · exact Nat.lt_of_lt_of_le (hs.pending q hq) (Nat.le_of_eq hsize.symm)
  · rcases Scopes.declared_declare he with hold | ⟨rfl, rfl⟩
    · exact hs.declared i other e hold
    · exact hd

end Does

/-- A scope is there, and a pass in it works in some scopes. -/
structure In (C : ScopeId → Prop) (scope : ScopeId) (s : State) : Prop where
  size : scope < s.table.scopes.all.size
  chain : ∀ i ∈ s.table.scopes.chain scope, C i

theorem In.self {C : ScopeId → Prop} {scope : ScopeId} {s : State} (h : In C scope s) : C scope :=
  h.chain scope List.mem_cons_self

theorem In.mono {I : Nat → Prop} {C D : ScopeId → Prop} {scope : ScopeId} {s s' : State}
    (h : In C scope s) (hc : Change I D s s') : In C scope s' :=
  ⟨Nat.lt_of_lt_of_le h.size hc.size, by rw [hc.chain h.size]; exact h.chain⟩

namespace Does

variable {F : FunctionDecl → Prop} {I : Nat → Prop} {C : ScopeId → Prop} {α : Type}
  {s : State} {scope : ScopeId} {m : Mark} {name : String} {d : Decl}

theorem declare (hd : Suits F name d) (hI : I m.id) (hC : C scope) :
    Does F I C s (declare scope name d m) fun s' _ => Calm s s' := by
  refine (enter hd).bind fun s₁ free _ h₁ => ?_
  cases free with
  | true => exact (setScope hI hC).weaken fun s₂ _ _ h₂ => h₁.trans h₂.2
  | false =>
    exact report.bind fun s₂ _ _ h₂ => (setScope hI hC).weaken fun s₃ _ _ h₃ =>
      (h₁.trans h₂).trans h₃.2

theorem typed {x : Pass Ty} (h : Does F I C s x fun _ _ => True) :
    Does F I C s (typed m x) fun _ _ => True :=
  h.next fun _ => setType.next fun _ => pure trivial

theorem resolveType (t : TypeExpr) : Does F I C s (resolveType t scope) fun _ _ => True := by
  induction t generalizing s with
  | simple m name =>
    refine find.next fun found => ?_
    split
    · exact pure trivial
    · exact pure trivial
    · exact report.next fun _ => pure trivial
  | array m element ih => exact ih.next fun _ => pure trivial

theorem resolveTypes (ts : List TypeExpr) :
    Does F I C s (resolveTypes ts scope) fun _ _ => True := by
  induction ts generalizing s with
  | nil => exact pure trivial
  | cons t ts ih =>
    exact (resolveType t).next fun _ => ih.next fun _ => pure trivial

theorem functionType {params : List Parameter} {returnType : Option TypeExpr} :
    Does F I C s (functionType m params returnType scope) fun _ _ => True := by
  refine get.next fun _ => ?_
  split
  · exact pure trivial
  · refine (resolveTypes _).next fun _ => ?_
    cases returnType with
    | none =>
      exact (pure (P := fun _ _ => True) trivial).next fun _ => setType.next fun _ => pure trivial
    | some t => exact (resolveType t).next fun _ => setType.next fun _ => pure trivial

theorem declType : Does F I C s (declType d scope) fun _ _ => True := by
  cases d with
  | function f => exact functionType
  | var m name => exact get.next fun _ => pure trivial
  | parameter m name => exact get.next fun _ => pure trivial
  | placeholder m name => exact get.next fun _ => pure trivial
  | fact m functor => exact get.next fun _ => pure trivial
  | rule m functor => exact get.next fun _ => pure trivial
  | _ => exact pure trivial

theorem reference {r : Reference} (hin : In C scope s) (hI : I r.mark.id) :
    Does F I C s (reference r scope) fun _ _ => True := by
  refine typed (find.bind ?_)
  rintro s₁ found - ⟨rfl, hfound⟩
  split
  · exact report.next fun _ => pure trivial
  · rename_i d owner
    obtain ⟨howner, hd⟩ := hfound d owner rfl
    exact (setDecl hd).next fun _ =>
      (setScope hI (hin.chain owner howner)).next fun _ => declType

theorem constructorType (hin : In C scope s) (hI : I m.id) :
    Does F I C s (constructorType m name scope) fun _ _ => True := by
  refine find.bind ?_
  rintro s₁ found - ⟨rfl, hfound⟩
  split
  · rename_i d owner
    obtain ⟨howner, hd⟩ := hfound _ owner rfl
    exact (setDecl hd).next fun _ => (setScope hI (hin.chain owner howner)).next
      fun _ => (resolveTypes _).next fun _ => pure trivial
  · exact report.next fun _ => pure trivial

theorem fieldType {stem : Ty} : Does F I C s (fieldType m stem name scope) fun _ _ => True := by
  have unknown : Does F I C s (Analysis.report m (.unknownField name stem.name) >>= fun _ =>
      Pure.pure Ty.void) fun _ _ => True := report.next fun _ => pure trivial
  unfold Analysis.fieldType
  dsimp only
  split
  · split
    · exact pure trivial
    · exact unknown
  · split
    · exact resolveType _
    · exact unknown
  · exact unknown

theorem placeholder {type : TypeExpr} (hin : In C scope s) (hI : I m.id) :
    Does F I C s (placeholder m name type scope) fun _ _ => True := by
  have hd : Suits F name (.placeholder m name) := ⟨rfl, by rintro ⟨⟩, by rintro f ⟨⟩⟩
  refine get.bind ?_
  rintro s₁ a - ⟨rfl, rfl⟩
  have hroot : C (a.table.scopes.root scope) := hin.chain _ (Scopes.root_mem_chain ..)
  refine (resolveType type).next fun t => findLocal.next fun found => ?_
  have hrest : ∀ s', Does F I C s' (Analysis.setScope m (a.table.scopes.root scope) >>= fun _ =>
      Analysis.setDecl m (.placeholder m name) >>= fun _ => Pure.pure t) fun _ _ => True :=
    fun _ => (setScope hI hroot).next fun _ => (setDecl hd.function).next fun _ =>
      pure trivial
  cases found with
  | none => exact (enter hd).discard.next fun _ => hrest _
  | some existing =>
    dsimp only
    split
    · exact hrest _
    · exact report.next fun _ => hrest _

mutual

theorem expression (e : Expr) {s : State} (hin : In C scope s)
    (hI : ∀ node ∈ e.nodes, I node.mark.id) :
    Does F I C s (expression e scope) fun _ _ => True := by
  have hself : I e.mark.id := hI _ e.self_mem_nodes
  match e with
  | .int _ _ | .float _ _ | .string _ _ | .bool _ _ | .null _ => exact typed (pure trivial)
  | .reference r => exact reference hin hself
  | .constructor m name => exact typed (constructorType hin hself)
  | .array m elements =>
    refine typed ((expressions elements hin fun node h => hI node ?_).next fun _ => pure trivial)
    simp [Expr.nodes, h]
  | .field m stem name =>
    refine typed ((expression stem hin fun node h => hI node ?_).next fun _ => fieldType)
    simp [Expr.nodes, h]
  | .index m array index =>
    have ha : ∀ node ∈ array.nodes, I node.mark.id :=
      fun node h => hI node (by simp [Expr.nodes, h])
    have hi : ∀ node ∈ index.nodes, I node.mark.id :=
      fun node h => hI node (by simp [Expr.nodes, h])
    refine typed ((expression array hin ha).bind fun s₁ t h₁ _ =>
      (expression index (hin.mono h₁) hi).discard.next fun _ => ?_)
    split <;> exact pure trivial
  | .call m callee arguments =>
    have hc : ∀ node ∈ callee.nodes, I node.mark.id := fun node h =>
      hI node (by simp [Expr.nodes, h])
    have ha : ∀ node ∈ Expr.nodesOfList arguments, I node.mark.id := fun node h =>
      hI node (by simp [Expr.nodes, h])
    refine typed ((expression callee hin hc).bind fun s₁ t h₁ _ =>
      (expressions arguments (hin.mono h₁) ha).discard.next fun _ => ?_)
    split <;> exact pure trivial
  | .not m operand =>
    refine typed ((expression operand hin fun node h => hI node ?_).discard.next fun _ =>
      pure trivial)
    simp [Expr.nodes, h]
  | .binary m op left right =>
    have hl : ∀ node ∈ left.nodes, I node.mark.id := fun node h => hI node (by simp [Expr.nodes, h])
    have hr : ∀ node ∈ right.nodes, I node.mark.id := fun node h =>
      hI node (by simp [Expr.nodes, h])
    exact typed ((expression left hin hl).bind fun s₁ t h₁ _ =>
      (expression right (hin.mono h₁) hr).next fun _ => pure trivial)
  | .assign m target value =>
    have ht : ∀ node ∈ target.nodes, I node.mark.id := fun node h =>
      hI node (by simp [Expr.nodes, h])
    have hv : ∀ node ∈ value.nodes, I node.mark.id :=
      fun node h => hI node (by simp [Expr.nodes, h])
    exact typed ((expression value hin hv).discard.bind fun s₁ _ h₁ _ =>
      expression target (hin.mono h₁) ht)
  | .paren m inner =>
    refine typed (expression inner hin fun node h => hI node ?_)
    simp [Expr.nodes, h]
  | .query m target question =>
    have ht : I target.mark.id := hI target.node (by simp [Expr.nodes])
    have hq : ∀ node ∈ question.nodes, I node.mark.id := fun node h =>
      hI node (by simp [Expr.nodes, h])
    exact typed ((reference hin ht).discard.bind fun s₁ _ h₁ _ =>
      (expression question (hin.mono h₁) hq).discard.next fun _ => pure trivial)
  | .placeholder m name type => exact typed (placeholder hin hself)
  | .logic goal => exact logic goal hin (by simpa [Expr.nodes] using hI)

theorem expressions (es : List Expr) {s : State} (hin : In C scope s)
    (hI : ∀ node ∈ Expr.nodesOfList es, I node.mark.id) :
    Does F I C s (expressions es scope) fun _ _ => True := by
  match es with
  | [] => exact pure trivial
  | e :: es =>
    have he : ∀ node ∈ e.nodes, I node.mark.id := fun node h =>
      hI node (by simp [Expr.nodesOfList, h])
    have hes : ∀ node ∈ Expr.nodesOfList es, I node.mark.id := fun node h =>
      hI node (by simp [Expr.nodesOfList, h])
    exact (expression e hin he).bind fun s₁ t h₁ _ =>
      (expressions es (hin.mono h₁) hes).next fun _ => pure trivial

theorem logic (goal : Goal) {s : State} (hin : In C scope s)
    (hI : ∀ node ∈ goal.nodes, I node.mark.id) :
    Does F I C s (logic goal scope) fun _ _ => True := by
  have hself : I goal.mark.id := hI _ goal.self_mem_nodes
  match goal with
  | .atom m name =>
    exact typed ((postpone hself hin.size hin.chain).next fun _ => pure trivial)
  | .call m functor arguments =>
    have ha : ∀ node ∈ Expr.nodesOfList arguments, I node.mark.id := fun node h =>
      hI node (by simp [Goal.nodes, h])
    exact typed ((expressions arguments hin ha).discard.bind fun s₁ _ h₁ _ =>
      (postpone hself (hin.mono h₁).size (hin.mono h₁).chain).next fun _ => pure trivial)
  | .paren m inner =>
    refine typed ((logic inner hin fun node h => hI node ?_).discard.next fun _ => pure trivial)
    simp [Goal.nodes, h]
  | .not m operand =>
    refine typed ((logic operand hin fun node h => hI node ?_).discard.next fun _ => pure trivial)
    simp [Goal.nodes, h]
  | .binary m op left right =>
    have hl : ∀ node ∈ left.nodes, I node.mark.id := fun node h => hI node (by simp [Goal.nodes, h])
    have hr : ∀ node ∈ right.nodes, I node.mark.id := fun node h =>
      hI node (by simp [Goal.nodes, h])
    exact typed ((logic left hin hl).discard.bind fun s₁ _ h₁ _ =>
      (logic right (hin.mono h₁) hr).discard.next fun _ => pure trivial)

end

theorem predicate {functor : String} {params : List Ty} (hd : Suits F functor d)
    (hin : In C scope s) (hI : I m.id) :
    Does F I C s (predicate d m functor params scope) fun _ _ => True := by
  refine setType.bind fun s₁ _ h₁ _ => find.bind ?_
  rintro s₂ found - ⟨rfl, hfound⟩
  have hown : Does F I C s₂ (Analysis.declare scope functor d m >>= fun _ => Analysis.setDecl m d)
      fun _ _ => True := (declare hd hI hin.self).next fun _ => (setDecl hd.function).forget
  cases found with
  | none => exact hown
  | some pair =>
    obtain ⟨existing, owner⟩ := pair
    obtain ⟨howner, hexisting⟩ := hfound existing owner rfl
    dsimp only
    split
    · rename_i hvisible
      split at hvisible
      · cases hvisible
        exact (setScope hI ((hin.mono h₁).chain owner howner)).next fun _ =>
          (setDecl hexisting).forget
      · cases hvisible
    · exact hown

theorem parameter {p : Parameter} (hin : In C scope s) (hI : I p.mark.id) :
    Does F I C s (parameter p scope) fun _ _ => True := by
  have hd : Suits F p.name (.parameter p.mark p.name) := ⟨rfl, by rintro ⟨⟩, by rintro f ⟨⟩⟩
  exact (resolveType p.type).next fun _ =>
    (declare hd hI hin.self).next fun _ => setType.next fun _ => pure trivial

theorem parameters {ps : List Parameter} (hin : In C scope s) (hI : ∀ p ∈ ps, I p.mark.id) :
    Does F I C s (parameters ps scope) fun _ _ => True := by
  induction ps generalizing s with
  | nil => exact pure trivial
  | cons p ps ih =>
    have hps : ∀ p ∈ ps, I p.mark.id := fun p hp => hI p (List.mem_cons_of_mem _ hp)
    exact (parameter hin (hI p List.mem_cons_self)).bind fun s₁ _ h₁ _ =>
      (ih (hin.mono h₁) hps).next fun _ => pure trivial

theorem fields {fs : List FieldDecl} : Does F I C s (fields fs scope) fun _ _ => True := by
  induction fs generalizing s with
  | nil => exact pure trivial
  | cons f fs ih => exact (resolveType f.type).next fun _ => setType.next fun _ => ih

theorem varDecl {d : VarDecl} (hin : In C scope s) (hI : ∀ node ∈ d.nodes, I node.mark.id) :
    Does F I C s (varDecl d scope) fun _ _ => True := by
  have hself : I d.mark.id := hI (.statement (.var d)) (by simp [VarDecl.nodes])
  have hd : Suits F d.name (.var d.mark d.name) := ⟨rfl, by rintro ⟨⟩, by rintro f ⟨⟩⟩
  have hdeclare : ∀ {s : State} (t : Ty), Does F I C s
      (Analysis.declare scope d.name (.var d.mark d.name) d.mark >>= fun _ =>
        Analysis.setType d.mark t) fun _ _ => True := fun t =>
    (declare hd hself hin.self).next fun _ => setType
  unfold Analysis.varDecl
  dsimp only
  split
  · refine (pure (P := fun _ _ => True) trivial).next fun initial => ?_
    split
    · exact (pure (P := fun _ _ => True) trivial).next hdeclare
    · exact (resolveType _).next hdeclare
  · rename_i e he
    have hnodes : ∀ node ∈ e.nodes, I node.mark.id := fun node h =>
      hI node (by simp [VarDecl.nodes, he, h])
    refine (expression e hin hnodes).next fun initial => ?_
    split
    · exact (pure (P := fun _ _ => True) trivial).next hdeclare
    · exact (resolveType _).next hdeclare

theorem atom {d : AtomDecl} (hin : In C scope s) (hI : I d.mark.id) :
    Does F I C s (atom d scope) fun _ _ => True := by
  have hrest : ∀ {s : State}, Does F I C s (Analysis.setScope d.mark scope >>= fun _ =>
      Analysis.setType d.mark .bool) fun _ _ => True :=
    (setScope hI hin.self).next fun _ => setType
  have hd : Suits F d.name (.atom d.mark d.name) := ⟨rfl, by rintro ⟨⟩, by rintro f ⟨⟩⟩
  refine findLocal.next fun found => ?_
  cases found with
  | none => exact (enter hd).discard.next fun _ => hrest
  | some existing =>
    dsimp only
    split
    · exact hrest
    · exact report.next fun _ => hrest

theorem fact {d : FactDecl} (hin : In C scope s) (hI : ∀ node ∈ d.nodes, I node.mark.id) :
    Does F I C s (fact d scope) fun _ _ => True := by
  have hself : I d.mark.id := hI (.statement (.fact d)) (by simp [FactDecl.nodes])
  have hd : Suits F d.functor (.fact d.mark d.functor) := ⟨rfl, by rintro ⟨⟩, by rintro f ⟨⟩⟩
  have ha : ∀ node ∈ Expr.nodesOfList d.arguments, I node.mark.id := fun node h =>
    hI node (by simp [FactDecl.nodes, h])
  exact (expressions d.arguments hin ha).bind fun s₁ params h₁ _ =>
    predicate hd (hin.mono h₁) hself

/-- The functions and structs of a list are declared in the scope of the list. -/
theorem hoist {ss : List Stmt} (hC : C scope) (hI : ∀ st ∈ ss, I st.ref.mark.id)
    (hF : ∀ f, .function f ∈ ss → F f) :
    Does F I C s (hoist ss scope) fun s' _ => Calm s s' := by
  induction ss generalizing s with
  | nil => exact pure (.refl s)
  | cons st ss ih =>
    have hrest : ∀ {s : State}, Does F I C s (Analysis.hoist ss scope) fun s' _ =>
        Calm s s' := ih (fun st h => hI st (List.mem_cons_of_mem _ h))
      fun f h => hF f (List.mem_cons_of_mem _ h)
    have hself := hI st List.mem_cons_self
    cases st with
    | struct d =>
      have hd : Suits F d.name (.struct d) := ⟨rfl, by rintro ⟨⟩, by rintro f ⟨⟩⟩
      exact (declare hd hself hC).bind fun s₁ _ _ h₁ =>
        hrest.weaken fun s₂ _ _ h₂ => h₁.trans h₂
    | function d =>
      have hd : Suits F d.name (.function d) :=
        ⟨rfl, by rintro ⟨⟩, by rintro f ⟨⟩; exact hF d List.mem_cons_self⟩
      exact (declare hd hself hC).bind fun s₁ _ _ h₁ =>
        hrest.weaken fun s₂ _ _ h₂ => h₁.trans h₂
    | _ => exact hrest

end Does

end Analysis

end LogicScript
