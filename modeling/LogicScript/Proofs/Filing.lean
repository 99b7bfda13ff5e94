import LogicScript.Proofs.Placement

/-! What a pass of the analysis files, and for which nodes.

A pass has a share: the attributes it may file, each for the nodes it works for. Whatever lies
outside of the share stays, and so does every declaration that was made before. A pass that declares
a name also files, within its share, the scope of the node that declares it. -/
namespace LogicScript

namespace Scopes

variable {s : Scopes} {i j : ScopeId} {name other : String} {d e : Decl}

@[simp] theorem findLocal_push (opener : Option NodeRef) (parent : Option ScopeId) (i : ScopeId)
    (name : String) : (s.push opener parent).2.findLocal i name = s.findLocal i name := by
  unfold findLocal
  rw [get_push]
  split
  · have hnone : s.get i = default := by
      subst_vars
      simp [get]
    rw [hnone]
    rfl
  · rfl

theorem findLocal_declare_of_some (h : s.findLocal j other = some e) :
    (s.declare i name d).2.findLocal j other = some e := by
  unfold declare
  split
  · exact h
  · rename_i hfree
    have hne : i = j → other ≠ name := by
      rintro rfl rfl
      rw [h] at hfree
      cases hfree
    unfold findLocal get at h ⊢
    simp only [Array.getD_eq_getD_getElem?, Array.getElem?_modify] at h ⊢
    by_cases hij : i = j
    · subst hij
      cases hi : s.all[i]? with
      | none => simpa [hi] using h
      | some scope =>
        simp only [hi, Option.getD_some] at h
        simpa [Bindings.get?_set_ne _ _ (hne rfl)] using h
    · simpa [hij] using h

theorem findLocal_declare (h : (s.declare i name d).2.findLocal j other = some e) :
    s.findLocal j other = some e ∨ j = i ∧ e = d := by
  by_cases hij : j = i
  · rcases declared_declare h with hold | hnew
    · exact .inl hold
    · exact .inr ⟨hij, hnew.2⟩
  · refine .inl ?_
    unfold declare at h
    split at h
    · exact h
    · unfold findLocal get at h ⊢
      simp only [Array.getD_eq_getD_getElem?, Array.getElem?_modify] at h ⊢
      simpa [Ne.symm hij] using h

theorem findLocal_declare_self (hi : i < s.all.size) (h : (s.declare i name d).1 = true) :
    (s.declare i name d).2.findLocal i name = some d := by
  unfold declare at h ⊢
  split
  · simp_all
  · unfold findLocal get
    simp only [Array.getD_eq_getD_getElem?, Array.getElem?_modify, if_true,
      Array.getElem?_eq_getElem hi, Option.map_some, Option.getD_some, Bindings.get?_set_self]

theorem findIn_split {scopes : List ScopeId} (h : s.findIn name scopes = some (d, j)) :
    ∃ below above, scopes = below ++ j :: above ∧ s.findLocal j name = some d ∧
      ∀ i ∈ below, s.findLocal i name = none := by
  induction scopes with
  | nil => simp [findIn] at h
  | cons i rest ih =>
    unfold findIn at h
    split at h
    · cases h
      exact ⟨[], rest, rfl, ‹_›, by simp⟩
    · rename_i hnone
      obtain ⟨below, above, rfl, hd, hbelow⟩ := ih h
      refine ⟨i :: below, above, rfl, hd, fun k hk => ?_⟩
      rcases List.mem_cons.mp hk with rfl | hk
      · exact hnone
      · exact hbelow k hk

end Scopes

namespace Table

variable (t : Table) (id j : Nat)

@[simp] theorem scope_setScope_self (i : ScopeId) :
    ((t.setScope id i).attributes id).scope = some i := by
  rw [setScope, attributes_update, if_pos rfl]

@[simp] theorem scope_setDecl (d : Decl) :
    ((t.setDecl id d).attributes j).scope = (t.attributes j).scope := by
  rw [setDecl, attributes_update]
  split <;> simp_all

@[simp] theorem scope_setType (ty : Ty) :
    ((t.setType id ty).attributes j).scope = (t.attributes j).scope := by
  rw [setType, attributes_update]
  split <;> simp_all

@[simp] theorem decl_setDecl_self (d : Decl) :
    ((t.setDecl id d).attributes id).decl = some d := by
  rw [setDecl, attributes_update, if_pos rfl]

@[simp] theorem decl_setScope (i : ScopeId) :
    ((t.setScope id i).attributes j).decl = (t.attributes j).decl := by
  rw [setScope, attributes_update]
  split <;> simp_all

@[simp] theorem decl_setType (ty : Ty) :
    ((t.setType id ty).attributes j).decl = (t.attributes j).decl := by
  rw [setType, attributes_update]
  split <;> simp_all

@[simp] theorem type_setType_self (ty : Ty) :
    ((t.setType id ty).attributes id).type = some ty := by
  rw [setType, attributes_update, if_pos rfl]

@[simp] theorem type_setScope (i : ScopeId) :
    ((t.setScope id i).attributes j).type = (t.attributes j).type := by
  rw [setScope, attributes_update]
  split <;> simp_all

@[simp] theorem type_setDecl (d : Decl) :
    ((t.setDecl id d).attributes j).type = (t.attributes j).type := by
  rw [setDecl, attributes_update]
  split <;> simp_all

@[simp] theorem bodyScope_setBodyScope_self (i : ScopeId) :
    ((t.setBodyScope id i).attributes id).bodyScope = some i := by
  rw [setBodyScope, attributes_update, if_pos rfl]

end Table

namespace Decl

/-- Whether uses of the name have the type that is filed for the declaring node. -/
def isTyped : Decl → Bool
  | .var _ _ | .parameter _ _ | .placeholder _ _ | .fact _ _ | .rule _ _ => true
  | _ => false

end Decl

/-- What a node declares a name as. -/
def Node.declares : Node → Option Decl
  | .statement (.var d) => some (.var d.mark d.name)
  | .statement (.function d) => some (.function d)
  | .statement (.struct d) => some (.struct d)
  | .statement (.atom d) => some (.atom d.mark d.name)
  | .statement (.fact d) => some (.fact d.mark d.functor)
  | .statement (.rule d) => some (.rule d.mark d.functor)
  | .expression (.placeholder m name _) => some (.placeholder m name)
  | .parameter p => some (.parameter p.mark p.name)
  | _ => none

theorem Node.mark?_declares {n : Node} {d : Decl} (h : n.declares = some d) :
    d.mark? = some n.mark := by
  unfold declares at h
  split at h <;> cases h <;> rfl

namespace Analysis

/-- The state after a pass. -/
abbrev State.after {α : Type} (s : State) (x : Pass α) : State := (x s).2

/-- A pass ends in a state, and with a result, as told. -/
def Ends {α : Type} (s : State) (x : Pass α) (Q : State → α → Prop) : Prop := Q (x s).2 (x s).1

namespace Ends

variable {α β : Type} {s : State} {x : Pass α} {f : α → Pass β} {P : State → α → Prop}
  {Q : State → β → Prop}

theorem bind (hx : Ends s x P) (hf : ∀ s' a, P s' a → Ends s' (f a) Q) : Ends s (x >>= f) Q :=
  hf _ _ hx

theorem get_bind {f : State → Pass β} (h : Ends s (f s) Q) : Ends s (MonadState.get >>= f) Q := h

theorem discard {R : State → Prop} (h : Ends s x fun s' _ => R s') :
    Ends s (Functor.discard x) fun s' _ => R s' := h

theorem weaken {P' : State → α → Prop} (h : Ends s x P) (hP : ∀ s' a, P s' a → P' s' a) :
    Ends s x P' := hP _ _ h

end Ends

/-- What a pass may do for a node: file one of its attributes, or postpone its name. -/
inductive Duty
  | scope | decl | type | bodyScope | name
  deriving DecidableEq

/-- What a pass may do, for the nodes of which numbers. -/
abbrev Share := Duty → Nat → Prop

/-- A single attribute of a single node. -/
def Share.one (duty : Duty) (id : Nat) : Share := fun duty' id' => duty' = duty ∧ id' = id

theorem Share.one_self (duty : Duty) (id : Nat) : Share.one duty id duty id := ⟨rfl, rfl⟩

theorem Share.one_le {I : Share} {duty : Duty} {id : Nat} (h : I duty id) :
    ∀ duty' id', Share.one duty id duty' id' → I duty' id' := by
  rintro _ _ ⟨rfl, rfl⟩
  exact h

/-- Two passes do nothing for the same node. -/
def Share.Apart (I J : Share) : Prop := ∀ duty id, I duty id → ¬ J duty id

/-- What is done for a node while the program is walked. The type of a function is filed wherever
the function is mentioned first, and the names in logic expressions are only postponed. -/
def duties : Node → Duty → Bool
  | .statement (.function _), .type => false
  | .expression (.logic _), .scope | .expression (.logic _), .decl => false
  | .expression (.logic _), .name => true
  | _, .name => false
  | _, _ => true

/-- The share of some nodes. -/
def files (nodes : List Node) : Share := fun duty id =>
  ∃ n ∈ nodes, n.mark.id = id ∧ duties n duty = true

theorem files_mono {l l' : List Node} (h : l ⊆ l') {duty : Duty} {id : Nat}
    (hf : files l duty id) : files l' duty id := by
  obtain ⟨n, hn, hid⟩ := hf
  exact ⟨n, h hn, hid⟩

theorem files_self {n : Node} {l : List Node} {duty : Duty} (hn : n ∈ l)
    (hduty : duties n duty = true) : files l duty n.mark.id := ⟨n, hn, rfl, hduty⟩

theorem files_own (n : Node) (duty : Duty) (hduty : duties n duty = true) :
    files [n] duty n.mark.id := files_self (List.mem_singleton_self n) hduty

theorem files.marks {l : List Node} {duty : Duty} {id : Nat} (h : files l duty id) :
    Marks l id := by
  obtain ⟨n, hn, hid, -⟩ := h
  exact ⟨n, hn, hid⟩

theorem files_append {l l' : List Node} {duty : Duty} {id : Nat} :
    files (l ++ l') duty id ↔ files l duty id ∨ files l' duty id := by
  simp [files, or_and_right, exists_or]

theorem files_cons {n : Node} {l : List Node} {duty : Duty} {id : Nat} :
    files (n :: l) duty id ↔ files [n] duty id ∨ files l duty id :=
  files_append (l := [n])

/-- One of the nodes is a function of the number. -/
def Function (all : List Node) (id : Nat) : Prop :=
  ∃ d : FunctionDecl, .statement (.function d) ∈ all ∧ d.mark.id = id

/-- A type that is filed for a function. -/
def IsFunctionType (t : Option Ty) : Prop := ∃ params result, t = some (.function params result)

/-- All that a pass with a share leaves as it is. The type of a function may be filed by any
pass. -/
structure Kept (all : List Node) (I : Share) (s s' : State) : Prop where
  size : s.table.scopes.all.size ≤ s'.table.scopes.all.size
  outer : ∀ i < s.table.scopes.all.size,
    (s'.table.scopes.get i).outer = (s.table.scopes.get i).outer
  declared : ∀ {i name d}, s.table.scopes.findLocal i name = some d →
    s'.table.scopes.findLocal i name = some d
  scope : ∀ {id}, ¬ I .scope id → (s'.table.attributes id).scope = (s.table.attributes id).scope
  decl : ∀ {id}, ¬ I .decl id → (s'.table.attributes id).decl = (s.table.attributes id).decl
  bodyScope : ∀ {id}, ¬ I .bodyScope id →
    (s'.table.attributes id).bodyScope = (s.table.attributes id).bodyScope
  type : ∀ {id}, ¬ I .type id → (s'.table.attributes id).type = (s.table.attributes id).type ∨
    Function all id ∧ ¬ IsFunctionType (s.table.attributes id).type ∧
      IsFunctionType (s'.table.attributes id).type
  issues : s.issues <+: s'.issues
  pending : s.pending <+: s'.pending
  postponed : ∀ q ∈ s'.pending, q ∈ s.pending ∨ I .name q.mark.id

namespace Kept

variable {all : List Node} {I J : Share} {s s' s'' : State}

theorem refl (s : State) : Kept all I s s where
  size := Nat.le_refl _
  outer _ _ := rfl
  declared h := h
  scope _ := rfl
  decl _ := rfl
  bodyScope _ := rfl
  type _ := .inl rfl
  issues := List.prefix_refl _
  pending := List.prefix_refl _
  postponed _ h := .inl h

theorem trans (h : Kept all I s s') (h' : Kept all I s' s'') : Kept all I s s'' where
  size := Nat.le_trans h.size h'.size
  outer i hi := by rw [h'.outer i (Nat.lt_of_lt_of_le hi h.size), h.outer i hi]
  declared hd := h'.declared (h.declared hd)
  scope hid := (h'.scope hid).trans (h.scope hid)
  decl hid := (h'.decl hid).trans (h.decl hid)
  bodyScope hid := (h'.bodyScope hid).trans (h.bodyScope hid)
  type hid := by
    rcases h.type hid with hold | ⟨hf, hnot, hfun⟩
    · rw [← hold]
      exact h'.type hid
    · -- A function type, once filed, is never replaced.
      rcases h'.type hid with hold' | ⟨-, hnot', -⟩
      · exact .inr ⟨hf, hnot, hold' ▸ hfun⟩
      · exact absurd hfun hnot'
  issues := h.issues.trans h'.issues
  pending := h.pending.trans h'.pending
  postponed q hq := by
    rcases h'.postponed q hq with hold | hnew
    · exact h.postponed q hold
    · exact .inr hnew

theorem mono (h : Kept all I s s') (hI : ∀ duty id, I duty id → J duty id) : Kept all J s s' where
  size := h.size
  outer := h.outer
  declared := h.declared
  scope hid := h.scope fun hi => hid (hI _ _ hi)
  decl hid := h.decl fun hi => hid (hI _ _ hi)
  bodyScope hid := h.bodyScope fun hi => hid (hI _ _ hi)
  type hid := h.type fun hi => hid (hI _ _ hi)
  issues := h.issues
  pending := h.pending
  postponed q hq := (h.postponed q hq).imp_right (hI _ _)

theorem chain (h : Kept all I s s') {i : ScopeId} (hi : i < s.table.scopes.all.size) :
    s'.table.scopes.chain i = s.table.scopes.chain i := by
  unfold Scopes.chain
  rw [h.outer i hi]

theorem typed (h : Kept all I s s') {id : Nat} (hid : ¬ I .type id)
    (ht : (s.table.attributes id).type.isSome) : (s'.table.attributes id).type.isSome := by
  rcases h.type hid with hold | ⟨-, -, params, result, hnew⟩
  · rwa [hold]
  · simp [hnew]

theorem type_eq (h : Kept all I s s') {id : Nat} (hid : ¬ I .type id) (hf : ¬ Function all id) :
    (s'.table.attributes id).type = (s.table.attributes id).type :=
  (h.type hid).resolve_right fun hnew => hf hnew.1

theorem functionType_eq (h : Kept all I s s') {id : Nat} (hid : ¬ I .type id)
    (ht : IsFunctionType (s.table.attributes id).type) :
    (s'.table.attributes id).type = (s.table.attributes id).type :=
  (h.type hid).resolve_right fun hnew => hnew.2.1 ht

theorem issues_nil (h : Kept all I s s') (hnil : s'.issues = []) : s.issues = [] :=
  List.prefix_nil.mp (hnil ▸ h.issues)

end Kept

/-- A declaration is that of a node, within a share, and its scope is filed for the node; so is its
type, if uses of the name have it. Builtins belong to no node. -/
def Entry (all : List Node) (I : Share) (s : State) (i : ScopeId) (d : Decl) : Prop :=
  d.isBuiltin = true ∨ ∃ n ∈ all, n.declares = some d ∧ I .scope n.mark.id ∧
    (s.table.attributes n.mark.id).scope = some i ∧
    (d.isTyped = true → I .type n.mark.id ∧ (s.table.attributes n.mark.id).type.isSome)

theorem Entry.mono {all : List Node} {I J : Share} {s : State} {i : ScopeId} {d : Decl}
    (h : Entry all I s i d) (hI : ∀ duty id, I duty id → J duty id) : Entry all J s i d := by
  refine h.imp_right ?_
  rintro ⟨n, hn, hd, hscope, hfiled, htype⟩
  exact ⟨n, hn, hd, hI _ _ hscope, hfiled, fun ht => ⟨hI _ _ (htype ht).1, (htype ht).2⟩⟩

/-- What a pass with a share does. -/
structure Step (all : List Node) (I : Share) (s s' : State) : Prop extends Kept all I s s' where
  entries : ∀ {i name d}, s'.table.scopes.findLocal i name = some d →
    s.table.scopes.findLocal i name = some d ∨ Entry all I s' i d

/-- Each declaration is builtin or that of a node. -/
def State.Known (all : List Node) (s : State) : Prop :=
  ∀ i name d, s.table.scopes.findLocal i name = some d →
    d.isBuiltin = true ∨ ∃ n ∈ all, n.declares = some d

namespace Step

variable {all : List Node} {I J K : Share} {s s' s'' : State} {m : Mark} {i : ScopeId}
  {name : String} {d : Decl} {t : Ty}

theorem refl (s : State) : Step all I s s := ⟨.refl s, fun h => .inl h⟩

theorem mono (h : Step all I s s') (hI : ∀ duty id, I duty id → J duty id) : Step all J s s' :=
  ⟨h.toKept.mono hI, fun hd => (h.entries hd).imp_right (·.mono hI)⟩

/-- Two passes for different nodes. What the first one filed for its declarations is left by the
second one. -/
theorem trans (h : Step all I s s') (h' : Step all J s' s'') (hI : ∀ duty id, I duty id → K duty id)
    (hJ : ∀ duty id, J duty id → K duty id) (hapart : I.Apart J) : Step all K s s'' where
  toKept := (h.toKept.mono hI).trans (h'.toKept.mono hJ)
  entries hd := by
    rcases h'.entries hd with hold | hnew
    · refine (h.entries hold).imp_right fun he => ?_
      refine he.imp_right ?_
      rintro ⟨n, hn, hdecl, hscope, hfiled, htype⟩
      refine ⟨n, hn, hdecl, hI _ _ hscope, ?_, fun ht => ?_⟩
      · rw [h'.scope (hapart _ _ hscope), hfiled]
      · exact ⟨hI _ _ (htype ht).1, h'.typed (hapart _ _ (htype ht).1) (htype ht).2⟩
    · exact .inr (hnew.mono hJ)

theorem known (h : Step all I s s') (hs : s.Known all) : s'.Known all := by
  intro i name d hd
  rcases h.entries hd with hold | hnew
  · exact hs i name d hold
  · refine hnew.imp_right ?_
    rintro ⟨n, hn, hdecl, -⟩
    exact ⟨n, hn, hdecl⟩

end Step

/-- A pass that declares nothing. -/
structure Plain (all : List Node) (I : Share) (s s' : State) : Prop extends Kept all I s s' where
  same : ∀ i name, s'.table.scopes.findLocal i name = s.table.scopes.findLocal i name

namespace Plain

variable {all : List Node} {I J : Share} {s s' s'' : State} {m : Mark} {i : ScopeId} {d : Decl}
  {t : Ty}

theorem refl (s : State) : Plain all I s s := ⟨.refl s, fun _ _ => rfl⟩

theorem trans (h : Plain all I s s') (h' : Plain all I s' s'') : Plain all I s s'' :=
  ⟨h.toKept.trans h'.toKept, fun i name => (h'.same i name).trans (h.same i name)⟩

theorem bind {α β : Type} {x : Pass α} {f : α → Pass β} {P : State → α → Prop} (hx : Ends s x P)
    (hf : ∀ s' a, P s' a → Plain all I s (s'.after (f a))) : Plain all I s (s.after (x >>= f)) :=
  hf _ _ hx

theorem mono (h : Plain all I s s') (hI : ∀ duty id, I duty id → J duty id) : Plain all J s s' :=
  ⟨h.toKept.mono hI, h.same⟩

theorem step (h : Plain all I s s') : Step all I s s' :=
  ⟨h.toKept, fun {i name _} hd => .inl (h.same i name ▸ hd)⟩

theorem update (id : Nat) (f : Attributes → Attributes)
    (hscope : ¬ I .scope id → (f (s.table.attributes id)).scope = (s.table.attributes id).scope)
    (hdecl : ¬ I .decl id → (f (s.table.attributes id)).decl = (s.table.attributes id).decl)
    (hbody : ¬ I .bodyScope id →
      (f (s.table.attributes id)).bodyScope = (s.table.attributes id).bodyScope)
    (htype : ¬ I .type id → (f (s.table.attributes id)).type = (s.table.attributes id).type ∨
      Function all id ∧ ¬ IsFunctionType (s.table.attributes id).type ∧
        IsFunctionType (f (s.table.attributes id)).type) :
    Plain all I s (s.after (onTable (·.update id f))) := by
  have hattr : ∀ j, ((s.after (onTable (·.update id f))).table.attributes j) =
      if id = j then f (s.table.attributes id) else s.table.attributes j := fun j =>
    Table.attributes_update s.table id j f
  refine ⟨⟨Nat.le_refl _, fun _ _ => rfl, fun h => h, fun {j} hj => ?_, fun {j} hj => ?_,
    fun {j} hj => ?_, fun {j} hj => ?_, List.prefix_refl _, List.prefix_refl _,
    fun _ h => .inl h⟩, fun _ _ => rfl⟩
  all_goals
    rw [hattr]
    by_cases hid : id = j
    · subst hid
      simp only [if_true]
      first | exact hscope hj | exact hdecl hj | exact hbody hj | exact htype hj
    · simp [hid]

theorem setScope (hI : I .scope m.id) : Plain all I s (s.after (setScope m i)) :=
  update m.id (fun a => { a with scope := some i }) (fun h => absurd hI h) (fun _ => rfl)
    (fun _ => rfl) fun _ => .inl rfl

theorem setDecl (hI : I .decl m.id) : Plain all I s (s.after (setDecl m d)) :=
  update m.id (fun a => { a with decl := some d }) (fun _ => rfl) (fun h => absurd hI h)
    (fun _ => rfl) fun _ => .inl rfl

theorem setBodyScope (hI : I .bodyScope m.id) : Plain all I s (s.after (setBodyScope m i)) :=
  update m.id (fun a => { a with bodyScope := some i }) (fun _ => rfl) (fun _ => rfl)
    (fun h => absurd hI h) fun _ => .inl rfl

theorem setType (hI : I .type m.id) : Plain all I s (s.after (setType m t)) :=
  update m.id (fun a => { a with type := some t }) (fun _ => rfl) (fun _ => rfl) (fun _ => rfl)
    fun h => absurd hI h

theorem typed {x : Pass Ty} (h : Plain all I s (s.after x)) (hI : I .type m.id) :
    Plain all I s (s.after (typed m x)) := h.trans (setType hI)

theorem report {problem : Problem} : Plain all I s (s.after (report m problem)) :=
  ⟨⟨Nat.le_refl _, fun _ _ => rfl, fun h => h, fun _ => rfl, fun _ => rfl, fun _ => rfl,
    fun _ => .inl rfl, List.prefix_append .., List.prefix_refl _, fun _ h => .inl h⟩,
    fun _ _ => rfl⟩

theorem postpone {q : Pending} (hI : I .name q.mark.id) :
    Plain all I s (s.after (postpone q)) := by
  refine ⟨⟨Nat.le_refl _, fun _ _ => rfl, fun h => h, fun _ => rfl, fun _ => rfl, fun _ => rfl,
    fun _ => .inl rfl, List.prefix_refl _, List.prefix_append .., fun r hr => ?_⟩,
    fun _ _ => rfl⟩
  rcases List.mem_append.mp hr with hold | hnew
  · exact .inl hold
  · rw [List.mem_singleton.mp hnew]
    exact .inr hI

theorem openScope {node : NodeRef} {parent : Option ScopeId} :
    Plain all I s (s.after (openScope node parent)) := by
  have hsize : (s.after (Analysis.openScope node parent)).table.scopes.all.size =
      s.table.scopes.all.size + 1 := Array.size_push ..
  have hget : ∀ i < s.table.scopes.all.size,
      (s.after (Analysis.openScope node parent)).table.scopes.get i = s.table.scopes.get i := by
    intro i hi
    have := Scopes.get_push (s := s.table.scopes) (some node) parent i
    rwa [if_neg (Nat.ne_of_lt hi)] at this
  have hfind : ∀ i name, (s.after (Analysis.openScope node parent)).table.scopes.findLocal i name =
      s.table.scopes.findLocal i name := Scopes.findLocal_push (some node) parent
  exact ⟨⟨by omega, fun i hi => by rw [hget i hi], fun h => by rwa [hfind], fun _ => rfl,
    fun _ => rfl, fun _ => rfl, fun _ => .inl rfl, List.prefix_refl _, List.prefix_refl _,
    fun _ h => .inl h⟩, hfind⟩

end Plain

/-- A pass that declares one name at most, in a certain scope and as a certain declaration. -/
structure Adds (all : List Node) (I : Share) (i : ScopeId) (d : Decl) (s s' : State) : Prop extends
    Kept all I s s' where
  only : ∀ {j name e}, s'.table.scopes.findLocal j name = some e →
    s.table.scopes.findLocal j name = some e ∨ j = i ∧ e = d

namespace Adds

variable {all : List Node} {I : Share} {s s' s'' : State} {m : Mark} {i : ScopeId} {d : Decl}

theorem enter (i : ScopeId) (name : String) (d : Decl) :
    Adds all I i d s (s.after (enter i name d)) where
  size := Nat.le_of_eq (Scopes.size_declare i name d).symm
  outer j _ := Scopes.outer_declare i j name d
  declared h := Scopes.findLocal_declare_of_some h
  scope _ := rfl
  decl _ := rfl
  bodyScope _ := rfl
  type _ := .inl rfl
  issues := List.prefix_refl _
  pending := List.prefix_refl _
  postponed _ h := .inl h
  only h := Scopes.findLocal_declare h

theorem mono {J : Share} (h : Adds all I i d s s') (hI : ∀ duty id, I duty id → J duty id) :
    Adds all J i d s s' := ⟨h.toKept.mono hI, h.only⟩

theorem of_plain (h : Plain all I s s') : Adds all I i d s s' :=
  ⟨h.toKept, fun {j name _} hd => .inl (h.same j name ▸ hd)⟩

theorem before (h : Plain all I s s') (h' : Adds all I i d s' s'') : Adds all I i d s s'' :=
  ⟨h.toKept.trans h'.toKept, fun {j name _} hd => (h'.only hd).imp_left fun hold =>
    h.same j name ▸ hold⟩

theorem next (h : Adds all I i d s s') (h' : Plain all I s' s'') : Adds all I i d s s'' :=
  ⟨h.toKept.trans h'.toKept, fun {j name _} hd => h.only (h'.same j name ▸ hd)⟩

theorem step (h : Adds all I i d s s') {n : Node} (hn : n ∈ all) (hd : n.declares = some d)
    (hI : I .scope n.mark.id) (hscope : (s'.table.attributes n.mark.id).scope = some i)
    (htype : d.isTyped = true →
      I .type n.mark.id ∧ (s'.table.attributes n.mark.id).type.isSome) :
    Step all I s s' := by
  refine ⟨h.toKept, fun he => (h.only he).imp_right ?_⟩
  rintro ⟨rfl, rfl⟩
  exact .inr ⟨n, hn, hd, hI, hscope, htype⟩

theorem declare (s : State) (i : ScopeId) (name : String) (d : Decl) (hI : I .scope m.id) :
    Adds all I i d s (s.after (declare i name d m)) ∧
      ((s.after (declare i name d m)).table.attributes m.id).scope = some i := by
  have henter : Ends s (Analysis.enter i name d) fun s' _ => Adds all I i d s s' := enter i name d
  refine (henter.bind ?_ : Ends s (Analysis.declare i name d m) fun s' _ =>
    Adds all I i d s s' ∧ (s'.table.attributes m.id).scope = some i)
  intro s' free h
  cases free with
  | true => exact ⟨h.next (.setScope hI), Table.scope_setScope_self ..⟩
  | false => exact ⟨h.next (.trans .report (.setScope hI)), Table.scope_setScope_self ..⟩

end Adds

/-- A pass does nothing but report issues. -/
structure Reports (s s' : State) : Prop where
  table : s'.table = s.table
  pending : s'.pending = s.pending
  issues : s.issues <+: s'.issues

namespace Reports

variable {s s' s'' : State} {i : ScopeId}

theorem refl (s : State) : Reports s s := ⟨rfl, rfl, List.prefix_refl _⟩

theorem trans (h : Reports s s') (h' : Reports s' s'') : Reports s s'' :=
  ⟨h'.table.trans h.table, h'.pending.trans h.pending, h.issues.trans h'.issues⟩

theorem report (m : Mark) (problem : Problem) : Reports s (s.after (report m problem)) :=
  ⟨rfl, rfl, List.prefix_append ..⟩

theorem plain {all : List Node} {I : Share} (h : Reports s s') : Plain all I s s' := by
  obtain ⟨table, issues, pending⟩ := s'
  obtain ⟨rfl, rfl, hissues⟩ := h
  exact ⟨⟨Nat.le_refl _, fun _ _ => rfl, fun h => h, fun _ => rfl, fun _ => rfl, fun _ => rfl,
    fun _ => .inl rfl, hissues, List.prefix_refl _, fun _ h => .inl h⟩, fun _ _ => rfl⟩

theorem resolveType (t : TypeExpr) : Reports s (s.after (resolveType t i)) := by
  induction t generalizing s with
  | simple m name =>
    have hfind : Ends s (find i name) fun s' _ => s' = s := rfl
    refine (hfind.bind ?_ : Ends s (Analysis.resolveType (.simple m name) i) fun s' _ =>
      Reports s s')
    rintro s' found rfl
    split
    · exact refl s'
    · exact refl s'
    · exact report m _
  | array m element ih => exact ih

theorem resolveTypes (ts : List TypeExpr) : Reports s (s.after (resolveTypes ts i)) := by
  induction ts generalizing s with
  | nil => exact refl s
  | cons t ts ih => exact (resolveType t).trans ih

theorem fieldType (m : Mark) (stem : Ty) (name : String) :
    Reports s (s.after (fieldType m stem name i)) := by
  unfold Analysis.fieldType
  dsimp only
  split
  · split
    · exact refl s
    · exact report m _
  · split
    · exact resolveType _
    · exact report m _
  · exact report m _

end Reports

section FunctionType

variable {all : List Node} {I : Share} {s : State} (m : Mark) (params : List Parameter)
  (returnType : Option TypeExpr) (i : ScopeId)

theorem functionType_filed : Ends s (functionType m params returnType i) fun s' t =>
    IsFunctionType (some t) ∧ (s'.table.attributes m.id).type = some t := by
  refine Ends.get_bind ?_
  split
  · rename_i h
    exact ⟨⟨_, _, rfl⟩, h⟩
  · cases returnType <;> exact ⟨⟨_, _, rfl⟩, Table.type_setType_self ..⟩

theorem Plain.functionType (hm : Function all m.id) :
    Plain all I s (s.after (functionType m params returnType i)) := by
  refine (Ends.get_bind ?_ : Ends s (Analysis.functionType m params returnType i) fun s' _ =>
    Plain all I s s')
  split
  · exact .refl s
  · rename_i hnot
    have hfile : ∀ {s' : State} (t : Ty), Reports s s' → IsFunctionType (some t) →
        Plain all I s (s'.after (Analysis.setType m t)) := by
      intro s' t hs ht
      have hold : ¬ IsFunctionType (s'.table.attributes m.id).type := by
        rintro ⟨params, result, h⟩
        rw [hs.table] at h
        exact hnot params result h
      exact hs.plain.trans <| update m.id (fun a => { a with type := some t }) (fun _ => rfl)
        (fun _ => rfl) (fun _ => rfl) fun _ => .inr ⟨hm, hold, ht⟩
    cases returnType with
    | none => exact hfile _ (.resolveTypes _) ⟨_, _, rfl⟩
    | some t =>
      exact hfile _ ((Reports.resolveTypes _).trans (.resolveType t)) ⟨_, _, rfl⟩

end FunctionType

/-- The type that a use of a declared name has, by what is filed for the declaration. -/
def useType (t : Table) : Decl → Ty
  | .builtinFunction _ => .function [.string] .string
  | .builtinType _ | .struct _ => .type
  | .function f => t.typeOf f.mark
  | .atom _ _ => .bool
  | .var m _ | .parameter m _ | .placeholder m _ | .fact m _ | .rule m _ => t.typeOf m

theorem declType_filed (d : Decl) (i : ScopeId) (s : State) :
    Ends s (declType d i) fun s' t => t = useType s'.table d := by
  cases d with
  | function f =>
    have hfiled := functionType_filed (s := s) f.mark f.parameters f.returnType i
    have htype : ((s.after (functionType f.mark f.parameters f.returnType i)).table.typeOf f.mark) =
        (functionType f.mark f.parameters f.returnType i s).1 := by
      rw [Table.typeOf, hfiled.2, Option.getD_some]
    exact htype.symm
  | _ => rfl

theorem Plain.declType {all : List Node} {I : Share} {s : State} {i : ScopeId} {d : Decl}
    (hd : d.isBuiltin = true ∨ ∃ n ∈ all, n.declares = some d) :
    Plain all I s (s.after (declType d i)) := by
  cases d with
  | function f =>
    refine functionType _ _ _ _ ?_
    rcases hd with hbuiltin | ⟨n, hn, hd⟩
    · cases hbuiltin
    · unfold Node.declares at hd
      split at hd <;> cases hd
      exact ⟨_, hn, rfl⟩
  | _ => exact .refl s

/-! The passes over nodes that have no others below them, or that only resolve types there. -/

section Leaves

variable {all : List Node} {s : State} {i : ScopeId} {l : List Node}

theorem State.Known.find (hs : s.Known all) {name : String} {d : Decl} {owner : ScopeId}
    (h : s.table.scopes.find i name = some (d, owner)) :
    d.isBuiltin = true ∨ ∃ n ∈ all, n.declares = some d :=
  hs owner name d (Scopes.findIn_some h).2

theorem Plain.reference {r : Reference} (hs : s.Known all) :
    Plain all (files [r.node]) s (s.after (reference r i)) := by
  have hfind : Ends s (find i r.name) fun s' found => s' = s ∧ ∀ d owner,
      found = some (d, owner) → d.isBuiltin = true ∨ ∃ n ∈ all, n.declares = some d :=
    ⟨rfl, fun d owner h => hs.find h⟩
  refine .typed (.bind hfind ?_) (files_own r.node _ rfl)
  rintro s' found ⟨rfl, hfound⟩
  split
  · exact .report
  · rename_i d owner
    exact .trans (.setDecl (files_own r.node _ rfl)) (.trans (.setScope (files_own r.node _ rfl))
      (.declType (hfound d owner rfl)))

theorem Plain.constructorType {m : Mark} {name : String} :
    Plain all (files [.expression (.constructor m name)]) s
      (s.after (constructorType m name i)) := by
  have hfind : Ends s (find i name) fun s' _ => s' = s := rfl
  refine .bind hfind ?_
  rintro s' found rfl
  split
  · exact .trans (.setDecl (files_own (.expression (.constructor m name)) _ rfl))
      (.trans (.setScope (files_own (.expression (.constructor m name)) _ rfl))
        (Reports.resolveTypes _).plain)
  · exact .report

theorem Adds.placeholder {I : Share} {m : Mark} (name : String) (type : TypeExpr)
    (hscope : I .scope m.id) (hdecl : I .decl m.id) :
    Ends s (placeholder m name type i) fun s' _ =>
      Adds all I (s.table.scopes.root i) (.placeholder m name) s s' ∧
      (s'.table.attributes m.id).scope = some (s.table.scopes.root i) ∧
      (s'.table.attributes m.id).decl = some (.placeholder m name) := by
  refine Ends.get_bind ?_
  have htype : Ends s (resolveType type i) fun s' _ => Reports s s' := Reports.resolveType type
  refine htype.bind fun s₁ t h₁ => ?_
  have hfind : Ends s₁ (findLocal (s.table.scopes.root i) name) fun s' _ => s' = s₁ := rfl
  refine hfind.bind ?_
  rintro s₂ found rfl
  have hfile : ∀ {s₃ : State}, Adds all I (s.table.scopes.root i) (.placeholder m name) s₂ s₃ →
      Ends s₃ (setScope m (s.table.scopes.root i) >>= fun _ =>
        setDecl m (.placeholder m name) >>= fun _ => pure t) fun s' _ =>
        Adds all I (s.table.scopes.root i) (.placeholder m name) s s' ∧
        (s'.table.attributes m.id).scope = some (s.table.scopes.root i) ∧
        (s'.table.attributes m.id).decl = some (.placeholder m name) := by
    intro s₃ h₃
    have hset : Ends s₃ (setScope m (s.table.scopes.root i)) fun s' _ =>
        Adds all I (s.table.scopes.root i) (.placeholder m name) s₂ s' ∧
        (s'.table.attributes m.id).scope = some (s.table.scopes.root i) :=
      ⟨h₃.next (.setScope hscope), Table.scope_setScope_self ..⟩
    refine hset.bind fun s₄ _ h₄ => ?_
    have hset' : Ends s₄ (setDecl m (.placeholder m name)) fun s' _ =>
        Adds all I (s.table.scopes.root i) (.placeholder m name) s₂ s' ∧
        (s'.table.attributes m.id).scope = some (s.table.scopes.root i) ∧
        (s'.table.attributes m.id).decl = some (.placeholder m name) :=
      ⟨h₄.1.next (.setDecl hdecl), (Table.scope_setDecl ..).trans h₄.2,
        Table.decl_setDecl_self ..⟩
    exact hset'.bind fun s₅ _ h₅ => ⟨.before h₁.plain h₅.1, h₅.2⟩
  cases found with
  | none =>
    have henter : Ends s₂ (Analysis.enter (s.table.scopes.root i) name (.placeholder m name)) fun s' _ =>
        Adds all I (s.table.scopes.root i) (.placeholder m name) s₂ s' := .enter ..
    exact henter.discard.bind fun s₃ _ h₃ => hfile h₃
  | some existing =>
    dsimp only
    split
    · exact hfile (.of_plain (.refl s₂))
    · have hreport : Ends s₂ (report m (.alreadyDeclaredInRoot name)) fun s' _ =>
          Adds all I (s.table.scopes.root i) (.placeholder m name) s₂ s' := .of_plain .report
      exact hreport.bind fun s₃ _ h₃ => hfile h₃

/-- A placeholder is declared in the outermost scope, and belongs to it in any case. -/
theorem Step.placeholder {m : Mark} {name : String} {type : TypeExpr}
    (hn : .expression (.placeholder m name type) ∈ all) :
    Step all (files [.expression (.placeholder m name type)]) s
      (s.after (typed m (placeholder m name type i))) := by
  have hplaceholder : Ends s (Analysis.placeholder m name type i) fun s' _ =>
      Adds all (files [.expression (.placeholder m name type)]) (s.table.scopes.root i)
        (.placeholder m name) s s' ∧ _ := Adds.placeholder name type
    (files_own (.expression (.placeholder m name type)) _ rfl)
    (files_own (.expression (.placeholder m name type)) _ rfl)
  obtain ⟨hadds, hscope, -⟩ := hplaceholder
  have htype := files_own (.expression (.placeholder m name type)) .type rfl
  refine (hadds.next (.setType htype)).step hn rfl
    (files_own (.expression (.placeholder m name type)) _ rfl) ?_ fun _ => ⟨htype, ?_⟩
  · exact (Table.scope_setType ..).trans hscope
  · exact Option.isSome_iff_exists.mpr ⟨_, Table.type_setType_self ..⟩

theorem Step.declareTyped {n : Node} {name : String} {d : Decl} {t : Ty} (hn : n ∈ all)
    (hd : n.declares = some d) (hscope : duties n .scope = true) (htype : duties n .type = true) :
    Step all (files [n]) s ((s.after (declare i name d n.mark)).after (setType n.mark t)) := by
  obtain ⟨hadds, hfiled⟩ : Adds all (files [n]) i d s (s.after (declare i name d n.mark)) ∧ _ :=
    Adds.declare s i name d (files_own n _ hscope)
  refine (hadds.next (.setType (files_own n _ htype))).step hn hd (files_own n _ hscope) ?_
    fun _ => ⟨files_own n _ htype, ?_⟩
  · exact (Table.scope_setType ..).trans hfiled
  · exact Option.isSome_iff_exists.mpr ⟨_, Table.type_setType_self ..⟩

theorem Step.before {I : Share} {s' s'' : State} (h : Plain all I s s') (h' : Step all I s' s'') :
    Step all I s s'' :=
  ⟨h.toKept.trans h'.toKept, fun {j name _} hd =>
    (h'.entries hd).imp_left fun hold => h.same j name ▸ hold⟩

theorem Step.parameter {p : Parameter} (hn : .parameter p ∈ all) :
    Step all (files [.parameter p]) s (s.after (parameter p i)) :=
  .before (Reports.resolveType p.type).plain (Step.declareTyped hn rfl rfl rfl)

theorem Step.predicate {I : Share} {n : Node} {d : Decl} {functor : String} {params : List Ty}
    (hn : n ∈ all) (hd : n.declares = some d) (hscope : I .scope n.mark.id)
    (hdecl : I .decl n.mark.id) (htype : I .type n.mark.id) :
    Ends s (predicate d n.mark functor params i) fun s' _ =>
      Step all I s s' ∧ (s'.table.attributes n.mark.id).scope.isSome := by
  have hset : Ends s (setType n.mark (.predicate functor params)) fun s' _ =>
      Plain all I s s' ∧ (s'.table.attributes n.mark.id).type.isSome :=
    ⟨.setType htype, Option.isSome_iff_exists.mpr ⟨_, Table.type_setType_self ..⟩⟩
  refine hset.bind fun s₁ _ h₁ => ?_
  have hfind : Ends s₁ (find i functor) fun s' _ => s' = s₁ := rfl
  refine hfind.bind ?_
  rintro s₂ found rfl
  have hown : Ends s₂ (declare i functor d n.mark >>= fun _ => setDecl n.mark d) fun s' _ =>
      Step all I s s' ∧ (s'.table.attributes n.mark.id).scope.isSome := by
    have hdeclare : Ends s₂ (declare i functor d n.mark) fun s' _ =>
        Adds all (.one .scope n.mark.id) i d s₂ s' ∧
        (s'.table.attributes n.mark.id).scope = some i := Adds.declare _ _ _ _ (Share.one_self ..)
    refine hdeclare.bind fun s₃ _ h₃ => ?_
    have htyped : (s₃.table.attributes n.mark.id).type.isSome :=
      h₃.1.typed (by rintro ⟨⟨⟩, -⟩) h₁.2
    have hadds : Adds all I i d s (s₃.after (setDecl n.mark d)) :=
      .before h₁.1 ((h₃.1.mono (Share.one_le hscope)).next (.setDecl hdecl))
    have hfiled : ((s₃.after (setDecl n.mark d)).table.attributes n.mark.id).scope = some i :=
      (Table.scope_setDecl ..).trans h₃.2
    have htyped' : ((s₃.after (setDecl n.mark d)).table.attributes n.mark.id).type.isSome :=
      (congrArg _ (Table.type_setDecl ..)).trans htyped
    exact ⟨hadds.step hn hd hscope hfiled fun _ => ⟨htype, htyped'⟩, by rw [hfiled]; rfl⟩
  cases found with
  | none => exact hown
  | some pair =>
    obtain ⟨existing, owner⟩ := pair
    dsimp only
    split
    · rename_i seen home _
      have hset' : Ends s₂ (setScope n.mark home) fun s' _ => Plain all I s s' ∧
          (s'.table.attributes n.mark.id).scope.isSome :=
        ⟨h₁.1.trans (.setScope hscope),
          Option.isSome_iff_exists.mpr ⟨_, Table.scope_setScope_self ..⟩⟩
      refine hset'.bind fun s₃ _ h₃ => ?_
      have hfiled : ((s₃.after (setDecl n.mark seen)).table.attributes n.mark.id).scope.isSome :=
        (congrArg _ (Table.scope_setDecl ..)).trans h₃.2
      exact ⟨(h₃.1.trans (.setDecl hdecl)).step, hfiled⟩
    · exact hown

/-- Declaring an atom again changes nothing, but the node belongs to the scope. -/
theorem Step.atom {d : AtomDecl} (hn : .statement (.atom d) ∈ all) :
    Ends s (atom d i) fun s' _ => Step all (files [.statement (.atom d)]) s s' ∧
      (s'.table.attributes d.mark.id).scope = some i := by
  have hfind : Ends s (findLocal i d.name) fun s' _ => s' = s := rfl
  refine hfind.bind ?_
  rintro s₁ found rfl
  have hscope := files_own (.statement (.atom d)) .scope rfl
  have htype := files_own (.statement (.atom d)) .type rfl
  have hfile : ∀ {s₂ : State},
      Adds all (files [.statement (.atom d)]) i (.atom d.mark d.name) s₁ s₂ →
      Ends s₂ (setScope d.mark i >>= fun _ => setType d.mark .bool) fun s' _ =>
        Step all (files [.statement (.atom d)]) s₁ s' ∧
        (s'.table.attributes d.mark.id).scope = some i := by
    intro s₂ h₂
    have hset : Ends s₂ (setScope d.mark i) fun s' _ =>
        Adds all (files [.statement (.atom d)]) i (.atom d.mark d.name) s₁ s' ∧
        (s'.table.attributes d.mark.id).scope = some i :=
      ⟨h₂.next (.setScope hscope), Table.scope_setScope_self ..⟩
    refine hset.bind fun s₃ _ h₃ => ?_
    have hfiled : ((s₃.after (setType d.mark .bool)).table.attributes d.mark.id).scope = some i :=
      (Table.scope_setType ..).trans h₃.2
    exact ⟨(h₃.1.next (.setType htype)).step hn rfl hscope hfiled (by rintro ⟨⟩), hfiled⟩
  cases found with
  | none =>
    have henter : Ends s₁ (enter i d.name (.atom d.mark d.name)) fun s' _ =>
        Adds all (files [.statement (.atom d)]) i (.atom d.mark d.name) s₁ s' := .enter ..
    exact henter.discard.bind fun s₂ _ h₂ => hfile h₂
  | some existing =>
    dsimp only
    split
    · exact hfile (.of_plain (.refl s₁))
    · have hreport : Ends s₁ (report d.mark (.alreadyDeclared d.name)) fun s' _ =>
          Adds all (files [.statement (.atom d)]) i (.atom d.mark d.name) s₁ s' :=
        .of_plain .report
      exact hreport.bind fun s₂ _ h₂ => hfile h₂

theorem Plain.fields {fs : List FieldDecl} {I : Share} (hI : ∀ f ∈ fs, I .type f.mark.id) :
    Plain all I s (s.after (fields fs i)) := by
  induction fs generalizing s with
  | nil => exact .refl s
  | cons f fs ih =>
    have hfirst : Plain all I s ((s.after (resolveType f.type i)).after
        (Analysis.setType f.mark (resolveType f.type i s).1)) :=
      (Reports.resolveType f.type).plain.trans (.setType (hI f List.mem_cons_self))
    exact hfirst.trans (ih fun f hf => hI f (List.mem_cons_of_mem _ hf))

end Leaves

/-! The functions and structs of a list are declared before the list is walked. -/

/-- Whether a statement is declared ahead of the list it stands in. -/
def isHoisted : Stmt → Bool
  | .function _ | .struct _ => true
  | _ => false

/-- The scopes of the functions and structs of a list. -/
def hoists (ss : List Stmt) : Share := fun duty id =>
  duty = .scope ∧ ∃ st ∈ ss, isHoisted st = true ∧ st.ref.mark.id = id

theorem hoists_nodup {ss : List Stmt} (h : Distinct (Stmt.nodesOfList ss)) :
    (ss.map fun st => st.ref.mark.id).Nodup := by
  induction ss with
  | nil => exact List.nodup_nil
  | cons st rest ih =>
    have hd : Distinct (st.nodes ++ Stmt.nodesOfList rest) := h
    rw [List.map_cons, List.nodup_cons]
    refine ⟨fun hmem => ?_, ih (List.Nodup.sublist ?_ h)⟩
    · obtain ⟨st', hst', heq⟩ := List.mem_map.mp hmem
      refine hd.apart st.ref.mark.id ⟨_, st.self_mem_nodes, rfl⟩ ⟨.statement st', ?_, heq⟩
      exact Stmt.mem_nodesOfList.mpr ⟨st', hst', st'.self_mem_nodes⟩
    · exact (List.sublist_append_right st.nodes _).map _

theorem Step.hoist {all : List Node} {s : State} {i : ScopeId} {ss : List Stmt}
    (hd : (ss.map fun st => st.ref.mark.id).Nodup) (hall : ∀ st ∈ ss, .statement st ∈ all) :
    Step all (hoists ss) s (s.after (hoist ss i)) ∧ ∀ st ∈ ss, isHoisted st = true →
      ((s.after (hoist ss i)).table.attributes st.ref.mark.id).scope = some i := by
  induction ss generalizing s with
  | nil => exact ⟨.refl s, by simp⟩
  | cons st rest ih =>
    rw [List.map_cons, List.nodup_cons] at hd
    have hrest := fun s => ih (s := s) hd.2 fun st hst => hall st (List.mem_cons_of_mem _ hst)
    have hle : ∀ duty id, hoists rest duty id → hoists (st :: rest) duty id := by
      rintro duty id ⟨hduty, st', hst', hid⟩
      exact ⟨hduty, st', List.mem_cons_of_mem _ hst', hid⟩
    have hdeclared : ∀ (d : Decl) (name : String),
        (Node.statement st).declares = some d → d.isTyped = false → isHoisted st = true →
        s.after (Analysis.hoist (st :: rest) i) =
          (s.after (declare i name d st.ref.mark)).after (Analysis.hoist rest i) →
        Step all (hoists (st :: rest)) s (s.after (Analysis.hoist (st :: rest) i)) ∧
          ∀ st' ∈ st :: rest, isHoisted st' = true →
          ((s.after (Analysis.hoist (st :: rest) i)).table.attributes st'.ref.mark.id).scope =
            some i := by
      intro d name hdeclares htyped hhoisted heq
      obtain ⟨hadds, hfiled⟩ : Adds all (.one .scope st.ref.mark.id) i d s
          (s.after (declare i name d st.ref.mark)) ∧ _ := Adds.declare s i name d (Share.one_self ..)
      obtain ⟨hstep, hscopes⟩ := hrest (s.after (declare i name d st.ref.mark))
      have hfirst : Step all (.one .scope st.ref.mark.id) s
          (s.after (declare i name d st.ref.mark)) :=
        hadds.step (hall st List.mem_cons_self) hdeclares (Share.one_self ..) hfiled
          fun ht => by rw [htyped] at ht; cases ht
      have hother : ¬ hoists rest .scope st.ref.mark.id := by
        rintro ⟨-, st', hst', -, hid⟩
        exact hd.1 (List.mem_map.mpr ⟨st', hst', hid⟩)
      have hone : hoists (st :: rest) .scope st.ref.mark.id :=
        ⟨rfl, st, List.mem_cons_self, hhoisted, rfl⟩
      rw [heq]
      refine ⟨hfirst.trans hstep (Share.one_le hone) hle ?_, fun st' hst' hh => ?_⟩
      · rintro _ _ ⟨rfl, rfl⟩
        exact hother
      · rcases List.mem_cons.mp hst' with rfl | hst'
        · rw [hstep.scope hother, hfiled]
        · exact hscopes st' hst' hh
    cases st with
    | struct d => exact hdeclared (.struct d) d.name rfl rfl rfl rfl
    | function d => exact hdeclared (.function d) d.name rfl rfl rfl rfl
    | _ =>
      refine ⟨(hrest s).1.mono hle, fun st' hst' hh => ?_⟩
      rcases List.mem_cons.mp hst' with rfl | hst'
      · cases hh
      · exact (hrest s).2 st' hst' hh

end Analysis

end LogicScript
