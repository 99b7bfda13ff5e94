import LogicScript.Proofs.Contract

/-! What the basic operations keep.

A contract admits values if the operations on frames, objects, output and trace keep it as long as
only such values are stored. The faults that a sound analysis rules out are left to whoever uses an
operation; all other faults are admitted. -/
namespace LogicScript

open Eval

/-- Whether the fault tells that the attributes of the program and the frames do not fit. -/
def Cause.isStatic : Cause → Bool
  | .noFrame _ | .noFrameToRead _ _ | .noFrameToWrite _ _ | .rootWithoutScope
  | .nodeWithoutScope _ | .functionWithoutScope _ | .ruleWithoutScope _
  | .unresolvedReference _ | .notStruct _ => true
  | _ => false

/-- Neither a function nor Void. -/
def Value.IsPlain (v : Value) : Prop := v.kind ≠ .function ∧ v ≠ .void

namespace Operator

variable {op : BinaryOp} {left right : Value} {v : Value} {cause : Cause}

theorem isPlain_onInts (h : onInts op left right = .ok v) : v.IsPlain := by
  unfold onInts at h
  repeat' split at h
  all_goals cases h
  all_goals simp [Value.IsPlain, Value.kind]

theorem isPlain_onFloats (h : onFloats op left right = .ok v) : v.IsPlain := by
  unfold onFloats at h
  repeat' split at h
  all_goals cases h
  all_goals simp [Value.IsPlain, Value.kind]

theorem isStatic_onInts (h : onInts op left right = .error cause) : cause.isStatic = false := by
  unfold onInts at h
  repeat' split at h
  all_goals cases h
  all_goals rfl

theorem isStatic_onFloats (h : onFloats op left right = .error cause) :
    cause.isStatic = false := by
  unfold onFloats at h
  repeat' split at h
  all_goals cases h
  all_goals rfl

theorem isPlain_apply {s t : Ty} (h : apply op s t left right = .ok v) : v.IsPlain := by
  unfold apply at h
  split at h
  · cases h
    simp [Value.IsPlain, Value.kind]
  · split at h
    · cases h
      simp [Value.IsPlain, Value.kind]
    · split at h
      · exact isPlain_onFloats h
      · exact isPlain_onInts h

theorem isStatic_apply {s t : Ty} (h : apply op s t left right = .error cause) :
    cause.isStatic = false := by
  unfold apply at h
  split at h
  · cases h
  · split at h
    · cases h
    · split at h
      · exact isStatic_onFloats h
      · exact isStatic_onInts h

end Operator

/-- All values of an object are such values. -/
def Object.All (V : Value → Prop) : Object → Prop
  | .array elements => ∀ v ∈ elements, V v
  | .struct _ fields => ∀ name v, fields.get? name = some v → V v

namespace Object.All

variable {V : Value → Prop} {object : Object} {v : Value}

theorem setElement (h : object.All V) (hv : V v) (i : Nat) : (object.setElement i v).All V := by
  cases object with
  | array elements =>
    intro w hw
    rcases Array.mem_or_eq_of_mem_setIfInBounds hw with hold | rfl
    · exact h w hold
    · exact hv
  | struct d fields => exact h

theorem setField (h : object.All V) (hv : V v) (name : String) :
    (object.setField name v).All V := by
  cases object with
  | array elements => exact h
  | struct d fields =>
    intro other w hw
    by_cases hn : other = name
    · subst hn
      rw [Bindings.get?_set_self] at hw
      exact Option.some.inj hw ▸ hv
    · rw [Bindings.get?_set_ne _ _ hn] at hw
      exact h other w hw

end Object.All

theorem Machine.frame_of_frames {m m' : Machine} (h : m'.frames = m.frames) (f : FrameId) :
    m'.frame f = m.frame f := by
  unfold frame
  rw [h]

/-- All values that are bound or held by objects are such values. -/
structure Machine.AllValues (V : Value → Prop) (m : Machine) : Prop where
  bound : ∀ f name v, (m.frame f).bindings.get? name = some v → V v
  held : ∀ (o : ObjectId) object, m.objects[o]? = some object → object.All V

namespace Machine.AllValues

variable {V : Value → Prop} {m : Machine} {f : FrameId} {o : ObjectId} {object : Object}
  {name : String} {v : Value} {scope : ScopeId} {store : PredicateStore}

theorem empty : ({} : Machine).AllValues V := by
  refine ⟨fun f name v h => ?_, fun o object h => ?_⟩
  · have hempty : (({} : Machine).frame f).bindings = ∅ := rfl
    simp [hempty] at h
  · simp at h

theorem define (h : m.AllValues V) (hv : V v) : (m.define f name v).AllValues V := by
  refine ⟨fun i other w hw => ?_, h.held⟩
  rw [Machine.define, frame_updateFrame] at hw
  split at hw
  · by_cases hn : other = name
    · subst hn
      simp only [Bindings.get?_set_self, Option.some.injEq] at hw
      exact hw ▸ hv
    · simp only [Bindings.get?_set_ne _ _ hn] at hw
      exact h.bound i other w hw
  · exact h.bound i other w hw

theorem push (h : m.AllValues V) : (m.push scope).2.AllValues V := by
  refine ⟨fun i name v hv => ?_, h.held⟩
  rw [frame_push] at hv
  split at hv
  · simp at hv
  · exact h.bound i name v hv

theorem setStore (h : m.AllValues V) : (m.setStore f store).AllValues V :=
  ⟨fun i name v hv => h.bound i name v (bindings_setStore m f i store ▸ hv), h.held⟩

theorem alloc (h : m.AllValues V) (ho : object.All V) : (m.alloc object).2.AllValues V := by
  refine ⟨h.bound, fun i other hi => ?_⟩
  simp only [Machine.alloc, Array.getElem?_push] at hi
  split at hi
  · cases hi
    exact ho
  · exact h.held i other hi

theorem updateObject {change : Object → Object} (h : m.AllValues V)
    (hchange : ∀ object : Object, object.All V → (change object).All V) :
    (m.updateObject o change).AllValues V := by
  refine ⟨h.bound, fun i other hi => ?_⟩
  simp only [Machine.updateObject, Array.getElem?_modify] at hi
  split at hi
  · obtain ⟨object, hobject, rfl⟩ := Option.map_eq_some_iff.mp hi
    exact hchange object (h.held i object hobject)
  · exact h.held i other hi

end Machine.AllValues

namespace Machine

/-- Binds parameters in a frame one after the other. -/
def bindAll (t : Table) (f : FrameId) : List Parameter → List Value → Machine → Machine
  | p :: ps, v :: vs, m => bindAll t f ps vs (m.define f p.name (v.widen (t.typeOf p.mark)))
  | _, _, m => m

/-- A frame of a scope is the newest one of a machine and was not there before. -/
def Entered (m : Machine) (scope : ScopeId) (m' : Machine) : Prop :=
  m.frames.size < m'.frames.size ∧ (m'.frame m.frames.size).scope = scope

theorem entered_push (m : Machine) (scope : ScopeId) : m.Entered scope (m.push scope).2 := by
  refine ⟨by simp, ?_⟩
  rw [frame_push, if_pos rfl]

theorem Entered.bindAll {m m' : Machine} {scope : ScopeId} (h : m.Entered scope m') (t : Table)
    (f : FrameId) (ps : List Parameter) (vs : List Value) :
    m.Entered scope (m'.bindAll t f ps vs) := by
  induction ps generalizing m' vs with
  | nil => exact h
  | cons p ps ih =>
    cases vs with
    | nil => exact h
    | cons v vs => exact ih ⟨by simpa using h.1, by simpa using h.2⟩ vs

end Machine

theorem Eval.bindParameters_apply (ctx : Context) {m : Machine} {f : FrameId} {scope : ScopeId}
    (hs : (m.frame f).scope = scope) (env : Env) (ps : List Parameter) (vs : List Value) :
    bindParameters ctx (f :: env) scope ps vs m = .ok () (m.bindAll ctx.table f ps vs) := by
  induction ps generalizing m vs with
  | nil => rfl
  | cons p ps ih =>
    cases vs with
    | nil => rfl
    | cons v vs =>
      subst hs
      have hw : write ctx (f :: env) (m.frame f).scope p.name v (ctx.table.typeOf p.mark) m =
          .ok () (m.define f p.name (v.widen (ctx.table.typeOf p.mark))) := by
        rw [write_apply, Machine.write, Machine.slot, Machine.frameOf?_cons_self]
        rfl
      rw [bindParameters, bind_of_ok hw, ih (by simp)]
      rfl

namespace Contract

/-- Nothing but functions and Void is refused as a value to store, and storing the others keeps the
contract. -/
structure Admits (c : Contract) (V : Value → Prop) : Prop where
  faults : ∀ cause node, cause.isStatic = false → c.Blame (.fault ⟨cause, node⟩)
  endless : c.Blame .outOfFuel := by exact True.intro
  stuck : ∀ {m : Machine} {v}, m.text? v = none → c.Endless m := by exact fun _ => True.intro
  plain : ∀ v : Value, v.IsPlain → V v
  bound : ∀ {m f name v}, c.Inv m → (m.frame f).bindings.get? name = some v → V v
  held : ∀ {m : Machine} {o : ObjectId} {object : Object}, c.Inv m → m.objects[o]? = some object →
    object.All V
  fresh : ∀ {m}, c.Inv m → c.Own m.frames.size := by exact fun _ => True.intro
  define : ∀ {m f name v}, c.Own f → c.Inv m → V v →
    c.Inv (m.define f name v) ∧ c.Leads m (m.define f name v)
  push : ∀ {m scope}, c.Inv m → c.Inv (m.push scope).2 ∧ c.Leads m (m.push scope).2
  alloc : ∀ {m object}, c.Inv m → object.All V →
    c.Inv (m.alloc object).2 ∧ c.Leads m (m.alloc object).2
  setElement : ∀ {m o i v}, c.Inv m → V v →
    c.Inv (m.updateObject o (.setElement i v)) ∧ c.Leads m (m.updateObject o (.setElement i v))
  setField : ∀ {m : Machine} {o : ObjectId} {name v}, c.Inv m → V v →
    (∀ d fields, m.objects[o]? = some (.struct d fields) → fields.contains name = true) →
    c.Inv (m.updateObject o (.setField name v)) ∧ c.Leads m (m.updateObject o (.setField name v))
  print : ∀ {m line}, c.Inv m → c.Inv (m.print line) ∧ c.Leads m (m.print line)
  log : ∀ {m e}, c.Inv m → c.Inv (m.log e) ∧ c.Leads m (m.log e)
  addFact : ∀ {m f functor tuple store}, c.Own f → c.Inv m → (∀ v ∈ tuple, v.kind ≠ .void) →
    (m.frame f).predicates.addFact functor tuple = .ok store →
    c.Inv (m.setStore f store) ∧ c.Leads m (m.setStore f store)

namespace Admits

variable {c : Contract} {V : Value → Prop}

theorem widen (ha : c.Admits V) {v : Value} {t : Ty} (hv : V v) : V (v.widen t) := by
  unfold Value.widen
  split
  · exact ha.plain _ (by simp [Value.IsPlain, Value.kind])
  · exact hv

theorem fillFields (ha : c.Admits V) {ctx : Context} {d : StructDecl} {fields : List FieldDecl}
    {args : List Value} {filled : Bindings Value} (hargs : ∀ v ∈ args, V v)
    (hfilled : ∀ name v, filled.get? name = some v → V v) :
    Object.All V (.struct d (Eval.fillFields ctx fields args filled)) := by
  induction fields generalizing args filled with
  | nil => exact hfilled
  | cons field fields ih =>
    cases args with
    | nil => exact hfilled
    | cons a args =>
      refine ih (fun v hv => hargs v (List.mem_cons_of_mem _ hv)) fun name v hv => ?_
      by_cases hn : name = field.name
      · subst hn
        rw [Bindings.get?_set_self] at hv
        cases hv
        exact ha.widen (hargs a List.mem_cons_self)
      · rw [Bindings.get?_set_ne _ _ hn] at hv
        exact hfilled name v hv

theorem bindAll (ha : c.Admits V) (t : Table) {f : FrameId} (hf : c.Own f) (ps : List Parameter)
    {m : Machine} {args : List Value} (hm : c.Inv m) (hargs : ∀ v ∈ args, V v) :
    c.Inv (m.bindAll t f ps args) ∧ c.Leads m (m.bindAll t f ps args) := by
  induction ps generalizing m args with
  | nil => exact ⟨hm, c.refl m⟩
  | cons p ps ih =>
    cases args with
    | nil => exact ⟨hm, c.refl m⟩
    | cons a args =>
      have hv : V (a.widen (t.typeOf p.mark)) := ha.widen (hargs a List.mem_cons_self)
      have hd : c.Inv (m.define f p.name _) ∧ c.Leads m (m.define f p.name _) :=
        ha.define hf hm hv
      have hrest := ih hd.1 fun v hv => hargs v (List.mem_cons_of_mem _ hv)
      exact ⟨hrest.1, c.trans hd.2 hrest.2⟩

end Admits

/-- A node has a frame on the chain for the scope it belongs to, which may be changed, or else the
contract puts up with the fault. -/
def Locates (c : Contract) (ctx : Context) (m : Machine) (env : Env) (node : NodeRef) : Prop :=
  match (ctx.table.attributes node.mark.id).scope with
  | none => c.Blame (.fault ⟨.nodeWithoutScope node.kind, none⟩)
  | some scope =>
    (m.frameOf? env scope = none →
      c.Blame (.fault ⟨.noFrame (ctx.table.scopes.get scope).text, none⟩) ∧
      ∀ name, c.Blame (.fault ⟨.noFrameToRead (ctx.table.scopes.get scope).text name, none⟩) ∧
        c.Blame (.fault ⟨.noFrameToWrite (ctx.table.scopes.get scope).text name, none⟩)) ∧
    ∀ f, m.frameOf? env scope = some f → c.Own f

theorem Locates.blame {c : Contract} {ctx : Context} {m : Machine} {env : Env} {node : NodeRef}
    (h : c.Locates ctx m env node) (hs : (ctx.table.attributes node.mark.id).scope = none) :
    c.Blame (.fault ⟨.nodeWithoutScope node.kind, none⟩) := by
  unfold Locates at h
  rw [hs] at h
  exact h

namespace Honours

variable {c : Contract} {V : Value → Prop} {m : Machine} {ctx : Context} {env : Env}

theorem scopeOf {node : NodeRef}
    (h : (ctx.table.attributes node.mark.id).scope = none →
      c.Blame (.fault ⟨.nodeWithoutScope node.kind, none⟩)) :
    c.Honours m (scopeOf ctx node) (scopeOf ctx node) fun m' scope =>
      m' = m ∧ (ctx.table.attributes node.mark.id).scope = some scope := by
  unfold Eval.scopeOf
  cases hs : (ctx.table.attributes node.mark.id).scope with
  | none => exact raise (h hs)
  | some scope => exact pure ⟨rfl, rfl⟩

theorem arity {name : String} {wanted got : Nat} (ha : c.Admits V) :
    c.Honours m (arity name wanted got) (arity name wanted got) fun m' _ =>
      m' = m ∧ wanted = got := by
  unfold Eval.arity
  split
  · exact pure ⟨rfl, ‹_›⟩
  · exact raise (ha.faults _ _ rfl)

theorem log {e : Event} (ha : c.Admits V) :
    c.Honours m (log e) (log e) fun m' _ => m' = m.log e :=
  change (fun hm => (ha.log hm).1) (fun hm => (ha.log hm).2) rfl

theorem display {v : Value} (ha : c.Admits V) :
    c.Honours m (display v) (display v) fun m' text => m' = m ∧ m.text? v = some text :=
  display_of_blame ha.endless ha.stuck

theorem push {scope : ScopeId} (ha : c.Admits V) :
    c.Honours m (push scope) (push scope) fun m' f =>
      m' = (m.push scope).2 ∧ f = m.frames.size ∧ c.Own f :=
  fun hm => ⟨⟨(ha.push hm).1, (ha.push hm).2, rfl, rfl, ha.fresh hm⟩, .inl rfl⟩

theorem alloc {object : Object} (ha : c.Admits V) (ho : object.All V) :
    c.Honours m (alloc object) (alloc object) fun _ _ => True :=
  fun hm => ⟨⟨(ha.alloc hm ho).1, (ha.alloc hm ho).2, trivial⟩, .inl rfl⟩

theorem read {node : NodeRef} {scope : ScopeId} {name : String} (ha : c.Admits V)
    (hs : (ctx.table.attributes node.mark.id).scope = some scope)
    (h : c.Locates ctx m env node) :
    c.Honours m (read ctx env scope name) (read ctx env scope name) fun _ v => V v := by
  intro hm
  simp only [Locates, hs] at h
  refine (get_bind (lift ?_ ?_) : c.Honours m (Eval.read ctx env scope name) _ _) hm
  · intro v hv
    unfold Machine.read at hv
    split at hv
    · cases hv
    · split at hv
      · cases hv
      · cases hv
        exact ha.bound hm ‹_›
  · intro cause hc
    unfold Machine.read at hc
    split at hc
    · cases hc
      exact ((h.1 ‹_›).2 name).1
    · split at hc
      · cases hc
        exact ha.faults _ _ rfl
      · cases hc

theorem write {node : NodeRef} {scope : ScopeId} {name : String} {v : Value} {target : Ty}
    (ha : c.Admits V) (hs : (ctx.table.attributes node.mark.id).scope = some scope)
    (h : c.Locates ctx m env node) (hv : V v) :
    c.Honours m (write ctx env scope name v target) (write ctx env scope name v target)
      fun _ _ => True := by
  simp only [Locates, hs] at h
  refine get_bind ((lift (P := fun m' f => m' = m ∧ c.Own f) (fun f hf => ⟨rfl, ?_⟩) ?_).bind ?_)
  · unfold Machine.slot at hf
    split at hf
    · cases hf
    · cases hf
      exact h.2 _ ‹_›
  · intro cause hc
    unfold Machine.slot at hc
    split at hc
    · cases hc
      exact ((h.1 ‹_›).2 name).2
    · cases hc
  · rintro m' f - ⟨rfl, hf⟩
    have hw : V (v.widen target) := ha.widen hv
    exact change (fun hm => (ha.define hf hm hw).1) (fun hm => (ha.define hf hm hw).2) trivial

theorem writeAt {node : NodeRef} {name : String} {v : Value} {target : Ty} (ha : c.Admits V)
    (h : c.Locates ctx m env node) (hv : V v) :
    c.Honours m (writeAt ctx env node name v target) (writeAt ctx env node name v target)
      fun _ _ => True := by
  refine (scopeOf h.blame).bind ?_
  rintro m' scope - ⟨rfl, hs⟩
  exact write ha hs h hv

theorem storeFrame {node : NodeRef} (h : c.Locates ctx m env node) :
    c.Honours m (storeFrame ctx env node) (storeFrame ctx env node) fun m' f =>
      m' = m ∧ c.Own f := by
  refine (scopeOf h.blame).bind ?_
  rintro m' scope - ⟨rfl, hs⟩
  simp only [Locates, hs] at h
  refine get_bind ?_
  split
  · exact pure ⟨rfl, h.2 _ ‹_›⟩
  · exact raise (h.1 ‹_›).1

theorem changeStore {f : FrameId} {change : PredicateStore → Except Cause PredicateStore}
    (hok : ∀ store, change (m.frame f).predicates = .ok store → c.Inv m →
      c.Inv (m.setStore f store) ∧ c.Leads m (m.setStore f store))
    (herror : ∀ cause, change (m.frame f).predicates = .error cause →
      c.Blame (.fault ⟨cause, none⟩)) :
    c.Honours m (changeStore f change) (changeStore f change) fun _ _ => True := by
  refine get_bind ((lift (P := fun m' store => m' = m ∧ change (m.frame f).predicates = .ok store)
    (fun _ hs => ⟨rfl, hs⟩) herror).bind ?_)
  rintro m' store - ⟨rfl, hs⟩
  exact Honours.change (fun hm => (hok store hs hm).1) (fun hm => (hok store hs hm).2) trivial

theorem addFact {f : FrameId} {functor : String} {tuple : List Value} (ha : c.Admits V)
    (hf : c.Own f) (htuple : ∀ v ∈ tuple, v.kind ≠ .void) :
    c.Honours m (Eval.changeStore f (·.addFact functor tuple))
      (Eval.changeStore f (·.addFact functor tuple)) fun _ _ => True := by
  refine changeStore (fun store hs hm => ha.addFact hf hm htuple hs) ?_
  intro cause hc
  unfold PredicateStore.addFact at hc
  split at hc
  · cases hc
  · cases hc
    exact ha.faults _ _ rfl
  · split at hc
    · cases hc
      exact ha.faults _ _ rfl
    · cases hc

theorem reference {r : Reference} (ha : c.Admits V)
    (hnone : (ctx.table.attributes r.mark.id).decl = none →
      c.Blame (.fault ⟨.unresolvedReference r.name, none⟩))
    (hfun : ∀ d, (ctx.table.attributes r.mark.id).decl = some (.function d) → V (.function d))
    (h : c.Locates ctx m env ⟨.reference, r.mark⟩) :
    c.Honours m (reference ctx env r) (reference ctx env r) fun _ v => V v := by
  unfold Eval.reference
  split
  · exact raise (hnone ‹_›)
  · exact pure (ha.plain _ (by simp [Value.IsPlain, Value.kind]))
  · exact pure (ha.plain _ (by simp [Value.IsPlain, Value.kind]))
  · exact pure (hfun _ ‹_›)
  · exact pure (ha.plain _ (by simp [Value.IsPlain, Value.kind]))
  · refine (scopeOf h.blame).bind ?_
    rintro m' scope - ⟨rfl, hs⟩
    exact read ha hs h

theorem constructor {mark : Mark} {name : String} (ha : c.Admits V)
    (hnone : (∀ d, (ctx.table.attributes mark.id).decl ≠ some (.struct d)) →
      c.Blame (.fault ⟨.notStruct name, none⟩)) :
    c.Honours m (constructor ctx mark name) (constructor ctx mark name) fun _ v => V v := by
  unfold Eval.constructor
  split
  · exact pure (ha.plain _ (by simp [Value.IsPlain, Value.kind]))
  · rename_i h
    exact raise (hnone h)

theorem fieldOf {stem : Value} {name : String} (ha : c.Admits V) :
    c.Honours m (fieldOf stem name) (fieldOf stem name) fun _ v => V v := by
  have missing : ∀ kind, c.Honours m (Eval.raise (.noField kind name) : Eval Value)
      (Eval.raise (.noField kind name)) fun _ v => V v := fun _ => raise (ha.faults _ _ rfl)
  refine get_bind ?_
  dsimp only
  split
  · exact raise (ha.faults _ _ rfl)
  · split
    · split
      · exact pure (ha.plain _ (by simp [Value.IsPlain, Value.kind]))
      · exact missing _
    · exact missing _
  · split
    · rename_i ho
      split
      · intro hm
        have hall := ha.held hm ho
        exact pure (hall name _ ‹_›) hm
      · exact missing _
    · exact missing _
  · exact missing _

theorem element {array index : Value} (ha : c.Admits V) :
    c.Honours m (element array index) (element array index) fun _ _ => True := by
  unfold Eval.element
  split
  · exact raise (ha.faults _ _ rfl)
  · refine get_bind ?_
    dsimp only
    split
    · split
      · exact pure trivial
      · exact raise (ha.faults _ _ rfl)
    · exact raise (ha.faults _ _ rfl)
  · exact raise (ha.faults _ _ rfl)

theorem getElement {o : ObjectId} {i : Nat} (ha : c.Admits V) :
    c.Honours m (getElement o i) (getElement o i) fun _ v => V v := by
  have habsent : V .absent := ha.plain _ (by simp [Value.IsPlain, Value.kind])
  refine get_bind ?_
  split
  · rename_i elements he
    intro hm
    refine pure ?_ hm
    by_cases hi : i < elements.size
    · have hall := ha.held hm he
      simpa [Array.getD, hi] using hall elements[i] (Array.getElem_mem hi)
    · simpa [Array.getD, hi] using habsent
  · exact pure habsent

theorem setElement {o : ObjectId} {i : Nat} {v : Value} (ha : c.Admits V) (hv : V v) :
    c.Honours m (setElement o i v) (setElement o i v) fun _ _ => True :=
  change (fun hm => (ha.setElement hm hv).1) (fun hm => (ha.setElement hm hv).2) trivial

theorem setField {stem : Value} {name : String} {v : Value} (ha : c.Admits V) (hv : V v) :
    c.Honours m (setField stem name v) (setField stem name v) fun _ _ => True := by
  unfold Eval.setField
  split
  · exact raise (ha.faults _ _ rfl)
  · rename_i o
    refine get_bind ?_
    split
    · rename_i d fields ho
      split
      · rename_i hcontains
        have hfield : ∀ d' fields', m.objects[o]? = some (Object.struct d' fields') →
            fields'.contains name = true := fun d' fields' ho' => by
          cases ho.symm.trans ho'
          exact hcontains
        exact change (fun hm => (ha.setField hm hv hfield).1) (fun hm => (ha.setField hm hv hfield).2)
          trivial
      · exact raise (ha.faults _ _ rfl)
    · exact raise (ha.faults _ _ rfl)
  · exact raise (ha.faults _ _ rfl)

theorem construct {d : StructDecl} {args : List Value} (ha : c.Admits V)
    (hargs : ∀ v ∈ args, V v) :
    c.Honours m (construct ctx d args) (construct ctx d args) fun _ v => V v := by
  refine (arity ha).bind fun m' _ _ _ => ?_
  refine (alloc ha (ha.fillFields hargs fun _ _ h => by simp at h)).bind fun _ _ _ _ => ?_
  exact pure (ha.plain _ (by simp [Value.IsPlain, Value.kind]))

theorem native {name : String} {args : List Value} (ha : c.Admits V) :
    c.Honours m (native name args) (native name args) fun _ v => V v := by
  refine (arity ha).bind fun m' _ _ _ => (display ha).bind fun m₁ _ _ _ => ?_
  refine (change (Q := fun _ _ => True) (fun hm => (ha.print hm).1) (fun hm => (ha.print hm).2)
    trivial).bind fun _ _ _ _ => ?_
  exact pure (ha.plain _ (by simp [Value.IsPlain, Value.kind]))

theorem bindParameters {f : FrameId} {scope : ScopeId} {ps : List Parameter} {args : List Value}
    (ha : c.Admits V) (hf : c.Own f) (hs : (m.frame f).scope = scope) (hargs : ∀ v ∈ args, V v) :
    c.Honours m (bindParameters ctx (f :: env) scope ps args)
      (bindParameters ctx (f :: env) scope ps args) fun m' _ =>
      m' = m.bindAll ctx.table f ps args := by
  intro hm
  rw [bindParameters_apply ctx hs]
  have hkept := ha.bindAll ctx.table hf ps hm hargs
  exact ⟨⟨hkept.1, hkept.2, rfl⟩, .inl rfl⟩

theorem declareAtom {d : AtomDecl} (ha : c.Admits V)
    (h : ∀ m', c.Leads m m' → c.Locates ctx m' env ⟨.atomDeclaration, d.mark⟩) :
    c.Honours m (declareAtom ctx env d) (declareAtom ctx env d) fun _ _ => True := by
  refine (scopeOf (h m (c.refl m)).blame).bind ?_
  rintro m' scope - ⟨rfl, hs⟩
  refine (log ha).bind fun m₁ _ hl _ => ?_
  exact write ha hs (h m₁ hl) (ha.plain _ (by simp [Value.IsPlain, Value.kind]))

theorem declareRule {d : RuleDecl} (ha : c.Admits V)
    (hscope : (ctx.table.attributes d.mark.id).bodyScope = none →
      c.Blame (.fault ⟨.ruleWithoutScope d.functor, none⟩))
    (hslot : c.Locates ctx m env ⟨.ruleDeclaration, d.mark⟩)
    (hrule : ∀ scope f store, (ctx.table.attributes d.mark.id).bodyScope = some scope → c.Own f →
      (m.frame f).predicates.setRule d.functor ⟨d, scope, env⟩ = .ok store → c.Inv m →
      c.Inv (m.setStore f store) ∧ c.Leads m (m.setStore f store)) :
    c.Honours m (declareRule ctx env d) (declareRule ctx env d) fun _ _ => True := by
  unfold Eval.declareRule
  split
  · exact raise (hscope ‹_›)
  · rename_i scope hs
    refine (storeFrame hslot).bind ?_
    rintro m₁ f - ⟨rfl, hf⟩
    refine (changeStore (fun store => hrule scope f store hs hf) fun cause hc => ?_).bind
      fun m₂ _ _ _ => (log ha).weaken fun _ _ _ _ => trivial
    unfold PredicateStore.setRule at hc
    split at hc
    · cases hc
      exact ha.faults _ _ rfl
    · cases hc

end Honours

end Contract

end LogicScript
