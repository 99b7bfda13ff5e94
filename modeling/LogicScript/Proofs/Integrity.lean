import LogicScript.Proofs.Locality
import LogicScript.Proofs.ResultKinds
import LogicScript.Proofs.Symmetry
import LogicScript.Proofs.Voids

/-! A run refers to no frame and to no object that is not there.

Frames and objects are never taken away, so what refers to one of them keeps its meaning. What an
evaluation gives is judged by the machine that it leaves behind, as that is where the objects are that
the value refers to; a contract with one predicate for the values of all machines could not say so. In
this way every state of a run is complete, and what holds of complete machines holds there: pure
expressions are stable, and the answer of a resolution is the one that has a derivation. -/
namespace LogicScript

open Eval

namespace Bindings

variable {α : Type} {b : Bindings α} {name : String} {a c : α}

/-- What is bound after a name was written is what was written, or was bound before. -/
theorem mem_set (h : c ∈ (b.set name a).toList.map (·.2)) :
    c = a ∨ c ∈ b.toList.map (·.2) := by
  obtain ⟨l⟩ := b
  have hput : c ∈ (put l name a).map (·.2) := h
  show c = a ∨ c ∈ l.map (·.2)
  clear h
  induction l with
  | nil => exact .inl (by simpa [put] using hput)
  | cons p rest ih =>
    by_cases hp : p.1 = name
    · simp only [put, hp, if_true, List.map_cons, List.mem_cons] at hput ⊢
      exact hput.imp_right .inr
    · simp only [put, hp, if_false, List.map_cons, List.mem_cons] at hput ⊢
      exact or_left_comm.mp (hput.imp_right ih)

theorem mem_of_get? (h : b.get? name = some a) : a ∈ b.toList.map (·.2) := by
  obtain ⟨l⟩ := b
  have hfind : find l name = some a := h
  show a ∈ l.map (·.2)
  clear h
  induction l with
  | nil => cases hfind
  | cons p rest ih =>
    by_cases hp : p.1 = name
    · simp only [find, hp, if_true, Option.some.injEq] at hfind
      exact hfind ▸ List.mem_cons_self
    · simp only [find, hp, if_false] at hfind
      exact List.mem_cons_of_mem _ (ih hfind)

end Bindings

namespace Object

variable {object : Object} {v w : Value}

theorem mem_setElement {i : Nat} (h : w ∈ (object.setElement i v).values) :
    w = v ∨ w ∈ object.values := by
  cases object with
  | array elements =>
    rcases Array.mem_or_eq_of_mem_setIfInBounds (Array.mem_toList_iff.mp h) with hold | hnew
    · exact .inr (Array.mem_toList_iff.mpr hold)
    · exact .inl hnew
  | struct d fields => exact .inr h

theorem mem_setField {name : String} (h : w ∈ (object.setField name v).values) :
    w = v ∨ w ∈ object.values := by
  cases object with
  | array elements => exact .inr h
  | struct d fields => exact Bindings.mem_set h

theorem mem_fillFields {ctx : Context} {d : StructDecl} {fs : List FieldDecl} {vs : List Value}
    {filled : Bindings Value} (h : w ∈ (Object.struct d (fillFields ctx fs vs filled)).values) :
    (∃ u ∈ vs, ∃ t, w = u.widen t) ∨ w ∈ (Object.struct d filled).values := by
  induction fs generalizing vs filled with
  | nil => exact .inr h
  | cons f fs ih =>
    cases vs with
    | nil => exact .inr h
    | cons u vs =>
      rcases ih h with ⟨u', hu', t, rfl⟩ | hfilled
      · exact .inl ⟨u', List.mem_cons_of_mem _ hu', t, rfl⟩
      · rcases Bindings.mem_set hfilled with rfl | hold
        · exact .inl ⟨u, List.mem_cons_self, _, rfl⟩
        · exact .inr hold

end Object

namespace Machine

/-- The frames of a chain are there. -/
def HasFrames (m : Machine) (env : Env) : Prop := ∀ f ∈ env, f < m.frames.size

/-- The object that a value refers to is there. -/
def Backs (m : Machine) (v : Value) : Prop := v.Within m.objects.size

variable {m : Machine} {env : Env} {f : FrameId} {o : ObjectId} {v : Value}
  {store : PredicateStore} {functor : String} {tuple : List Value}

theorem backs_of_kind (h : v.kind ≠ .array ∧ v.kind ≠ .struct) : m.Backs v := by
  rintro o (rfl | rfl)
  · exact absurd rfl h.1
  · exact absurd rfl h.2

theorem HasFrames.call (h : m.HasFrames env) (hf : f < m.frames.size) :
    m.HasFrames (callEnv env f) := by
  intro i hi
  rcases List.mem_cons.mp hi with rfl | hi
  · exact hf
  · exact h i (List.mem_of_getLast? (Option.mem_toList.mp hi))

namespace Complete

/-- Whether a machine is complete does not depend on the chain, but for the frames of the chain. -/
theorem chained (h : m.Complete []) (henv : m.HasFrames env) : m.Complete env :=
  ⟨⟨henv, h.rules⟩, h.bound, h.filed, h.held⟩

theorem empty : ({} : Machine).Complete [] :=
  ⟨⟨by simp, AllRules.empty⟩, fun _ _ _ h => (nomatch h), fun _ _ _ h => (nomatch h), by simp⟩

theorem print (h : m.Complete env) (line : String) : (m.print line).Complete env :=
  ⟨⟨h.chain, h.rules⟩, h.bound, h.filed, h.held⟩

theorem push (h : m.Complete env) (scope : ScopeId) : (m.push scope).2.Complete env where
  chain i hi := by
    rw [size_push]
    exact Nat.lt_succ_of_lt (h.chain i hi)
  rules i functor r hr j hj := by
    rw [predicates_push] at hr
    rw [size_push]
    exact Nat.lt_succ_of_lt (h.rules i functor r hr j hj)
  bound i name v hv := by
    rw [frame_push] at hv
    split at hv
    · cases hv
    · exact h.bound i name v hv
  filed i functor e he := by
    rw [predicates_push] at he
    exact h.filed i functor e he
  held := h.held

theorem facts (h : m.Complete env) : m.AllFacts fun tuple => ∀ v ∈ tuple, m.Backs v :=
  fun f functor tuples ht => h.filed f functor (.facts tuples) ht

/-- A store may take the place of another one if its rules and facts refer to nothing else. -/
theorem setStore (h : m.Complete env)
    (hrules : (m.setStore f store).AllRules fun _ r => m.HasFrames r.env)
    (hfacts : (m.setStore f store).AllFacts fun tuple => ∀ v ∈ tuple, m.Backs v) :
    (m.setStore f store).Complete env where
  chain i hi := by
    rw [size_setStore]
    exact h.chain i hi
  rules i functor r hr j hj := by
    rw [size_setStore]
    exact hrules i functor r hr j hj
  bound i name v hv := by
    rw [bindings_setStore] at hv
    exact h.bound i name v hv
  filed i functor e he := by
    cases e with
    | facts tuples => exact hfacts i functor tuples he
    | rule r => simp [Entry.tuples]
  held := h.held

theorem addFact (h : m.Complete env) (htuple : ∀ v ∈ tuple, m.Backs v)
    (hs : (m.frame f).predicates.addFact functor tuple = .ok store) :
    (m.setStore f store).Complete env :=
  h.setStore (AllRules.addFact h.rules hs) (h.facts.addFact htuple hs)

theorem setRule (h : m.Complete env) {r : Rule} (hr : m.HasFrames r.env)
    (hs : (m.frame f).predicates.setRule functor r = .ok store) :
    (m.setStore f store).Complete env :=
  h.setStore (AllRules.setRule (P := fun _ r => m.HasFrames r.env) h.rules hr hs) (h.facts.setRule hs)

theorem updateObject (h : m.Complete env) {change : Object → Object} (hv : m.Backs v)
    (hchange : ∀ (object : Object) (w : Value), w ∈ (change object).values →
      w = v ∨ w ∈ object.values) : (m.updateObject o change).Complete env := by
  have hsize : (m.updateObject o change).objects.size = m.objects.size := by
    simp [Machine.updateObject]
  refine ⟨⟨h.chain, h.rules⟩, fun i name v hv => hsize ▸ h.bound i name v hv,
    fun i functor e he => hsize ▸ h.filed i functor e he, fun i other hother w hw => ?_⟩
  rw [hsize]
  simp only [Machine.updateObject, Array.getElem?_modify] at hother
  split at hother
  · obtain ⟨object, hobject, rfl⟩ := Option.map_eq_some_iff.mp hother
    rcases hchange object w hw with rfl | hold
    · exact hv
    · exact h.held i object hobject w hold
  · exact h.held i other hother w hw

end Complete

end Machine

theorem Operator.backs_apply {op : BinaryOp} {s t : Ty} {left right v : Value} {m : Machine}
    (hjoins : ¬ joins op s t = true) (h : apply op s t left right = .ok v) : m.Backs v := by
  have hkind := apply_kind hjoins h
  refine Machine.backs_of_kind ⟨fun harray => ?_, fun hstruct => ?_⟩
  · rw [harray] at hkind
    unfold Analysis.operatorType at hkind
    repeat' split at hkind
    all_goals cases hkind
  · rw [hstruct] at hkind
    unfold Analysis.operatorType at hkind
    repeat' split at hkind
    all_goals cases hkind

/-- All that is referred to is there, and stays. -/
def integrity : Contract where
  Inv m := m.Complete []
  Leads m m' := m.frames.size ≤ m'.frames.size ∧ m.objects.size ≤ m'.objects.size ∧
    (m.Complete [] → m'.Complete [])
  Blame _ := True
  Stop _ := False
  refl _ := ⟨Nat.le_refl _, Nat.le_refl _, id⟩
  trans h h' := ⟨Nat.le_trans h.1 h'.1, Nat.le_trans h.2.1 h'.2.1, h'.2.2 ∘ h.2.2⟩
  blame_attach _ := trivial
  stop_attach h := h

namespace Integrity

variable {α : Type} {m m' : Machine} {env : Env} {v : Value} {vs : List Value} {ctx : Context}
  {sub sub' : Evaluator}

theorem frames_mono (h : m.HasFrames env) (hl : integrity.Leads m m') : m'.HasFrames env :=
  fun f hf => Nat.lt_of_lt_of_le (h f hf) hl.1

theorem backs_mono (h : m.Backs v) (hl : integrity.Leads m m') : m'.Backs v := h.mono hl.2.1

theorem backs_all_mono (h : ∀ v ∈ vs, m.Backs v) (hl : integrity.Leads m m') :
    ∀ v ∈ vs, m'.Backs v := fun v hv => backs_mono (h v hv) hl

section Operations

variable {f : FrameId} {scope : ScopeId} {name : String} {target : Ty} {node : NodeRef}

theorem raise {cause : Cause} {Q : Machine → α → Prop} :
    integrity.Honours m (Eval.raise cause) (Eval.raise cause) Q := .raise trivial

theorem raiseAt {cause : Cause} {Q : Machine → α → Prop} :
    integrity.Honours m (Eval.raiseAt cause node) (Eval.raiseAt cause node) Q := .raiseAt trivial

theorem plain (h : v.kind ≠ .array ∧ v.kind ≠ .struct) :
    integrity.Honours m (Pure.pure v) (Pure.pure v) Machine.Backs := .pure (Machine.backs_of_kind h)

theorem change {k : Machine → Machine} (hframes : m.frames.size ≤ (k m).frames.size)
    (hobjects : m.objects.size ≤ (k m).objects.size) (h : m.Complete [] → (k m).Complete []) :
    integrity.Honours m (modify k) (modify k) fun _ _ => True :=
  .change h (fun _ => ⟨hframes, hobjects, h⟩) trivial

theorem log {e : Event} : integrity.Honours m (Eval.log e) (Eval.log e) fun _ _ => True :=
  change (Nat.le_refl _) (Nat.le_refl _) fun h => h.log e

theorem display {v : Value} :
    integrity.Honours m (Eval.display v) (Eval.display v) fun m' text =>
      m' = m ∧ m.text? v = some text :=
  .display_of_blame trivial fun _ => trivial

theorem arity {wanted got : Nat} :
    integrity.Honours m (Eval.arity name wanted got) (Eval.arity name wanted got) fun _ _ => True := by
  unfold Eval.arity
  split
  · exact .pure trivial
  · exact raise

theorem scopeOf : integrity.Honours m (Eval.scopeOf ctx node) (Eval.scopeOf ctx node)
    fun _ _ => True :=
  (Contract.Honours.scopeOf fun _ => trivial).weaken fun _ _ _ _ => trivial

theorem push : integrity.Honours m (Eval.push scope) (Eval.push scope) fun m' f =>
    f < m'.frames.size := fun hm =>
  ⟨⟨hm.push scope, ⟨by simp, Nat.le_refl _, fun h => h.push scope⟩, by simp⟩, .inl rfl⟩

theorem alloc {object : Object} (h : ∀ v ∈ object.values, m.Backs v) :
    integrity.Honours m (Eval.alloc object) (Eval.alloc object) fun m' o =>
      o < m'.objects.size := fun hm =>
  ⟨⟨hm.alloc h, ⟨Nat.le_refl _, by simp, fun hm => hm.alloc h⟩, by simp⟩, .inl rfl⟩

theorem read : integrity.Honours m (Eval.read ctx env scope name) (Eval.read ctx env scope name)
    Machine.Backs := by
  intro hm
  refine (Contract.Honours.get_bind (.lift (fun v hv => ?_) fun _ _ => trivial) :
    integrity.Honours m (Eval.read ctx env scope name) _ _) hm
  unfold Machine.read at hv
  split at hv
  · cases hv
  · split at hv
    · cases hv
    · cases hv
      exact hm.bound _ _ _ ‹_›

theorem write (hv : m.Backs v) : integrity.Honours m (Eval.write ctx env scope name v target)
    (Eval.write ctx env scope name v target) fun _ _ => True := by
  refine .get_bind ((Contract.Honours.lift (P := fun m' _ => m' = m) (fun _ _ => rfl)
    fun _ _ => trivial).bind ?_)
  rintro m' f - rfl
  exact change (by simp) (Nat.le_refl _) fun hm => hm.define (hv.widen target)

theorem writeAt (hv : m.Backs v) : integrity.Honours m (Eval.writeAt ctx env node name v target)
    (Eval.writeAt ctx env node name v target) fun _ _ => True :=
  scopeOf.bind fun _ _ hl _ => write (backs_mono hv hl)

theorem bindParameters {ps : List Parameter} (hvs : ∀ v ∈ vs, m.Backs v) :
    integrity.Honours m (Eval.bindParameters ctx env scope ps vs)
      (Eval.bindParameters ctx env scope ps vs) fun _ _ => True := by
  induction ps generalizing m vs with
  | nil => exact .pure trivial
  | cons p ps ih =>
    cases vs with
    | nil => exact .pure trivial
    | cons v vs =>
      refine (write (hvs v List.mem_cons_self)).bind fun m' _ hl _ => ih ?_
      exact backs_all_mono (fun u hu => hvs u (List.mem_cons_of_mem _ hu)) hl

theorem storeFrame : integrity.Honours m (Eval.storeFrame ctx env node)
    (Eval.storeFrame ctx env node) fun _ _ => True := by
  refine scopeOf.bind fun m' scope _ _ => .get_bind ?_
  split
  · exact .pure trivial
  · exact raise

theorem changeStore {change : PredicateStore → Except Cause PredicateStore}
    (h : ∀ store, change (m.frame f).predicates = .ok store → m.Complete [] →
      (m.setStore f store).Complete []) :
    integrity.Honours m (Eval.changeStore f change) (Eval.changeStore f change) fun _ _ => True :=
  .changeStore (fun store hs hm => ⟨h store hs hm, by simp, Nat.le_refl _, h store hs⟩)
    fun _ _ => trivial

theorem reference {r : Reference} : integrity.Honours m (Eval.reference ctx env r)
    (Eval.reference ctx env r) Machine.Backs := by
  unfold Eval.reference
  split
  · exact raise
  · exact plain (by simp [Value.kind])
  · exact plain (by simp [Value.kind])
  · exact plain (by simp [Value.kind])
  · exact plain (by simp [Value.kind])
  · exact scopeOf.bind fun _ _ _ _ => read

theorem constructor {mark : Mark} : integrity.Honours m (Eval.constructor ctx mark name)
    (Eval.constructor ctx mark name) Machine.Backs := by
  unfold Eval.constructor
  split
  · exact plain (by simp [Value.kind])
  · exact raise

theorem fieldOf {stem : Value} : integrity.Honours m (Eval.fieldOf stem name)
    (Eval.fieldOf stem name) Machine.Backs := by
  refine .get_bind ?_
  dsimp only
  split
  · exact raise
  · split
    · split
      · exact plain (by simp [Value.kind])
      · exact raise
    · exact raise
  · split
    · rename_i ho
      split
      · rename_i v hget
        refine fun hm => Contract.Honours.pure (hm.held _ _ ho v ?_) hm
        exact Bindings.mem_of_get? hget
      · exact raise
    · exact raise
  · exact raise

theorem element {array index : Value} : integrity.Honours m (Eval.element array index)
    (Eval.element array index) fun _ _ => True := by
  unfold Eval.element
  split
  · exact raise
  · refine .get_bind ?_
    dsimp only
    split
    · split
      · exact .pure trivial
      · exact raise
    · exact raise
  · exact raise

theorem getElement {o : ObjectId} {i : Nat} : integrity.Honours m (Eval.getElement o i)
    (Eval.getElement o i) Machine.Backs := by
  refine .get_bind ?_
  split
  · rename_i elements ho
    by_cases hi : i < elements.size
    · have hmem : elements.getD i .absent ∈ (Object.array elements).values := by
        simp [Object.values, Array.getD, hi]
      exact fun hm => Contract.Honours.pure (hm.held _ _ ho _ hmem) hm
    · have hget : elements.getD i .absent = .absent := by simp [Array.getD, hi]
      rw [hget]
      exact plain (by simp [Value.kind])
  · exact plain (by simp [Value.kind])

theorem setElement {o : ObjectId} {i : Nat} (hv : m.Backs v) :
    integrity.Honours m (Eval.setElement o i v) (Eval.setElement o i v) fun _ _ => True :=
  change (Nat.le_refl _) (by simp [Machine.updateObject]) fun hm =>
    hm.updateObject hv fun _ _ => Object.mem_setElement

theorem setField {stem : Value} (hv : m.Backs v) :
    integrity.Honours m (Eval.setField stem name v) (Eval.setField stem name v) fun _ _ => True := by
  unfold Eval.setField
  split
  · exact raise
  · refine .get_bind ?_
    split
    · split
      · exact change (Nat.le_refl _) (by simp [Machine.updateObject]) fun hm =>
          hm.updateObject hv fun _ _ => Object.mem_setField
      · exact raise
    · exact raise
  · exact raise

theorem construct {d : StructDecl} (hvs : ∀ v ∈ vs, m.Backs v) :
    integrity.Honours m (Eval.construct ctx d vs) (Eval.construct ctx d vs) Machine.Backs := by
  refine arity.bind fun m₁ _ hl _ => (alloc fun w hw => ?_).bind fun m₂ o _ ho => .pure ?_
  · rcases Object.mem_fillFields hw with ⟨u, hu, t, rfl⟩ | hnone
    · exact (backs_mono (hvs u hu) hl).widen t
    · cases hnone
  · rintro i (⟨⟨⟩⟩ | ⟨⟨⟩⟩)
    exact ho

theorem native : integrity.Honours m (Eval.native name vs) (Eval.native name vs) Machine.Backs := by
  refine arity.bind fun m₁ _ _ _ => display.bind fun m₂ text _ _ => ?_
  refine (change (Nat.le_refl _) (Nat.le_refl _) fun hm => hm.print text).bind fun _ _ _ _ => ?_
  exact plain (by simp [Value.kind])

theorem declareAtom {d : AtomDecl} : integrity.Honours m (Eval.declareAtom ctx env d)
    (Eval.declareAtom ctx env d) fun _ _ => True :=
  scopeOf.bind fun _ _ _ _ => log.bind fun _ _ _ _ =>
    write (Machine.backs_of_kind (by simp [Value.kind]))

theorem declareRule {d : RuleDecl} (henv : m.HasFrames env) :
    integrity.Honours m (Eval.declareRule ctx env d) (Eval.declareRule ctx env d) fun _ _ => True := by
  unfold Eval.declareRule
  split
  · exact raise
  · refine storeFrame.bind fun m₁ f hl _ => ?_
    exact (changeStore fun store hs hm => hm.setRule (frames_mono henv hl) hs).bind fun _ _ _ _ => log

theorem watched {x : Eval α} {Q : Machine → α → Prop} (h : integrity.Honours m x x Q)
    (o : Option α → Machine → Option Fault) :
    integrity.Honours m (Eval.watched o x) (Eval.watched o x) Q :=
  (h.watched_self fun _ _ _ _ => trivial).weaken fun _ _ _ hQ => hQ.1

end Operations

/-- The frames that the body of a loop brings along. -/
def bodyFrames : LoopBody → List FrameId
  | .block inner _ => inner
  | .statement _ => []

/-- Requests on chains that are there leave no machine behind in which anything is missing, and give
no value of which the object is missing. -/
structure Upholds (sub sub' : Evaluator) : Prop where
  expression : ∀ {m env} e, m.HasFrames env →
    integrity.Honours m (sub.expression env e) (sub'.expression env e) Machine.Backs
  statement : ∀ {m env} s, m.HasFrames env →
    integrity.Honours m (sub.statement env s) (sub'.statement env s) fun m' done => done.All m'.Backs
  rounds : ∀ {m env} condition body, m.HasFrames env → m.HasFrames (bodyFrames body) →
    integrity.Honours m (sub.rounds env condition body) (sub'.rounds env condition body)
      fun m' done => done.All m'.Backs
  resolve : ∀ {m env} depth goal, m.HasFrames env →
    integrity.Honours m (sub.resolve env depth goal) (sub'.resolve env depth goal) fun _ _ => True

namespace Upholds

section Expressions

theorem expressions (h : Upholds sub sub') (es : List Expr) (henv : m.HasFrames env) :
    integrity.Honours m (expressions sub env es) (expressions sub' env es)
      fun m' vs => ∀ v ∈ vs, m'.Backs v := by
  induction es generalizing m with
  | nil => exact .pure (by simp)
  | cons e es ih =>
    refine (h.expression e henv).bind fun m₁ v h₁ hv => ?_
    refine (ih (frames_mono henv h₁)).bind fun m₂ vs h₂ hvs => .pure ?_
    exact List.forall_mem_cons.mpr ⟨backs_mono hv h₂, hvs⟩

theorem access (h : Upholds sub sub') {array index : Expr} (henv : m.HasFrames env) :
    integrity.Honours m (access sub env array index) (access sub' env array index)
      fun _ _ => True := by
  refine (h.expression array henv).bind fun m₁ a h₁ _ => ?_
  exact (h.expression index (frames_mono henv h₁)).bind fun m₂ i _ _ => element

theorem truth (h : Upholds sub sub') {e : Expr} (henv : m.HasFrames env) :
    integrity.Honours m (truth sub env e) (truth sub' env e) fun _ _ => True := by
  refine (h.expression e henv).bind fun m₁ v _ _ => ?_
  split
  · exact .pure trivial
  · exact raise

theorem holds (h : Upholds sub sub') {e : Expr} (henv : m.HasFrames env) :
    integrity.Honours m (holds sub env e) (holds sub' env e) fun _ _ => True := by
  refine (h.expression e henv).bind fun m₁ v _ _ => ?_
  split
  · exact .pure trivial
  · exact raiseAt

theorem binary (h : Upholds sub sub') {op : BinaryOp} {left right : Expr} (henv : m.HasFrames env) :
    integrity.Honours m (binary ctx sub env op left right) (binary ctx sub' env op left right)
      Machine.Backs := by
  have bool : ∀ {m : Machine} b, integrity.Honours m (Pure.pure (Value.bool b))
      (Pure.pure (Value.bool b)) Machine.Backs := fun b => plain (by simp [Value.kind])
  unfold Eval.binary
  split
  · refine (h.truth henv).bind fun m₁ b h₁ _ => ?_
    split
    · exact (h.truth (frames_mono henv h₁)).bind fun m₂ b _ _ => bool b
    · exact bool false
  · refine (h.truth henv).bind fun m₁ b h₁ _ => ?_
    split
    · exact bool true
    · exact (h.truth (frames_mono henv h₁)).bind fun m₂ b _ _ => bool b
  · refine (h.expression left henv).bind fun m₁ l h₁ _ => ?_
    refine (h.expression right (frames_mono henv h₁)).bind fun m₂ r _ _ => ?_
    unfold operate
    split
    · exact display.bind fun _ _ _ _ =>
        display.bind fun _ _ _ _ => plain (by simp [Value.kind])
    · exact .lift (fun v hv => Operator.backs_apply ‹_› hv) fun _ _ => trivial

theorem callFunction (h : Upholds sub sub') {d : FunctionDecl} {vs : List Value}
    (henv : m.HasFrames env) (hvs : ∀ v ∈ vs, m.Backs v) :
    integrity.Honours m (callFunction ctx sub env d vs) (callFunction ctx sub' env d vs)
      Machine.Backs := by
  refine arity.bind fun m₁ _ h₁ _ => ?_
  split
  · exact raise
  · refine push.bind fun m₂ f h₂ hf => ?_
    have henv₂ : m₂.HasFrames (callEnv env f) :=
      (frames_mono (frames_mono henv h₁) h₂).call hf
    refine (bindParameters (backs_all_mono (backs_all_mono hvs h₁) h₂)).bind fun m₃ _ h₃ _ => ?_
    refine log.bind fun m₄ _ h₄ _ => ?_
    refine (h.statement _ (frames_mono (frames_mono henv₂ h₃) h₄)).bind fun m₅ done _ hdone => ?_
    cases done with
    | normal => exact plain (by simp [Value.kind])
    | returned v =>
      have hv : m₅.Backs v := hdone
      dsimp only
      split
      · exact .pure (hv.widen _)
      · exact .pure hv

theorem call (h : Upholds sub sub') {callee : Value} {vs : List Value} (henv : m.HasFrames env)
    (hvs : ∀ v ∈ vs, m.Backs v) :
    integrity.Honours m (call ctx sub env callee vs) (call ctx sub' env callee vs)
      Machine.Backs := by
  unfold Eval.call
  split
  · exact raise
  · exact native
  · exact construct hvs
  · exact h.callFunction henv hvs
  · exact raise

theorem assign (h : Upholds sub sub') {target value : Expr} (henv : m.HasFrames env) :
    integrity.Honours m (assign ctx sub env target value) (assign ctx sub' env target value)
      Machine.Backs := by
  unfold Eval.assign
  split
  · refine (h.expression value henv).bind fun m₁ v h₁ hv => ?_
    dsimp only
    split
    · exact (writeAt hv).bind fun m₂ _ h₂ _ => .pure ((backs_mono hv h₂).widen _)
    · exact .raise_bind trivial
  · rename_i mark array index
    refine (h.access henv).bind fun m₁ q h₁ _ => ?_
    refine (h.expression value (frames_mono henv h₁)).bind fun m₂ v h₂ hv => ?_
    have hw := hv.widen (ctx.table.typeOf mark)
    exact (setElement hw).bind fun m₃ _ h₃ _ => .pure (backs_mono hw h₃)
  · rename_i mark stem name
    refine (h.expression stem henv).bind fun m₁ s h₁ _ => ?_
    refine (h.expression value (frames_mono henv h₁)).bind fun m₂ v h₂ hv => ?_
    have hw := hv.widen (ctx.table.typeOf mark)
    exact (setField hw).bind fun m₃ _ h₃ _ => .pure (backs_mono hw h₃)
  · exact raise

theorem query (h : Upholds sub sub') {mark : Mark} {target : Reference} {question : Expr}
    (henv : m.HasFrames env) :
    integrity.Honours m (query ctx sub env mark target question)
      (query ctx sub' env mark target question) Machine.Backs := by
  unfold Eval.query
  split
  · dsimp only
    split
    · refine (h.resolve 0 _ henv).bind fun m₁ answer _ _ => ?_
      refine (writeAt (Machine.backs_of_kind (by simp [Value.kind]))).bind fun m₂ _ _ _ => ?_
      exact log.bind fun m₃ _ _ _ => plain (by simp [Value.kind])
    · exact .raiseAt_bind trivial
  · exact raiseAt

theorem expression_step (h : Upholds sub sub') (e : Expr) (henv : m.HasFrames env) :
    integrity.Honours m (Eval.expression ctx sub env e) (Eval.expression ctx sub' env e)
      Machine.Backs := by
  refine .attach ?_
  cases e with
  | int | float | string | bool | null => exact plain (by simp [Value.kind])
  | reference r => exact Integrity.reference
  | constructor mark name => exact Integrity.constructor
  | array mark elements =>
    refine (h.expressions elements henv).bind fun m₁ values _ hvalues => ?_
    refine (alloc fun v hv => ?_).bind fun m₂ o _ ho => .pure ?_
    · simp only [Object.values, List.mem_map] at hv
      obtain ⟨w, hw, rfl⟩ := hv
      exact (hvalues w hw).widen _
    · rintro i (⟨⟨⟩⟩ | ⟨⟨⟩⟩)
      exact ho
  | field mark stem name => exact (h.expression stem henv).bind fun m₁ s _ _ => fieldOf
  | index mark array index => exact (h.access henv).bind fun m₁ q _ _ => getElement
  | call mark callee arguments =>
    refine (h.expression callee henv).bind fun m₁ f h₁ _ => ?_
    refine (h.expressions arguments (frames_mono henv h₁)).bind fun m₂ vs h₂ hvs => ?_
    exact h.call (frames_mono (frames_mono henv h₁) h₂) hvs
  | not mark operand =>
    refine (h.expression operand henv).bind fun m₁ v _ _ => ?_
    split
    · exact plain (by simp [Value.kind])
    · exact raise
  | binary mark op left right => exact h.binary henv
  | assign mark target value => exact h.assign henv
  | paren mark inner => exact h.expression inner henv
  | query mark target question => exact h.query henv
  | placeholder mark name type => exact raise
  | logic goal =>
    cases goal with
    | atom mark name => exact plain (by simp [Value.kind])
    | call | paren | not | binary =>
      exact (h.resolve 0 _ henv).bind fun m₁ b _ _ => plain (by simp [Value.kind])

end Expressions

section Goals

/-- The body of a rule is resolved on the chain that the rule was declared in. -/
theorem resolveRule (h : Upholds sub sub') {depth : Nat} {r : Rule} {arguments : List Expr}
    (henv : m.HasFrames env) (hr : m.HasFrames r.env) :
    integrity.Honours m (resolveRule ctx sub env depth r arguments)
      (resolveRule ctx sub' env depth r arguments) fun _ _ => True := by
  unfold Eval.resolveRule
  split
  · refine (h.expressions arguments henv).bind fun m₁ vs h₁ hvs => ?_
    refine push.bind fun m₂ f h₂ hf => ?_
    have hinner : m₂.HasFrames (f :: r.env) :=
      List.forall_mem_cons.mpr ⟨hf, frames_mono (frames_mono hr h₁) h₂⟩
    refine (bindParameters (backs_all_mono hvs h₂)).bind fun m₃ _ h₃ _ => ?_
    exact h.resolve _ _ (frames_mono hinner h₃)
  · exact .pure trivial

theorem resolveCall (h : Upholds sub sub') {depth : Nat} {mark : Mark} {functor : String}
    {arguments : List Expr} (henv : m.HasFrames env) :
    integrity.Honours m (resolveCall ctx sub env depth mark functor arguments)
      (resolveCall ctx sub' env depth mark functor arguments) fun _ _ => True := by
  unfold Eval.resolveCall
  dsimp only
  split
  · refine .get_bind ?_
    split
    · exact .pure trivial
    · split
      · exact .pure trivial
      · exact (h.expressions arguments henv).bind fun m₁ vs _ _ => .get_bind (.pure trivial)
      · exact fun hm => h.resolveRule henv (hm.rules _ functor _ ‹_›) hm
  · exact .pure trivial

theorem resolve_step (h : Upholds sub sub') (depth : Nat) (goal : Goal) (henv : m.HasFrames env) :
    integrity.Honours m (Eval.resolve ctx sub env depth goal) (Eval.resolve ctx sub' env depth goal)
      fun _ _ => True := by
  unfold Eval.resolve
  split
  · exact raiseAt
  · cases goal with
    | atom mark name => exact .pure trivial
    | call mark functor arguments => exact h.resolveCall henv
    | paren mark inner => exact h.resolve depth inner henv
    | not mark operand => exact (h.resolve depth operand henv).bind fun _ _ _ _ => .pure trivial
    | binary mark op left right =>
      refine (h.resolve depth left henv).bind fun m₁ l h₁ _ => ?_
      exact (h.resolve depth right (frames_mono henv h₁)).bind fun _ _ _ _ => .pure trivial

end Goals

section Statements

theorem ground (h : Upholds sub sub') {functor : String} (es : List Expr) (henv : m.HasFrames env) :
    integrity.Honours m (ground sub env functor es) (ground sub' env functor es)
      fun m' vs => ∀ v ∈ vs, m'.Backs v := by
  induction es generalizing m with
  | nil => exact .pure (by simp)
  | cons e es ih =>
    unfold Eval.ground
    dsimp only
    split
    · exact .raiseAt_bind trivial
    · refine (h.expression e henv).bind fun m₁ v h₁ hv => ?_
      split
      · exact .raiseAt_bind trivial
      · refine (ih (frames_mono henv h₁)).bind fun m₂ vs h₂ hvs => .pure ?_
        exact List.forall_mem_cons.mpr ⟨backs_mono hv h₂, hvs⟩

theorem declareFact (h : Upholds sub sub') {d : FactDecl} (henv : m.HasFrames env) :
    integrity.Honours m (declareFact ctx sub env d) (declareFact ctx sub' env d)
      fun _ _ => True := by
  refine (h.ground d.arguments henv).bind fun m₁ tuple _ htuple => ?_
  refine storeFrame.bind fun m₂ f h₂ _ => ?_
  exact (changeStore fun store hs hm => hm.addFact (backs_all_mono htuple h₂) hs).bind
    fun _ _ _ _ => log

theorem bindPlaceholder (h : Upholds sub sub') {mark : Mark} {name : String} {e : Expr}
    (henv : m.HasFrames env) :
    integrity.Honours m (bindPlaceholder ctx sub env mark name e)
      (bindPlaceholder ctx sub' env mark name e) fun _ _ => True := by
  unfold Eval.bindPlaceholder
  dsimp only
  split
  · refine (h.expression e henv).bind fun m₁ v _ hv => (writeAt hv).bind fun m₂ _ _ _ => ?_
    exact display.bind fun m₃ text _ _ => log
  · exact .raiseAt_bind trivial

theorem matchValues (h : Upholds sub sub') {left right : Expr} (henv : m.HasFrames env) :
    integrity.Honours m (matchValues ctx sub env left right) (matchValues ctx sub' env left right)
      fun _ _ => True := by
  unfold Eval.matchValues
  dsimp only
  split
  · refine (h.expression left henv).bind fun m₁ l h₁ _ => ?_
    refine (h.expression right (frames_mono henv h₁)).bind fun m₂ r _ _ => ?_
    split
    · exact .pure trivial
    · exact display.bind fun _ _ _ _ =>
        display.bind fun _ _ _ _ => raiseAt
  · exact .raiseAt_bind trivial

theorem unifyPosition (h : Upholds sub sub') {left right : Expr} (henv : m.HasFrames env) :
    integrity.Honours m (unifyPosition ctx sub env left right)
      (unifyPosition ctx sub' env left right) fun _ _ => True := by
  unfold Eval.unifyPosition
  split
  · exact raiseAt
  · exact h.bindPlaceholder henv
  · exact h.bindPlaceholder henv
  · exact h.matchValues henv

theorem unifyAll (h : Upholds sub sub') (ls rs : List Expr) (henv : m.HasFrames env) :
    integrity.Honours m (unifyAll ctx sub env ls rs) (unifyAll ctx sub' env ls rs)
      fun _ _ => True := by
  induction ls generalizing m rs with
  | nil => exact .pure trivial
  | cons l ls ih =>
    cases rs with
    | nil => exact .pure trivial
    | cons r rs => exact (h.unifyPosition henv).bind fun m₁ _ h₁ _ => ih rs (frames_mono henv h₁)

theorem unify (h : Upholds sub sub') {mark : Mark} {left right : PredicateCall}
    (henv : m.HasFrames env) :
    integrity.Honours m (unify ctx sub env mark left right) (unify ctx sub' env mark left right)
      fun _ _ => True := by
  unfold Eval.unify
  dsimp only
  split
  · exact .raiseAt_bind trivial
  · split
    · exact .raiseAt_bind trivial
    · exact h.unifyAll _ _ henv

theorem declareVar (h : Upholds sub sub') {d : VarDecl} (henv : m.HasFrames env) :
    integrity.Honours m (declareVar ctx sub env d) (declareVar ctx sub' env d) fun _ _ => True := by
  have hinitial : integrity.Honours m (initialValue sub env d.initializer)
      (initialValue sub' env d.initializer) Machine.Backs := by
    cases d.initializer with
    | none => exact plain (by simp [Value.kind])
    | some e => exact h.expression e henv
  refine hinitial.bind fun m₁ v _ hv => ?_
  dsimp only
  split
  · exact .raise_bind trivial
  · exact writeAt hv

theorem statements (h : Upholds sub sub') (ss : List Stmt) (henv : m.HasFrames env) :
    integrity.Honours m (statements sub env ss) (statements sub' env ss)
      fun m' done => done.All m'.Backs := by
  induction ss generalizing m with
  | nil => exact .pure trivial
  | cons s ss ih =>
    refine (h.statement s henv).bind fun m₁ done h₁ hdone => ?_
    cases done with
    | normal => exact ih (frames_mono henv h₁)
    | returned v => exact .pure hdone

theorem statement_step (h : Upholds sub sub') (s : Stmt) (henv : m.HasFrames env) :
    integrity.Honours m (Eval.statement ctx sub env s) (Eval.statement ctx sub' env s)
      fun m' done => done.All m'.Backs := by
  have ending : ∀ {x y : Eval Unit}, (integrity.Honours m x y fun _ _ => True) →
      integrity.Honours m (x >>= fun _ => Pure.pure Completion.normal)
        (y >>= fun _ => Pure.pure Completion.normal) fun m' done => done.All m'.Backs := fun hx =>
    hx.bind fun _ _ _ _ => .pure trivial
  refine .attach ?_
  cases s with
  | block b =>
    refine scopeOf.bind fun m₁ scope h₁ _ => push.bind fun m₂ f h₂ hf => ?_
    exact h.statements _ (List.forall_mem_cons.mpr ⟨hf, frames_mono (frames_mono henv h₁) h₂⟩)
  | expr mark e => exact (h.expression e henv).bind fun _ _ _ _ => .pure trivial
  | var d => exact ending (h.declareVar henv)
  | function d => exact ending (writeAt (Machine.backs_of_kind (by simp [Value.kind])))
  | struct d => exact ending (writeAt (Machine.backs_of_kind (by simp [Value.kind])))
  | cond mark condition yes no =>
    refine (h.holds henv).bind fun m₁ b h₁ _ => ?_
    split
    · exact h.statement yes (frames_mono henv h₁)
    · cases no with
      | none => exact .pure trivial
      | some s' => exact h.statement s' (frames_mono henv h₁)
  | loop mark condition body =>
    cases body with
    | block b =>
      refine scopeOf.bind fun m₁ scope h₁ _ => push.bind fun m₂ f h₂ hf => ?_
      have henv₂ := frames_mono (frames_mono henv h₁) h₂
      exact h.rounds condition _ henv₂ (List.forall_mem_cons.mpr ⟨hf, henv₂⟩)
    | _ => exact h.rounds condition _ henv (by simp [bodyFrames, Machine.HasFrames])
  | ret mark value =>
    cases value with
    | none => exact .pure (Machine.backs_of_kind (by simp [Value.kind]))
    | some e => exact (h.expression e henv).bind fun _ v _ hv => .pure hv
  | atom d => exact ending declareAtom
  | fact d => exact ending (h.declareFact henv)
  | rule d => exact ending (declareRule henv)
  | unify mark left right => exact ending (h.unify henv)

theorem rounds_step (h : Upholds sub sub') (condition : Expr) (body : LoopBody)
    (henv : m.HasFrames env) (hbody : m.HasFrames (bodyFrames body)) :
    integrity.Honours m (Eval.rounds sub env condition body) (Eval.rounds sub' env condition body)
      fun m' done => done.All m'.Backs := by
  refine (h.holds henv).bind fun m₁ b h₁ _ => ?_
  have henv₁ := frames_mono henv h₁
  have hround : integrity.Honours m₁ (round sub env body) (round sub' env body)
      fun m' done => done.All m'.Backs := by
    cases body with
    | block inner b => exact .attach (h.statements _ (frames_mono hbody h₁))
    | statement s => exact h.statement s henv₁
  split
  · refine hround.bind fun m₂ done h₂ hdone => ?_
    cases done with
    | normal =>
      exact h.rounds condition body (frames_mono henv₁ h₂) (frames_mono (frames_mono hbody h₁) h₂)
    | returned v => exact .pure hdone
  · exact .pure trivial

end Statements

theorem step (h : Upholds sub sub') (ctx : Context) : Upholds (step ctx sub) (step ctx sub') :=
  ⟨h.expression_step, h.statement_step, h.rounds_step, h.resolve_step⟩

theorem exhausted : Upholds exhausted exhausted :=
  ⟨fun _ _ => .exhaust trivial trivial, fun _ _ => .exhaust trivial trivial,
    fun _ _ _ _ => .exhaust trivial trivial, fun _ _ _ => .exhaust trivial trivial⟩

theorem watch (h : Upholds sub sub) (o : Moment → Machine → Option Fault) :
    Upholds (sub.watch o) (sub.watch o) where
  expression e henv := watched (h.expression e henv) fun value => o (.expression _ e value)
  statement s henv := watched (h.statement s henv) fun done => o (.statement _ s done)
  rounds condition body henv hbody := watched (h.rounds condition body henv hbody) fun done =>
    o (.rounds _ condition body done)
  resolve depth goal henv := watched (h.resolve depth goal henv) fun answer =>
    o (.goal _ depth goal answer)

theorem observed_self (ctx : Context) (o : Observer) (fuel level : Nat) :
    Upholds (observed ctx o fuel level) (observed ctx o fuel level) := by
  induction fuel generalizing level with
  | zero => exact exhausted
  | succ fuel ih => exact ((ih (level + 1)).step ctx).watch (o level)

/-- An observer who objects only where something is missing is never noticed. -/
theorem observed (ctx : Context) {o : Observer}
    (ho : ∀ level moment m, m.Complete (Moment.reach moment) → o level moment m = none)
    (fuel level : Nat) : Upholds (observed ctx o fuel level) (evaluator ctx fuel) := by
  induction fuel generalizing level with
  | zero => exact exhausted
  | succ fuel ih =>
    have hstep := (ih (level + 1)).step ctx
    have hnone : ∀ {m : Machine} (moment : Moment), m.Complete [] → m.HasFrames moment.reach →
        ∀ m', integrity.Leads m m' → o level moment m' = none := fun moment hm henv m' hl =>
      ho level moment m' ((hl.2.2 hm).chained (frames_mono henv hl))
    refine ⟨fun {m env} e henv hm => ?_, fun {m env} s henv hm => ?_,
      fun {m env} condition body henv hbody hm => ?_, fun {m env} depth goal henv hm => ?_⟩
    · exact (hstep.expression e henv).unnoticed
        (fun value => hnone (.expression env e value) hm henv) hm
    · exact (hstep.statement s henv).unnoticed
        (fun done => hnone (.statement env s done) hm henv) hm
    · refine (hstep.rounds condition body henv hbody).unnoticed
        (fun done => hnone (.rounds env condition body done) hm ?_) hm
      cases body with
      | block inner b => exact List.forall_mem_append.mpr ⟨hbody, henv⟩
      | statement s => exact henv
    · exact (hstep.resolve depth goal henv).unnoticed
        (fun answer => hnone (.goal env depth goal answer) hm henv) hm

theorem runBy (h : Upholds sub sub') (p : Program) (ctx : Context) :
    p.runBy ctx sub = p.runBy ctx sub' ∧ (p.runBy ctx sub').machine.Complete [] ∧
      ∀ done, (p.runBy ctx sub').outcome = .ok done → done.All (p.runBy ctx sub').machine.Backs := by
  unfold Program.runBy
  cases (ctx.table.attributes p.mark.id).scope with
  | none => exact ⟨rfl, .empty, nofun⟩
  | some scope =>
    have hroot : (({} : Machine).push scope).2.HasFrames [0] := by simp [Machine.HasFrames]
    have hexecute : integrity.Honours (({} : Machine).push scope).2 (p.execute sub 0)
        (p.execute sub' 0) fun m' done => done.All m'.Backs := by
      refine (h.statements p.statements hroot).bind fun m₁ done _ hdone => ?_
      refine display.bind ?_
      rintro _ text - ⟨rfl, -⟩
      refine log.bind fun m₂ _ h₂ _ => .pure ?_
      cases done with
      | normal => trivial
      | returned v => exact backs_mono hdone h₂
    obtain ⟨hends, hsame | ⟨_, _, _, hstop, _⟩⟩ := hexecute (Machine.Complete.empty.push scope)
    · dsimp only [Machine.push, Array.size_empty] at hends hsame ⊢
      rw [hsame]
      cases hy : p.execute sub' 0 _ with
      | ok done m' =>
        rw [hy] at hends
        exact ⟨rfl, hends.1, by rintro _ ⟨⟩; exact hends.2.2⟩
      | error halt m' =>
        rw [hy] at hends
        exact ⟨rfl, hends.1, nofun⟩
    · exact hstop.elim

end Upholds

end Integrity

namespace Program

open Integrity

/-- In no state that the runs of a program pass through is a frame or an object missing that
something refers to. -/
theorem complete_of_reaches {p : Program} {ctx : Context} {m : Machine} (h : p.Reaches ctx m) :
    m.Complete [] := by
  obtain ⟨o, fuel, rfl⟩ := h
  exact ((Upholds.observed_self ctx o fuel 0).runBy p ctx).2.1

/-- At every moment of a run the frames of the chain are there, and so are all frames and objects that
the machine refers to. -/
theorem always_complete (p : Program) (ctx : Context) :
    p.Always ctx fun moment m => m.Complete moment.reach := fun _ ho fuel =>
  ((Upholds.observed ctx ho fuel 0).runBy p ctx).1

/-- The object that a run returns, if it does, is one of the objects that the run leaves behind. -/
theorem returned_within {p : Program} {ctx : Context} {fuel : Nat} {v : Value}
    (h : (p.run ctx fuel).outcome = .ok (.returned v)) :
    v.Within (p.run ctx fuel).machine.objects.size := by
  have hrun := ((Upholds.observed_self ctx .silent fuel 0).runBy p ctx).2.2
  rw [observed_silent] at hrun
  exact hrun _ h

end Program

end LogicScript
