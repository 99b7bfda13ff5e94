import LogicScript.Proofs.Conformance

/-! What becomes of the atoms of a run.

An atom is bound to true where it is declared. In an accepted program nothing else writes to its
name, except a query that has the atom as its target: the query looks at the type of the target and
not at what declared it, and stores its answer there. So an atom is true unless a query has denied it. -/
namespace LogicScript

open Eval

theorem Decl.isAtom_of_isAssignable {d : Decl} (h : d.isAssignable = true) : d.isAtom = false := by
  cases d <;> first | rfl | exact nomatch h

theorem Decl.isAtom_of_isPlaceholder {d : Decl} (h : d.isPlaceholder = true) : d.isAtom = false := by
  cases d <;> first | rfl | exact nomatch h

/-- A query of the program has the name of a scope as its target, and was answered with no. -/
structure Program.Denied (p : Program) (t : Table) (events : Array Event) (scope : ScopeId)
    (name : String) : Prop where
  asked : ∃ (mark : Mark) (target : Reference) (question : Expr),
    .expression (.query mark target question) ∈ p.nodes ∧ target.name = name ∧
      (t.attributes target.mark.id).scope = some scope
  answered : .queryResolved name false ∈ events

/-- Where an atom of a scope is bound, it is true or denied. Functions and rules come from the
program. -/
structure Machine.Affirms (p : Program) (t : Table) (m : Machine) : Prop where
  atoms : ∀ f name v d, (m.frame f).bindings.get? name = some v →
    t.scopes.findLocal (m.frame f).scope name = some d → d.isAtom = true →
    v = .bool true ∨ v = .bool false ∧ p.Denied t m.events (m.frame f).scope name
  values : m.AllValues p.Owns
  rules : m.AllRules (Rule.Filed p t)

namespace Machine.Affirms

variable {p : Program} {t : Table} {m m' : Machine} {f : FrameId} {name : String} {v : Value}

theorem empty (p : Program) (t : Table) : ({} : Machine).Affirms p t where
  atoms f name v d hv := by
    have hempty : (({} : Machine).frame f).bindings = ∅ := rfl
    rw [hempty] at hv
    cases hv
  values := .empty
  rules := .empty

theorem of_frames (h : m.Affirms p t) (hframes : m'.frames = m.frames)
    (hevents : ∀ e ∈ m.events, e ∈ m'.events) (hvalues : m'.AllValues p.Owns) :
    m'.Affirms p t := by
  have hframe := Machine.frame_of_frames hframes
  refine ⟨fun f name v d hv hd hatom => ?_, hvalues, h.rules.of_eq fun f => by rw [hframe]⟩
  rw [hframe] at hv hd ⊢
  refine (h.atoms f name v d hv hd hatom).imp_right fun ⟨hv, hdenied⟩ => ⟨hv, ?_⟩
  exact ⟨hdenied.asked, hevents _ hdenied.answered⟩

theorem log (h : m.Affirms p t) (e : Event) : (m.log e).Affirms p t :=
  h.of_frames rfl (fun _ he => Array.mem_push_of_mem e he) ⟨h.values.bound, h.values.held⟩

theorem print (h : m.Affirms p t) (line : String) : (m.print line).Affirms p t :=
  h.of_frames rfl (fun _ he => he) ⟨h.values.bound, h.values.held⟩

theorem alloc (h : m.Affirms p t) {object : Object} (ho : object.All p.Owns) :
    (m.alloc object).2.Affirms p t :=
  h.of_frames rfl (fun _ he => he) (h.values.alloc ho)

theorem updateObject (h : m.Affirms p t) {o : ObjectId} {change : Object → Object}
    (hchange : ∀ object : Object, object.All p.Owns → (change object).All p.Owns) :
    (m.updateObject o change).Affirms p t :=
  h.of_frames rfl (fun _ he => he) (h.values.updateObject hchange)

theorem push (h : m.Affirms p t) (scope : ScopeId) : (m.push scope).2.Affirms p t where
  atoms i other u d hu hd := by
    rw [frame_push] at hu hd ⊢
    split at hu
    · cases hu
    · rename_i hi
      rw [if_neg hi] at hd ⊢
      exact h.atoms i other u d hu hd
  values := h.values.push
  rules := h.rules.of_eq fun i => predicates_push ..

theorem setStore (h : m.Affirms p t) {store : PredicateStore}
    (hrules : (m.setStore f store).AllRules (Rule.Filed p t)) : (m.setStore f store).Affirms p t where
  atoms i other u d hu hd := by
    rw [bindings_setStore] at hu
    rw [scope_setStore] at hd ⊢
    exact h.atoms i other u d hu hd
  values := h.values.setStore
  rules := hrules

/-- A name is bound; if it is that of an atom, then to true, or because the atom is denied. -/
theorem define (h : m.Affirms p t) (hv : p.Owns v)
    (hslot : ∀ d, t.scopes.findLocal (m.frame f).scope name = some d → d.isAtom = true →
      v = .bool true ∨ v = .bool false ∧ p.Denied t m.events (m.frame f).scope name) :
    (m.define f name v).Affirms p t where
  atoms i other u d hu hd hatom := by
    rw [scope_define] at hd ⊢
    rw [Machine.define, frame_updateFrame] at hu
    split at hu
    · rename_i hi
      obtain ⟨rfl, -⟩ := hi
      by_cases hname : other = name
      · subst hname
        rw [Bindings.get?_set_self] at hu
        cases hu
        exact hslot d hd hatom
      · rw [Bindings.get?_set_ne _ _ hname] at hu
        exact h.atoms f other u d hu hd hatom
    · exact h.atoms i other u d hu hd hatom
  values := h.values.define hv
  rules := h.rules.of_eq fun i => by simp

end Machine.Affirms

/-- An evaluation keeps what is told of the atoms, also if it fails, and its values are as told. -/
def Eval.Affirms (p : Program) (t : Table) {α : Type} (x : Eval α) (Q : α → Prop) : Prop :=
  ∀ m : Machine, m.Affirms p t → (after (x m)).Affirms p t ∧ ∀ a m', x m = .ok a m' → Q a

namespace Eval.Affirms

variable {p : Program} {ctx : Context} {t : Table} {α β : Type} {x : Eval α} {f : α → Eval β}
  {P : α → Prop} {Q : β → Prop} {env : Env}

theorem pure {a : α} (h : P a) : Affirms p t (Pure.pure a) P := fun m hm =>
  ⟨hm, by rintro _ _ ⟨⟩; exact h⟩

theorem throw {halt : Halt} : Affirms p t (MonadExcept.throw halt) P := fun m hm =>
  ⟨hm, by rintro _ _ ⟨⟩⟩

theorem raise {cause : Cause} : Affirms p t (Eval.raise cause) P := throw

theorem raiseAt {cause : Cause} {node : NodeRef} : Affirms p t (Eval.raiseAt cause node) P := throw

theorem bind (hx : Affirms p t x P) (hf : ∀ a, P a → Affirms p t (f a) Q) :
    Affirms p t (x >>= f) Q := by
  intro m hm
  obtain ⟨hkept, hvalue⟩ := hx m hm
  cases r : x m with
  | error halt m' =>
    rw [r] at hkept
    rw [bind_of_error r]
    exact ⟨hkept, by rintro _ _ ⟨⟩⟩
  | ok a m' =>
    rw [r] at hkept
    rw [bind_of_ok r]
    exact hf a (hvalue a m' r) m' hkept

theorem raise_bind {cause : Cause} : Affirms p t ((Eval.raise cause : Eval α) >>= f) Q :=
  (raise (P := fun _ => False)).bind fun _ h => h.elim

theorem raiseAt_bind {cause : Cause} {node : NodeRef} :
    Affirms p t ((Eval.raiseAt cause node : Eval α) >>= f) Q :=
  (raiseAt (P := fun _ => False)).bind fun _ h => h.elim

theorem attach {node : NodeRef} (h : Affirms p t x P) : Affirms p t (Eval.attach node x) P := by
  intro m hm
  obtain ⟨hkept, hvalue⟩ := h m hm
  cases r : x m with
  | ok a m' =>
    rw [r] at hkept
    rw [attach_of_ok r]
    exact ⟨hkept, by rintro _ _ ⟨⟩; exact hvalue a m' r⟩
  | error halt m' =>
    rw [r] at hkept
    cases halt with
    | fault _ =>
      rw [attach_of_fault r]
      exact ⟨hkept, by rintro _ _ ⟨⟩⟩
    | outOfFuel =>
      rw [attach_of_outOfFuel r]
      exact ⟨hkept, by rintro _ _ ⟨⟩⟩

theorem watched (h : Affirms p t x P) (o : Option α → Machine → Option Fault) :
    Affirms p t (Eval.watched o x) P := by
  have hcheck : ∀ a, Affirms p t (check (o a)) fun _ => True := by
    intro a m hm
    refine ⟨?_, fun _ _ _ => trivial⟩
    unfold check
    split <;> exact hm
  exact (hcheck none).bind fun _ _ => h.bind fun a ha => (hcheck (some a)).bind fun _ _ => pure ha

theorem get_bind {f : Machine → Eval β}
    (h : ∀ m : Machine, m.Affirms p t → Affirms p t (f m) Q) :
    Affirms p t (MonadState.get >>= f) Q := fun m hm => h m hm m hm

theorem change {k : Machine → Machine} (h : ∀ m : Machine, m.Affirms p t → (k m).Affirms p t) :
    Affirms p t (modify k) fun _ => True := fun m hm => ⟨h m hm, fun _ _ _ => trivial⟩

theorem lift {e : Except Cause α} (h : ∀ a, e = .ok a → P a) : Affirms p t (Eval.lift e) P := by
  cases e with
  | ok a => exact pure (h a rfl)
  | error cause => exact throw

theorem log {e : Event} : Affirms p t (Eval.log e) fun _ => True := change fun _ hm => hm.log e

theorem display {v : Value} : Affirms p t (Eval.display v) fun _ => True := by
  refine get_bind fun m _ => ?_
  cases m.text? v with
  | some text => exact pure trivial
  | none => exact throw

theorem operate {op : BinaryOp} {s s' : Ty} {l r : Value} :
    Affirms p t (Eval.operate op s s' l r) p.Owns := by
  unfold Eval.operate
  split
  · exact display.bind fun _ _ => display.bind fun _ _ => pure (.of_kind (by simp [Value.kind]))
  · exact lift fun v hv => .of_kind (Operator.isPlain_apply hv).1

theorem arity {name : String} {wanted got : Nat} :
    Affirms p t (Eval.arity name wanted got) fun _ => True := by
  unfold Eval.arity
  split
  · exact pure trivial
  · exact raise

theorem push {scope : ScopeId} : Affirms p t (Eval.push scope) fun _ => True := fun _ hm =>
  ⟨hm.push scope, fun _ _ _ => trivial⟩

theorem alloc {object : Object} (ho : object.All p.Owns) :
    Affirms p t (Eval.alloc object) fun _ => True := fun _ hm =>
  ⟨hm.alloc ho, fun _ _ _ => trivial⟩

theorem scopeOf {node : NodeRef} : Affirms p t (Eval.scopeOf ctx node) fun scope =>
    (ctx.table.attributes node.mark.id).scope = some scope := by
  unfold Eval.scopeOf
  split
  · exact pure ‹_›
  · exact raise

theorem owns_plain {v : Value} (h : v.IsPlain) : p.Owns v := Program.Owns.of_kind h.1

theorem read {scope : ScopeId} {name : String} :
    Affirms p t (Eval.read ctx env scope name) p.Owns := by
  refine get_bind fun m hm => lift fun v hv => ?_
  unfold Machine.read at hv
  split at hv
  · cases hv
  · split at hv
    · cases hv
    · cases hv
      exact hm.values.bound _ _ _ ‹_›

/-- What is written to a name. If the name is that of an atom, it is what is told of atoms in the
machine that is written to. -/
theorem write {scope : ScopeId} {name : String} {v : Value} {target : Ty} (hv : p.Owns v)
    (hslot : ∀ d, t.scopes.findLocal scope name = some d → d.isAtom = true →
      v.widen target = .bool true) :
    Affirms p t (Eval.write ctx env scope name v target) fun _ => True := by
  intro m hm
  refine ⟨?_, fun _ _ _ => trivial⟩
  rw [write_apply, Machine.write, Machine.slot]
  cases hframe : m.frameOf? env scope with
  | none => exact hm
  | some f =>
    have hscope : (m.frame f).scope = scope := by simpa using List.find?_some hframe
    exact hm.define (hv.widen target) fun d hd hatom => .inl (hslot d (hscope ▸ hd) hatom)

theorem writeAt {node : NodeRef} {name : String} {v : Value} {target : Ty} {D : Decl → Prop}
    (henters : ctx.table.Enters node.mark name D) (hv : p.Owns v)
    (hslot : ∀ d, D d → d.isAtom = true → v.widen target = .bool true) :
    Affirms p ctx.table (Eval.writeAt ctx env node name v target) fun _ => True := by
  refine scopeOf.bind fun scope hs => write hv fun d hd hatom => ?_
  obtain ⟨d', hd', hD⟩ := henters scope hs
  obtain rfl : d = d' := Option.some.inj (hd.symm.trans hd')
  exact hslot d hD hatom

/-- A query stores its answer and tells of it. If the target is an atom and the answer is no, the
atom is denied from then on. -/
theorem answer {mark : Mark} {target : Reference} {question : Expr} {answer : Bool} {slot : Ty}
    (hquery : .expression (.query mark target question) ∈ p.nodes) :
    Affirms p ctx.table (do
      Eval.writeAt ctx env ⟨.reference, target.mark⟩ target.name (.bool answer) slot
      Eval.log (.queryResolved target.name answer)) fun _ => True := by
  intro m hm
  refine ⟨?_, fun _ _ _ => trivial⟩
  cases hscope : (ctx.table.attributes target.mark.id).scope with
  | none =>
    have hfails : Eval.writeAt ctx env ⟨.reference, target.mark⟩ target.name (.bool answer) slot m =
        .error (.fault ⟨.nodeWithoutScope .reference, none⟩) m := by
      unfold Eval.writeAt Eval.scopeOf
      rw [hscope]
      rfl
    rw [bind_of_error hfails]
    exact hm
  | some scope =>
    have hwrite : Eval.writeAt ctx env ⟨.reference, target.mark⟩ target.name (.bool answer) slot m =
        Eval.write ctx env scope target.name (.bool answer) slot m := by
      unfold Eval.writeAt Eval.scopeOf
      rw [hscope]
      rfl
    rw [write_apply, Machine.write, Machine.slot] at hwrite
    cases hframe : m.frameOf? env scope with
    | none =>
      rw [hframe] at hwrite
      rw [bind_of_error hwrite]
      exact hm
    | some f =>
      rw [hframe] at hwrite
      rw [bind_of_ok hwrite]
      have hfound : (m.frame f).scope = scope := by simpa using List.find?_some hframe
      -- The answer is stored before it is told of, but the one does not depend on the other.
      refine (hm.log (.queryResolved target.name answer)).define
        (Program.Owns.widen (.of_kind (by simp [Value.kind])) slot) fun d _ _ => ?_
      cases answer with
      | true => exact .inl rfl
      | false =>
        exact .inr ⟨rfl, ⟨mark, target, question, hquery, rfl, hfound ▸ hscope⟩,
          Array.mem_push_self⟩

theorem storeFrame {node : NodeRef} :
    Affirms p t (Eval.storeFrame ctx env node) fun _ => True := by
  refine scopeOf.bind fun scope _ => get_bind fun m _ => ?_
  split
  · exact pure trivial
  · exact raise

theorem changeStore {f : FrameId} {change : PredicateStore → Except Cause PredicateStore}
    (h : ∀ (m : Machine) store, m.AllRules (Rule.Filed p t) →
      change (m.frame f).predicates = .ok store → (m.setStore f store).AllRules (Rule.Filed p t)) :
    Affirms p t (Eval.changeStore f change) fun _ => True := by
  intro m hm
  refine ⟨?_, fun _ _ _ => trivial⟩
  have hstep : Eval.changeStore f change m = (Eval.lift (change (m.frame f).predicates) >>=
      fun store => modify (·.setStore f store)) m := rfl
  rw [hstep]
  cases hstore : change (m.frame f).predicates with
  | error cause => exact hm
  | ok store => exact hm.setStore (h m store hm.rules hstore)

theorem reference {r : Reference}
    (hd : ∀ id d, (ctx.table.attributes id).decl = some (.function d) → d ∈ p.functions) :
    Affirms p t (Eval.reference ctx env r) p.Owns := by
  unfold Eval.reference
  split
  · exact raise
  · exact pure (owns_plain (by simp [Value.IsPlain, Value.kind]))
  · exact pure (owns_plain (by simp [Value.IsPlain, Value.kind]))
  · refine pure ?_
    rintro _ ⟨⟩
    exact hd _ _ ‹_›
  · exact pure (owns_plain (by simp [Value.IsPlain, Value.kind]))
  · exact scopeOf.bind fun _ _ => read

theorem constructor {mark : Mark} {name : String} :
    Affirms p t (Eval.constructor ctx mark name) p.Owns := by
  unfold Eval.constructor
  split
  · exact pure (owns_plain (by simp [Value.IsPlain, Value.kind]))
  · exact raise

theorem fieldOf {stem : Value} {name : String} : Affirms p t (Eval.fieldOf stem name) p.Owns := by
  refine get_bind fun m hm => ?_
  dsimp only
  split
  · exact raise
  · split
    · split
      · exact pure (owns_plain (by simp [Value.IsPlain, Value.kind]))
      · exact raise
    · exact raise
  · split
    · rename_i hobject
      split
      · have hall : Object.All p.Owns _ := hm.values.held _ _ hobject
        exact pure (hall name _ ‹_›)
      · exact raise
    · exact raise
  · exact raise

theorem element {array index : Value} :
    Affirms p t (Eval.element array index) fun _ => True := by
  unfold Eval.element
  split
  · exact raise
  · refine get_bind fun m _ => ?_
    dsimp only
    split
    · split
      · exact pure trivial
      · exact raise
    · exact raise
  · exact raise

theorem getElement {o : ObjectId} {i : Nat} : Affirms p t (Eval.getElement o i) p.Owns := by
  have habsent : p.Owns .absent := owns_plain (by simp [Value.IsPlain, Value.kind])
  refine get_bind fun m hm => ?_
  split
  · rename_i elements hobject
    refine pure ?_
    have hall : Object.All p.Owns _ := hm.values.held _ _ hobject
    by_cases hi : i < elements.size
    · simpa [Array.getD, hi] using hall elements[i] (Array.getElem_mem hi)
    · simpa [Array.getD, hi] using habsent
  · exact pure habsent

theorem setElement {o : ObjectId} {i : Nat} {v : Value} (hv : p.Owns v) :
    Affirms p t (Eval.setElement o i v) fun _ => True :=
  change fun _ hm => hm.updateObject fun _ ho => ho.setElement hv i

theorem setField {stem : Value} {name : String} {v : Value} (hv : p.Owns v) :
    Affirms p t (Eval.setField stem name v) fun _ => True := by
  unfold Eval.setField
  split
  · exact raise
  · refine get_bind fun m _ => ?_
    split
    · split
      · exact change fun _ hm => hm.updateObject fun _ ho => ho.setField hv name
      · exact raise
    · exact raise
  · exact raise

theorem construct {d : StructDecl} {args : List Value} (hargs : ∀ v ∈ args, p.Owns v) :
    Affirms p t (Eval.construct ctx d args) p.Owns := by
  have hfields : Object.All p.Owns (.struct d (fillFields ctx d.fields args ∅)) :=
    p.attributeContract_admits.fillFields hargs fun _ _ h => by simp at h
  refine arity.bind fun _ _ => (alloc hfields).bind fun _ _ => ?_
  exact pure (owns_plain (by simp [Value.IsPlain, Value.kind]))

theorem native {name : String} {args : List Value} : Affirms p t (Eval.native name args) p.Owns := by
  refine arity.bind fun _ _ => display.bind fun text _ => ?_
  refine (change fun _ hm => hm.print text).bind fun _ _ => ?_
  exact pure (owns_plain (by simp [Value.IsPlain, Value.kind]))

theorem bindParameters {scope : ScopeId} {ps : List Parameter} {args : List Value}
    (hps : ctx.table.EntersAll scope ps) (hargs : ∀ v ∈ args, p.Owns v) :
    Affirms p ctx.table (Eval.bindParameters ctx env scope ps args) fun _ => True := by
  induction ps generalizing args with
  | nil => exact pure trivial
  | cons q ps ih =>
    cases args with
    | nil => exact pure trivial
    | cons v args =>
      obtain ⟨hv, hrest⟩ := List.forall_mem_cons.mp hargs
      refine (write hv fun d hd hatom => ?_).bind fun _ _ =>
        ih (fun q' hq' => hps q' (List.mem_cons_of_mem _ hq')) hrest
      cases (hps q List.mem_cons_self).symm.trans hd
      cases hatom

end Eval.Affirms

namespace Program

variable {p : Program} {ctx : Context} {sub : Evaluator} {env : Env}

/-- All requests for nodes of the program keep what is told of the atoms. -/
structure Affirming (p : Program) (t : Table) (sub : Evaluator) : Prop where
  expression : ∀ env e, e.nodes ⊆ p.nodes → Affirms p t (sub.expression env e) p.Owns
  statement : ∀ env st, st.nodes ⊆ p.nodes →
    Affirms p t (sub.statement env st) fun done => done.All p.Owns
  rounds : ∀ env condition body, condition.nodes ⊆ p.nodes → body.nodes ⊆ p.nodes →
    Affirms p t (sub.rounds env condition body) fun done => done.All p.Owns
  resolve : ∀ env depth goal, goal.nodes ⊆ p.nodes →
    Affirms p t (sub.resolve env depth goal) fun _ => True

namespace Affirming

theorem exhausted {t : Table} : p.Affirming t Eval.exhausted :=
  ⟨fun _ _ _ => .throw, fun _ _ _ => .throw, fun _ _ _ _ _ => .throw, fun _ _ _ _ => .throw⟩

variable (h : p.Affirming ctx.table sub)
include h

theorem expressions {es : List Expr} (hes : ∀ e ∈ es, e.nodes ⊆ p.nodes) :
    Affirms p ctx.table (Eval.expressions sub env es) fun vs => ∀ v ∈ vs, p.Owns v := by
  induction es with
  | nil => exact .pure (by simp)
  | cons e es ih =>
    obtain ⟨he, hrest⟩ := List.forall_mem_cons.mp hes
    refine (h.expression env e he).bind fun v hv => (ih hrest).bind fun vs hvs => .pure ?_
    exact List.forall_mem_cons.mpr ⟨hv, hvs⟩

theorem access {array index : Expr} (harray : array.nodes ⊆ p.nodes)
    (hindex : index.nodes ⊆ p.nodes) :
    Affirms p ctx.table (Eval.access sub env array index) fun _ => True :=
  (h.expression env array harray).bind fun _ _ =>
    (h.expression env index hindex).bind fun _ _ => .element

theorem truth {e : Expr} (he : e.nodes ⊆ p.nodes) :
    Affirms p ctx.table (Eval.truth sub env e) fun _ => True := by
  refine (h.expression env e he).bind fun v _ => ?_
  split
  · exact .pure trivial
  · exact .raise

theorem holds {e : Expr} (he : e.nodes ⊆ p.nodes) :
    Affirms p ctx.table (Eval.holds sub env e) fun _ => True := by
  refine (h.expression env e he).bind fun v _ => ?_
  split
  · exact .pure trivial
  · exact .raiseAt

theorem callFunction (hp : p.Numbered) (ht : p.Typed ctx.table) {d : FunctionDecl}
    (hd : d ∈ p.functions) {args : List Value} (hargs : ∀ v ∈ args, p.Owns v) :
    Affirms p ctx.table (Eval.callFunction ctx sub env d args) p.Owns := by
  have hmem := mem_functions.mp hd
  have hbody : (Stmt.block d.body).nodes ⊆ p.nodes := by
    refine List.Subset.trans ?_ (nodes_inside hp hmem rfl)
    rw [Node.nodes, Stmt.nodes_function]
    exact List.subset_append_right ..
  refine Affirms.arity.bind fun _ _ => ?_
  split
  · exact .raise
  · rename_i scope hscope
    refine Affirms.push.bind fun f _ => ?_
    refine (Affirms.bindParameters (ht.parameters d hmem scope hscope) hargs).bind fun _ _ => ?_
    refine Affirms.log.bind fun _ _ => (h.statement _ _ hbody).bind fun done hdone => ?_
    cases done with
    | normal => exact .pure p.owns_void
    | returned v =>
      dsimp only
      split
      · exact .pure (hdone.widen _)
      · exact .pure hdone

theorem call (hp : p.Numbered) (ht : p.Typed ctx.table) {callee : Value} (hcallee : p.Owns callee)
    {args : List Value} (hargs : ∀ v ∈ args, p.Owns v) :
    Affirms p ctx.table (Eval.call ctx sub env callee args) p.Owns := by
  unfold Eval.call
  split
  · exact .raise
  · exact .native
  · exact .construct hargs
  · exact h.callFunction hp ht (hcallee _ rfl) hargs
  · exact .raise

theorem binary {mark : Mark} {op : BinaryOp} {left right : Expr}
    (he : (Expr.binary mark op left right).nodes ⊆ p.nodes) :
    Affirms p ctx.table (Eval.binary ctx sub env op left right) p.Owns := by
  have hbool : ∀ b, p.Owns (.bool b) := fun b =>
    Affirms.owns_plain (by simp [Value.IsPlain, Value.kind])
  have hleft : left.nodes ⊆ p.nodes := fun n hn => he (by simp [Expr.nodes, hn])
  have hright : right.nodes ⊆ p.nodes := fun n hn => he (by simp [Expr.nodes, hn])
  unfold Eval.binary
  split
  · refine (h.truth hleft).bind fun b _ => ?_
    split
    · exact (h.truth hright).bind fun _ _ => .pure (hbool _)
    · exact .pure (hbool _)
  · refine (h.truth hleft).bind fun b _ => ?_
    split
    · exact .pure (hbool _)
    · exact (h.truth hright).bind fun _ _ => .pure (hbool _)
  · exact (h.expression env left hleft).bind fun l _ => (h.expression env right hright).bind
      fun r _ => .operate

theorem assign (ht : p.Typed ctx.table) {mark : Mark} {target value : Expr}
    (he : (Expr.assign mark target value).nodes ⊆ p.nodes) :
    Affirms p ctx.table (Eval.assign ctx sub env target value) p.Owns := by
  have hvalue : value.nodes ⊆ p.nodes := fun n hn => he (by simp [Expr.nodes, hn])
  have htarget : target.nodes ⊆ p.nodes := fun n hn => he (by simp [Expr.nodes, hn])
  unfold Eval.assign
  split
  · rename_i r
    refine (h.expression env value hvalue).bind fun v hv => ?_
    dsimp only
    split
    · rename_i hassignable
      obtain ⟨d, hd, hd'⟩ := (Option.any_eq_true ..).mp hassignable
      have henters := ht.reference r (htarget (Expr.self_mem_nodes (.reference r))) d hd
      refine (Affirms.writeAt henters hv ?_).bind fun _ _ => .pure (hv.widen _)
      intro d' heq hatom
      rw [heq, Decl.isAtom_of_isAssignable hd'] at hatom
      cases hatom
    · exact .raise_bind
  · rename_i m array index
    have hparts : array.nodes ⊆ p.nodes ∧ index.nodes ⊆ p.nodes :=
      ⟨fun n hn => htarget (by simp [Expr.nodes, hn]), fun n hn => htarget (by simp [Expr.nodes, hn])⟩
    refine (h.access hparts.1 hparts.2).bind fun at_ _ => ?_
    refine (h.expression env value hvalue).bind fun v hv => ?_
    exact (Affirms.setElement (hv.widen _)).bind fun _ _ => .pure (hv.widen _)
  · rename_i m stem name
    have hstem : stem.nodes ⊆ p.nodes := fun n hn => htarget (by simp [Expr.nodes, hn])
    refine (h.expression env stem hstem).bind fun s _ =>
      (h.expression env value hvalue).bind fun v hv => ?_
    exact (Affirms.setField (hv.widen _)).bind fun _ _ => .pure (hv.widen _)
  · exact .raise

theorem query {mark : Mark} {target : Reference} {question : Expr}
    (he : (Expr.query mark target question).nodes ⊆ p.nodes) :
    Affirms p ctx.table (Eval.query ctx sub env mark target question) p.Owns := by
  unfold Eval.query
  split
  · rename_i goal
    have hgoal : goal.nodes ⊆ p.nodes := List.Subset.trans (Expr.nodes_goal rfl) he
    dsimp only
    split
    · refine (h.resolve env 0 goal hgoal).bind fun answer _ => ?_
      rw [← bind_assoc]
      refine (Affirms.answer (he (Expr.self_mem_nodes _))).bind fun _ _ => .pure ?_
      exact Affirms.owns_plain (by simp [Value.IsPlain, Value.kind])
    · exact .raiseAt_bind
  · exact .raiseAt

theorem expression_step (hp : p.Numbered) (ht : p.Typed ctx.table)
    (hd : ∀ id d, (ctx.table.attributes id).decl = some (.function d) → d ∈ p.functions)
    {e : Expr} (he : e.nodes ⊆ p.nodes) :
    Affirms p ctx.table (Eval.expression ctx sub env e) p.Owns := by
  have plain : ∀ {v : Value}, v.IsPlain → Affirms p ctx.table (pure v) p.Owns := fun h =>
    .pure (Affirms.owns_plain h)
  have hparts : ∀ e' ∈ e.parts, e'.nodes ⊆ p.nodes := fun e' he' =>
    List.Subset.trans (Expr.nodes_parts he') he
  have hgoals : ∀ goal, e.goal? = some goal → goal.nodes ⊆ p.nodes := fun goal hgoal =>
    List.Subset.trans (Expr.nodes_goal hgoal) he
  refine Affirms.attach ?_
  cases e with
  | int | float | string | bool | null => exact plain (by simp [Value.IsPlain, Value.kind])
  | reference r => exact .reference hd
  | constructor m name => exact .constructor
  | array m elements =>
    refine (h.expressions hparts).bind fun vs hvs => ?_
    have hall : Object.All p.Owns
        (.array (vs.map (·.widen (elementTypeOf ctx m))).toArray) := by
      intro v hv
      obtain ⟨v', hv', rfl⟩ := List.mem_map.mp (List.mem_toArray.mp hv)
      exact (hvs v' hv').widen _
    exact (Affirms.alloc hall).bind fun _ _ => plain (by simp [Value.IsPlain, Value.kind])
  | field m stem name =>
    exact (h.expression env stem (hparts stem (by simp [Expr.parts]))).bind fun _ _ => .fieldOf
  | index m array index =>
    exact (h.access (hparts array (by simp [Expr.parts]))
      (hparts index (by simp [Expr.parts]))).bind fun _ _ => .getElement
  | call m callee arguments =>
    refine (h.expression env callee (hparts callee (by simp [Expr.parts]))).bind fun f hf => ?_
    refine (h.expressions fun e' he' => hparts e' (by simp [Expr.parts, he'])).bind
      fun args hargs => h.call hp ht hf hargs
  | not m operand =>
    refine (h.expression env operand (hparts operand (by simp [Expr.parts]))).bind fun v _ => ?_
    split
    · exact plain (by simp [Value.IsPlain, Value.kind])
    · exact .raise
  | binary m op left right => exact h.binary he
  | assign m target value => exact h.assign ht he
  | paren m inner => exact h.expression env inner (hparts inner (by simp [Expr.parts]))
  | query m target question => exact h.query he
  | placeholder m name type => exact .raise
  | logic goal =>
    have hresolve : ∀ g, Expr.goal? (.logic g) = some g → (Expr.logic goal).goal? = some g →
        Affirms p ctx.table (sub.resolve env 0 g >>= fun b => pure (.bool b)) p.Owns :=
      fun g _ hg => (h.resolve env 0 g (hgoals g hg)).bind fun _ _ =>
        plain (by simp [Value.IsPlain, Value.kind])
    cases goal with
    | atom m name => exact plain (by simp [Value.IsPlain, Value.kind])
    | _ => exact hresolve _ rfl rfl

theorem resolveRule (ht : p.Typed ctx.table) {depth : Nat} {functor : String} {r : Rule}
    (hr : r.Filed p ctx.table functor) {arguments : List Expr}
    (hargs : ∀ e ∈ arguments, e.nodes ⊆ p.nodes) (hrule : r.decl.body.nodes ⊆ p.nodes) :
    Affirms p ctx.table (Eval.resolveRule ctx sub env depth r arguments) fun _ => True := by
  unfold Eval.resolveRule
  split
  · refine (h.expressions hargs).bind fun vs hvs => Affirms.push.bind fun f _ => ?_
    refine (Affirms.bindParameters (ht.rule _ hr.mem _ hr.scope) hvs).bind fun _ _ => ?_
    exact h.resolve _ _ _ hrule
  · exact .pure trivial

theorem resolveCall (hp : p.Numbered) (ht : p.Typed ctx.table) {depth : Nat} {mark : Mark}
    {functor : String} {arguments : List Expr} (hargs : ∀ e ∈ arguments, e.nodes ⊆ p.nodes) :
    Affirms p ctx.table (Eval.resolveCall ctx sub env depth mark functor arguments)
      fun _ => True := by
  unfold Eval.resolveCall
  dsimp only
  split
  · refine .get_bind fun m hm => ?_
    split
    · exact .pure trivial
    · split
      · exact .pure trivial
      · exact (h.expressions hargs).bind fun _ _ => .get_bind fun _ _ => .pure trivial
      · rename_i r hget
        have hr := hm.rules _ _ _ hget
        refine h.resolveRule ht hr hargs (List.Subset.trans ?_ (nodes_inside hp hr.mem rfl))
        rw [Node.nodes, Stmt.nodes, RuleDecl.nodes]
        exact fun n hn => List.mem_cons_of_mem _ (List.mem_append_right _ hn)
  · exact .pure trivial

theorem resolve_step (hp : p.Numbered) (ht : p.Typed ctx.table) {depth : Nat} {goal : Goal}
    (hgoal : goal.nodes ⊆ p.nodes) :
    Affirms p ctx.table (Eval.resolve ctx sub env depth goal) fun _ => True := by
  have hparts : ∀ g ∈ goal.parts, g.nodes ⊆ p.nodes := fun g hg =>
    List.Subset.trans (Goal.nodes_parts hg) hgoal
  unfold Eval.resolve
  split
  · exact .raiseAt
  · cases goal with
    | atom mark name => exact .pure trivial
    | call mark functor arguments =>
      exact h.resolveCall hp ht fun e he => List.Subset.trans (Goal.nodes_arguments he) hgoal
    | paren mark inner => exact h.resolve env depth inner (hparts inner (by simp [Goal.parts]))
    | not mark operand =>
      exact (h.resolve env depth operand (hparts operand (by simp [Goal.parts]))).bind
        fun _ _ => .pure trivial
    | binary mark op left right =>
      exact (h.resolve env depth left (hparts left (by simp [Goal.parts]))).bind fun _ _ =>
        (h.resolve env depth right (hparts right (by simp [Goal.parts]))).bind fun _ _ =>
          .pure trivial

theorem ground {functor : String} {es : List Expr} (hes : ∀ e ∈ es, e.nodes ⊆ p.nodes) :
    Affirms p ctx.table (Eval.ground sub env functor es) fun _ => True := by
  induction es with
  | nil => exact .pure trivial
  | cons e es ih =>
    obtain ⟨he, hrest⟩ := List.forall_mem_cons.mp hes
    unfold Eval.ground
    dsimp only
    split
    · exact .raiseAt_bind
    · refine (h.expression env e he).bind fun v _ => ?_
      split
      · exact .raiseAt_bind
      · exact (ih hrest).bind fun _ _ => .pure trivial

theorem declareFact {d : FactDecl} (hargs : ∀ e ∈ d.arguments, e.nodes ⊆ p.nodes) :
    Affirms p ctx.table (Eval.declareFact ctx sub env d) fun _ => True := by
  refine (h.ground hargs).bind fun tuple _ => Affirms.storeFrame.bind fun f _ => ?_
  refine (Affirms.changeStore fun _ store hrules hstore => ?_).bind fun _ _ => .log
  exact hrules.addFact hstore

theorem bindPlaceholder (ht : p.Typed ctx.table) {mark : Mark} {name : String} {type : TypeExpr}
    {e : Expr} (hmem : .expression (.placeholder mark name type) ∈ p.nodes)
    (he : e.nodes ⊆ p.nodes) :
    Affirms p ctx.table (Eval.bindPlaceholder ctx sub env mark name e) fun _ => True := by
  unfold Eval.bindPlaceholder
  dsimp only
  split
  · refine (h.expression env e he).bind fun v hv => ?_
    refine (Affirms.writeAt (ht.placeholder mark name type hmem) hv fun d hd hatom => ?_).bind
      fun _ _ => Affirms.display.bind fun _ _ => .log
    rw [Decl.isAtom_of_isPlaceholder hd] at hatom
    cases hatom
  · exact .raiseAt_bind

theorem matchValues {left right : Expr} (hleft : left.nodes ⊆ p.nodes)
    (hright : right.nodes ⊆ p.nodes) :
    Affirms p ctx.table (Eval.matchValues ctx sub env left right) fun _ => True := by
  unfold Eval.matchValues
  dsimp only
  split
  · refine (h.expression env left hleft).bind fun l _ =>
      (h.expression env right hright).bind fun r _ => ?_
    split
    · exact .pure trivial
    · exact Affirms.display.bind fun _ _ => Affirms.display.bind fun _ _ => .raiseAt
  · exact .raiseAt_bind

theorem unifyPosition (ht : p.Typed ctx.table) {left right : Expr} (hleft : left.nodes ⊆ p.nodes)
    (hright : right.nodes ⊆ p.nodes) :
    Affirms p ctx.table (Eval.unifyPosition ctx sub env left right) fun _ => True := by
  unfold Eval.unifyPosition
  split
  · exact .raiseAt
  · exact h.bindPlaceholder ht (hleft (Expr.self_mem_nodes _)) hright
  · exact h.bindPlaceholder ht (hright (Expr.self_mem_nodes _)) hleft
  · exact h.matchValues hleft hright

theorem unifyAll (ht : p.Typed ctx.table) {ls rs : List Expr} (hls : ∀ e ∈ ls, e.nodes ⊆ p.nodes)
    (hrs : ∀ e ∈ rs, e.nodes ⊆ p.nodes) :
    Affirms p ctx.table (Eval.unifyAll ctx sub env ls rs) fun _ => True := by
  induction ls generalizing rs with
  | nil => exact .pure trivial
  | cons l ls ih =>
    cases rs with
    | nil => exact .pure trivial
    | cons r rs =>
      obtain ⟨hl, hls⟩ := List.forall_mem_cons.mp hls
      obtain ⟨hr, hrs⟩ := List.forall_mem_cons.mp hrs
      exact (h.unifyPosition ht hl hr).bind fun _ _ => ih hls hrs

theorem unify (ht : p.Typed ctx.table) {mark : Mark} {left right : PredicateCall}
    (hparts : ∀ e ∈ left.arguments ++ right.arguments, e.nodes ⊆ p.nodes) :
    Affirms p ctx.table (Eval.unify ctx sub env mark left right) fun _ => True := by
  obtain ⟨hleft, hright⟩ := List.forall_mem_append.mp hparts
  unfold Eval.unify
  dsimp only
  split
  · exact .raiseAt_bind
  · split
    · exact .raiseAt_bind
    · exact h.unifyAll ht hleft hright

theorem declareVar (ht : p.Typed ctx.table) {d : VarDecl} (hmem : .statement (.var d) ∈ p.nodes)
    (hparts : ∀ e ∈ d.initializer.toList, e.nodes ⊆ p.nodes) :
    Affirms p ctx.table (Eval.declareVar ctx sub env d) fun _ => True := by
  have hinitial : Affirms p ctx.table (Eval.initialValue sub env d.initializer) p.Owns := by
    cases hinitializer : d.initializer with
    | none => exact .pure (Affirms.owns_plain (by simp [Value.IsPlain, Value.kind]))
    | some e => exact h.expression env e (hparts e (by simp [hinitializer]))
  refine hinitial.bind fun v hv => ?_
  dsimp only
  split
  · exact .raise_bind
  · refine .writeAt (ht.var d hmem) hv ?_
    rintro _ rfl hatom
    cases hatom

theorem statements {ss : List Stmt} (hss : ∀ st ∈ ss, st.nodes ⊆ p.nodes) :
    Affirms p ctx.table (Eval.statements sub env ss) fun done => done.All p.Owns := by
  induction ss with
  | nil => exact .pure trivial
  | cons st ss ih =>
    obtain ⟨hst, hrest⟩ := List.forall_mem_cons.mp hss
    refine (h.statement env st hst).bind fun done hdone => ?_
    cases done with
    | normal => exact ih hrest
    | returned v => exact .pure hdone

theorem statement_step (ht : p.Typed ctx.table) {st : Stmt} (hst : st.nodes ⊆ p.nodes) :
    Affirms p ctx.table (Eval.statement ctx sub env st) fun done => done.All p.Owns := by
  have ending : ∀ {x : Eval Unit}, Affirms p ctx.table x (fun _ => True) →
      Affirms p ctx.table (x >>= fun _ => pure Completion.normal) fun done => done.All p.Owns :=
    fun h => h.bind fun _ _ => .pure trivial
  have hmem := hst st.self_mem_nodes
  have hparts : ∀ e ∈ st.parts, e.nodes ⊆ p.nodes := fun e he =>
    List.Subset.trans (Stmt.nodes_parts he) hst
  have hbranches : ∀ st' ∈ st.branches, st'.nodes ⊆ p.nodes := fun st' hst' =>
    List.Subset.trans (Stmt.nodes_branches hst') hst
  refine Affirms.attach ?_
  cases st with
  | block b =>
    refine Affirms.scopeOf.bind fun scope _ => Affirms.push.bind fun f _ => ?_
    exact h.statements fun st' hst' => List.Subset.trans (Stmt.nodes_statements hst') hst
  | expr mark e =>
    exact (h.expression env e (hparts e (by simp [Stmt.parts]))).bind fun _ _ => .pure trivial
  | var d => exact ending (h.declareVar ht hmem hparts)
  | function d =>
    refine ending (.writeAt (ht.function d hmem) ?_ ?_)
    · rintro _ ⟨⟩
      exact mem_functions.mpr hmem
    · rintro _ rfl hatom
      cases hatom
  | struct d =>
    refine ending (.writeAt (ht.struct d hmem)
      (Affirms.owns_plain (by simp [Value.IsPlain, Value.kind])) ?_)
    rintro _ rfl hatom
    cases hatom
  | cond mark condition yes no =>
    refine (h.holds (hparts condition (by simp [Stmt.parts]))).bind fun b _ => ?_
    split
    · exact h.statement env yes (hbranches yes (by simp [Stmt.branches]))
    · cases no with
      | none => exact .pure trivial
      | some st' => exact h.statement env st' (hbranches st' (by simp [Stmt.branches]))
  | loop mark condition body =>
    have hcondition : condition.nodes ⊆ p.nodes := fun n hn => hst (by simp [Stmt.nodes, hn])
    have hbody : body.nodes ⊆ p.nodes := fun n hn => hst (by simp [Stmt.nodes, hn])
    cases body with
    | block b =>
      refine Affirms.scopeOf.bind fun scope _ => Affirms.push.bind fun f _ => ?_
      refine h.rounds env condition _ hcondition fun n hn => ?_
      obtain ⟨st', hst', hn⟩ := Stmt.mem_nodesOfList.mp hn
      exact hbody (Stmt.nodes_statements hst' hn)
    | _ => exact h.rounds env condition _ hcondition hbody
  | ret mark value =>
    cases value with
    | none => exact .pure p.owns_void
    | some e =>
      exact (h.expression env e (hparts e (by simp [Stmt.parts]))).bind fun v hv => .pure hv
  | atom d =>
    refine ending (Affirms.scopeOf.bind fun scope _ => Affirms.log.bind fun _ _ => ?_)
    exact .write (Affirms.owns_plain (by simp [Value.IsPlain, Value.kind])) fun _ _ _ => rfl
  | fact d => exact ending (h.declareFact hparts)
  | rule d =>
    refine ending ?_
    unfold Eval.declareRule
    split
    · exact .raise
    · rename_i scope hscope
      have hfiled : Rule.Filed p ctx.table d.functor ⟨d, scope, env⟩ := ⟨hmem, rfl, hscope⟩
      exact Affirms.storeFrame.bind fun f _ =>
        (Affirms.changeStore fun _ store hrules hstore => hrules.setRule hfiled hstore).bind
          fun _ _ => .log
  | unify mark left right => exact ending (h.unify ht hparts)

theorem rounds_step {condition : Expr} {body : LoopBody} (hcondition : condition.nodes ⊆ p.nodes)
    (hbody : body.nodes ⊆ p.nodes) :
    Affirms p ctx.table (Eval.rounds sub env condition body) fun done => done.All p.Owns := by
  have hround : Affirms p ctx.table (Eval.round sub env body) fun done => done.All p.Owns := by
    cases body with
    | block inner b =>
      exact Affirms.attach (h.statements fun st hst n hn =>
        hbody (Stmt.mem_nodesOfList.mpr ⟨st, hst, hn⟩))
    | statement st => exact h.statement env st hbody
  refine (h.holds hcondition).bind fun b _ => ?_
  split
  · refine hround.bind fun done hdone => ?_
    cases done with
    | normal => exact h.rounds env condition body hcondition hbody
    | returned v => exact .pure hdone
  · exact .pure trivial

/-- One step keeps what is told of the atoms if the requests do that it makes. -/
theorem step (hp : p.Numbered) (ht : p.Typed ctx.table)
    (hd : ∀ id d, (ctx.table.attributes id).decl = some (.function d) → d ∈ p.functions) :
    p.Affirming ctx.table (Eval.step ctx sub) where
  expression _ _ he := h.expression_step hp ht hd he
  statement _ _ hst := h.statement_step ht hst
  rounds _ _ _ hc hb := h.rounds_step hc hb
  resolve _ _ _ hg := h.resolve_step hp ht hg

theorem watch (o : Moment → Machine → Option Fault) : p.Affirming ctx.table (sub.watch o) where
  expression env e he := (h.expression env e he).watched fun v => o (.expression env e v)
  statement env st hst := (h.statement env st hst).watched fun done => o (.statement env st done)
  rounds env condition body hc hb :=
    (h.rounds env condition body hc hb).watched fun done => o (.rounds env condition body done)
  resolve env depth goal hg :=
    (h.resolve env depth goal hg).watched fun answer => o (.goal env depth goal answer)

omit h in
theorem observed (ctx : Context) (hp : p.Numbered) (ht : p.Typed ctx.table)
    (hd : ∀ id d, (ctx.table.attributes id).decl = some (.function d) → d ∈ p.functions)
    (o : Observer) (fuel level : Nat) :
    p.Affirming ctx.table (Eval.observed ctx o fuel level) := by
  induction fuel generalizing level with
  | zero => exact exhausted
  | succ fuel ih => exact ((ih (level + 1)).step hp ht hd).watch (o level)

theorem runBy : (p.runBy ctx sub).machine.Affirms p ctx.table := by
  unfold Program.runBy
  split
  · exact .empty p ctx.table
  · rename_i scope _
    have hstatements : ∀ st ∈ p.statements, st.nodes ⊆ p.nodes := fun st hst n hn =>
      List.mem_cons_of_mem _ (Stmt.mem_nodesOfList.mpr ⟨st, hst, hn⟩)
    have hexecute : Affirms p ctx.table (p.execute sub 0) fun _ => True :=
      (h.statements hstatements).bind fun _ _ => Affirms.display.bind fun _ _ =>
        Affirms.log.bind fun _ _ => .pure trivial
    have hafter := (hexecute _ ((Machine.Affirms.empty p ctx.table).push scope)).1
    dsimp only [Machine.push, Array.size_empty] at hafter ⊢
    split
    · rename_i hrun
      rw [hrun] at hafter
      exact hafter
    · rename_i hrun
      rw [hrun] at hafter
      exact hafter

end Affirming

/-- In every state of a run of an accepted program, a name that the scope of a frame has as an atom
is unbound in the frame or true, unless a query of the program with this name of this scope as its
target was answered with no; then it may be false. -/
theorem atoms_true_or_denied (hp : p.Numbered) (hok : (analyze p).2 = []) {maxDepth : Nat}
    {m : Machine} (hm : p.Reaches ⟨(analyze p).1, maxDepth⟩ m) {f : FrameId} {name : String}
    {d : Decl} (hd : (analyze p).1.scopes.findLocal (m.frame f).scope name = some d)
    (hatom : d.isAtom = true) {v : Value} (hv : (m.frame f).bindings.get? name = some v) :
    v = .bool true ∨
      v = .bool false ∧ p.Denied (analyze p).1 m.events (m.frame f).scope name := by
  have hissues : p.settled.issues = [] := by
    rw [analyze_eq] at hok
    exact hok
  have ht : p.Typed (analyze p).1 := by
    rw [analyze_eq]
    exact typed hp hissues
  have hknown : ∀ id d, ((analyze p).1.attributes id).decl = some (.function d) →
      d ∈ p.functions := fun _ _ h => functions_known hp h
  generalize (analyze p).1 = t at hm hd ht hknown ⊢
  obtain ⟨o, fuel, rfl⟩ := hm
  have hkept : p.Affirming t (Eval.observed ⟨t, maxDepth⟩ o fuel 0) :=
    .observed ⟨t, maxDepth⟩ hp ht hknown o fuel 0
  exact hkept.runBy.atoms f name v d hv hd hatom

/-- An atom is declared and then asked about a predicate that does not hold. -/
def denying : Program where
  mark := ⟨0, {}⟩
  statements := [
    .atom ⟨⟨1, {}⟩, "a"⟩,
    .expr ⟨2, {}⟩ (.query ⟨3, {}⟩ ⟨⟨4, {}⟩, "a"⟩ (.logic (.call ⟨5, {}⟩ "nope" [])))]

theorem denying_numbered : denying.Numbered := by
  unfold Numbered Distinct
  decide

theorem denying_accepted : (analyze denying).2 = [] :=
  List.isEmpty_iff.mp (by decide +kernel)

theorem denying_binds : ∃ v, ((denying.run ⟨(analyze denying).1, 1⟩ 9).machine.frame 0).bindings.get?
    "a" = some v ∧ v.equal (.bool false) = true :=
  (Option.any_eq_true ..).mp (by decide +kernel)

theorem denying_declares : ∃ d, (analyze denying).1.scopes.findLocal
    ((denying.run ⟨(analyze denying).1, 1⟩ 9).machine.frame 0).scope "a" = some d ∧
      d.isAtom = true :=
  (Option.any_eq_true ..).mp (by decide +kernel)

/-- The atom is false, and a query has denied it. -/
theorem denying_denied : ∃ v : Value, v.equal (.bool false) = true ∧
    (v = .bool true ∨ v = .bool false ∧ denying.Denied (analyze denying).1
      (denying.run ⟨(analyze denying).1, 1⟩ 9).machine.events
      ((denying.run ⟨(analyze denying).1, 1⟩ 9).machine.frame 0).scope "a") := by
  obtain ⟨v, hv, hfalse⟩ := denying_binds
  obtain ⟨d, hd, hatom⟩ := denying_declares
  exact ⟨v, hfalse, atoms_true_or_denied denying_numbered denying_accepted
    (reaches_run _ _ 9) hd hatom hv⟩

/-- A program is accepted and yet its run leaves an atom that is not true. -/
theorem accepted_denies_atom :
    ¬ ∀ p : Program, p.Numbered → (analyze p).2 = [] → ∀ maxDepth m,
      p.Reaches ⟨(analyze p).1, maxDepth⟩ m → ∀ f name d,
      (analyze p).1.scopes.findLocal (m.frame f).scope name = some d → d.isAtom = true →
      ∀ v, (m.frame f).bindings.get? name = some v → v = .bool true := by
  intro h
  obtain ⟨v, hv, hfalse⟩ := denying_binds
  obtain ⟨d, hd, hatom⟩ := denying_declares
  have htrue := h denying denying_numbered denying_accepted 1 _ (reaches_run _ _ 9) 0 "a" d hd
    hatom v hv
  rw [htrue] at hfalse
  cases hfalse

end Program

end LogicScript
