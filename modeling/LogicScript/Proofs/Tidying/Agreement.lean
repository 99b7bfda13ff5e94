import LogicScript.Proofs.Stores
import LogicScript.Proofs.Tidying.Machine

/-! Evaluations of a program and of the same program tidied.

Two such evaluations agree if they take a machine and the same machine tidied to the same result,
tidied, or to faults with one cause. Neither looks at the attributes of a node that is taken out; so
the attributes have to fit for the nodes that stay. -/
namespace LogicScript

open Eval

/-- Why a run ended; running out of fuel has no cause. -/
def Halt.cause? : Halt → Option Cause
  | .fault f => some f.cause
  | .outOfFuel => none

/-- A program and the same program tidied are run with so much fuel that one of them may go on when
the other one has none left. -/
structure Comparison extends Tidying where
  /-- The numbers of the nodes that stay. -/
  stays : Nat → Prop
  /-- Whether the first run may be the only one that is out of fuel. -/
  early : Prop
  /-- Whether the second run may be the only one that is out of fuel. -/
  late : Prop

namespace Comparison

variable (c : Comparison)

def Stays (nodes : List Node) : Prop := ∀ n ∈ nodes, c.stays n.mark.id

/-- The nodes of a declaration stay, but for what is taken out of it. -/
def Knows : Decl → Prop
  | .function d => c.Stays (Stmt.function (c.function d)).nodes
  | .struct d => c.Stays (Stmt.struct d).nodes
  | d => ∀ m, d.mark? = some m → c.stays m.id

def Owns : Value → Prop
  | .function d => c.Knows (.function d)
  | .constructor d => c.Knows (.struct d)
  | _ => True

structure Owned (m : Machine) : Prop where
  values : m.AllValues c.Owns
  rules : m.AllRules fun _ r => c.Stays (Stmt.rule (c.rule r.decl)).nodes

/-- The attributes of the nodes that stay are those of the tidied program, and parentheses are taken
away only if they have the type of what they are around. -/
structure Fits (ctx ctx' : Context) : Prop where
  limit : ctx'.maxDepth = ctx.maxDepth
  attributes : ∀ id, c.stays id →
    ctx'.table.attributes id = c.attributes (ctx.table.attributes id)
  text : ∀ i, (ctx'.table.scopes.get i).text = (ctx.table.scopes.get i).text
  dropped : ∀ m inner, c.drops (.paren m inner) = true →
    ctx.table.typeOf m = ctx.table.typeOf inner.mark
  known : ∀ id d, c.stays id → (ctx.table.attributes id).decl = some d → c.Knows d

/-- The results of two evaluations are the same but for what is taken out. -/
inductive Alike {α β : Type} (F : α → β) (V : α → Prop) :
    EStateM.Result Halt Machine α → EStateM.Result Halt Machine β → Prop
  | ok {a : α} {m : Machine} (ha : V a) (hm : c.Owned m) :
    Alike F V (.ok a m) (.ok (F a) (c.machine m))
  | error {h h' : Halt} {m : Machine} (hc : h'.cause? = h.cause?) :
    Alike F V (.error h m) (.error h' (c.machine m))
  | early {m : Machine} {r : EStateM.Result Halt Machine β} (h : c.early) :
    Alike F V (.error .outOfFuel m) r
  | late {m : Machine} {r : EStateM.Result Halt Machine α} (h : c.late) :
    Alike F V r (.error .outOfFuel m)

/-- From any machine and the same machine tidied on, the results are alike. -/
def Agrees {α β : Type} (F : α → β) (V : α → Prop) (x : Eval α) (y : Eval β) : Prop :=
  ∀ m, c.Owned m → c.Alike F V (x m) (y (c.machine m))

variable {c}

theorem stays_cons {n : Node} {ns : List Node} :
    c.Stays (n :: ns) ↔ c.stays n.mark.id ∧ c.Stays ns := List.forall_mem_cons

theorem stays_append {ns ns' : List Node} : c.Stays (ns ++ ns') ↔ c.Stays ns ∧ c.Stays ns' :=
  List.forall_mem_append

theorem Stays.mono {nodes nodes' : List Node} (h : c.Stays nodes) (hsub : nodes' ⊆ nodes) :
    c.Stays nodes' := fun n hn => h n (hsub hn)

theorem Stays.expr {e : Expr} (h : c.Stays e.nodes) : c.stays e.mark.id := h _ e.self_mem_nodes

theorem Stays.stmt {s : Stmt} (h : c.Stays s.nodes) : c.stays s.ref.mark.id :=
  h _ s.self_mem_nodes

theorem stays_of_some {m : Mark} (h : c.stays m.id) : ∀ m', some m = some m' → c.stays m'.id := by
  rintro _ ⟨⟩
  exact h

theorem Knows.function {d : FunctionDecl} (h : c.Knows (.function d)) :
    c.stays d.mark.id ∧ (∀ p ∈ d.parameters, c.stays p.mark.id) ∧
      c.Stays (c.stmt (.block d.body)).nodes := by
  obtain ⟨m, name, parameters, returnType, ⟨block, body⟩⟩ := d
  simp only [Knows, Tidying.function, Tidying.block, Stmt.nodes, stays_cons, stays_append] at h
  obtain ⟨hmark, ⟨hparameters, -⟩, hblock, hbody⟩ := h
  refine ⟨hmark, fun p hp => ?_, ?_⟩
  · exact hparameters _ (List.mem_flatMap.mpr ⟨p, hp, List.mem_cons_self⟩)
  · rw [Tidying.stmt, Stmt.nodes, stays_cons]
    exact ⟨hblock, hbody⟩

theorem Stays.rule {d : RuleDecl} (h : c.Stays (Stmt.rule (c.rule d)).nodes) :
    (∀ p ∈ d.parameters, c.stays p.mark.id) ∧ c.Stays (c.goal d.body).nodes := by
  simp only [Stmt.nodes, RuleDecl.nodes, stays_cons, stays_append] at h
  exact ⟨fun p hp => h.2.1 _ (List.mem_flatMap.mpr ⟨p, hp, List.mem_cons_self⟩), h.2.2⟩

theorem Owns.widen {v : Value} (h : c.Owns v) (t : Ty) : c.Owns (v.widen t) := by
  unfold Value.widen
  split
  · trivial
  · exact h

theorem owns_apply {op : BinaryOp} {s t : Ty} {l r v : Value}
    (h : Operator.apply op s t l r = .ok v) : c.Owns v := by
  have honInts : ∀ v, Operator.onInts op l r = .ok v → c.Owns v := by
    intro v h
    unfold Operator.onInts at h
    repeat' split at h
    all_goals cases h
    all_goals trivial
  have honFloats : ∀ v, Operator.onFloats op l r = .ok v → c.Owns v := by
    intro v h
    unfold Operator.onFloats at h
    repeat' split at h
    all_goals cases h
    all_goals trivial
  unfold Operator.apply at h
  split at h
  · cases h
    trivial
  · split at h
    · cases h
      trivial
    · split at h
      · exact honFloats v h
      · exact honInts v h

namespace Owned

variable {m m' : Machine} {v : Value}

theorem empty : c.Owned {} := ⟨.empty, .empty⟩

theorem of_frames (h : c.Owned m) (hframes : m'.frames = m.frames) (hvalues : m'.AllValues c.Owns) :
    c.Owned m' :=
  ⟨hvalues, h.rules.of_eq fun f => by rw [Machine.frame_of_frames hframes]⟩

theorem define (h : c.Owned m) (hv : c.Owns v) (f : FrameId) (name : String) :
    c.Owned (m.define f name v) := ⟨h.values.define hv, h.rules.of_eq fun i => by simp⟩

theorem push (h : c.Owned m) (scope : ScopeId) : c.Owned (m.push scope).2 :=
  ⟨h.values.push, h.rules.of_eq fun _ => Machine.predicates_push ..⟩

end Owned

namespace Fits

variable {ctx ctx' : Context} (fit : c.Fits ctx ctx')
include fit

theorem typeOf {m : Mark} (h : c.stays m.id) : ctx'.table.typeOf m = ctx.table.typeOf m := by
  unfold Table.typeOf
  rw [fit.attributes _ h]
  rfl

theorem scope {m : Mark} (h : c.stays m.id) :
    (ctx'.table.attributes m.id).scope = (ctx.table.attributes m.id).scope := by
  rw [fit.attributes _ h]
  rfl

theorem bodyScope {m : Mark} (h : c.stays m.id) :
    (ctx'.table.attributes m.id).bodyScope = (ctx.table.attributes m.id).bodyScope := by
  rw [fit.attributes _ h]
  rfl

theorem decl {m : Mark} (h : c.stays m.id) : (ctx'.table.attributes m.id).decl =
    (ctx.table.attributes m.id).decl.map c.toTidying.decl := by
  rw [fit.attributes _ h]
  rfl

theorem typeOf_expr {e : Expr} {value : Bool} (h : c.Stays (c.expr value e).nodes) :
    ctx'.table.typeOf (c.expr value e).mark = ctx.table.typeOf e.mark := by
  rcases c.expr_cases value e with hsame | ⟨m, inner, rfl, hdrops, hinner⟩
  · rw [fit.typeOf h.expr, hsame, Tidying.mark_expr_false]
  · rw [hinner] at h ⊢
    exact (typeOf_expr h).trans (fit.dropped m inner hdrops).symm
termination_by sizeOf e

end Fits

namespace Agrees

variable {α β γ δ : Type} {x : Eval α} {y : Eval β} {F : α → β} {V : α → Prop} {f : α → Eval γ}
  {g : β → Eval δ} {G : γ → δ} {W : γ → Prop} {ctx ctx' : Context} {env : Env}

theorem pure {a : α} {b : β} (ha : V a) (hb : F a = b) :
    c.Agrees F V (Pure.pure a) (Pure.pure b) := fun m hm => by
  subst hb
  exact .ok ha hm

theorem throw {h : Halt} :
    c.Agrees F V (MonadExcept.throw h) (MonadExcept.throw h) := fun _ _ => .error rfl

theorem raise {cause : Cause} : c.Agrees F V (Eval.raise cause) (Eval.raise cause) := throw

theorem raiseAt {cause : Cause} {node node' : NodeRef} :
    c.Agrees F V (Eval.raiseAt cause node) (Eval.raiseAt cause node') := fun _ _ => .error rfl

theorem weaken {V' : α → Prop} (h : c.Agrees F V x y) (hV : ∀ a, V a → V' a) :
    c.Agrees F V' x y := by
  intro m hm
  have h := h m hm
  generalize x m = r at h
  generalize y (c.machine m) = s at h
  cases h with
  | ok ha hm => exact .ok (hV _ ha) hm
  | error hc => exact .error hc
  | early h => exact .early h
  | late h => exact .late h

theorem bind (hx : c.Agrees F V x y) (hf : ∀ a, V a → c.Agrees G W (f a) (g (F a))) :
    c.Agrees G W (x >>= f) (y >>= g) := by
  intro m hm
  have h := hx m hm
  generalize hr : x m = r at h
  generalize hs : y (c.machine m) = s at h
  cases h with
  | ok ha hm =>
    rw [bind_of_ok hr, bind_of_ok hs]
    exact hf _ ha _ hm
  | error hc =>
    rw [bind_of_error hr, bind_of_error hs]
    exact .error hc
  | early h =>
    rw [bind_of_error hr]
    exact .early h
  | late h =>
    rw [bind_of_error hs]
    exact .late h

theorem raise_bind {cause : Cause} :
    c.Agrees G W ((Eval.raise cause : Eval α) >>= f) ((Eval.raise cause : Eval β) >>= g) :=
  fun _ _ => .error rfl

theorem raiseAt_bind {cause : Cause} {node node' : NodeRef} :
    c.Agrees G W ((Eval.raiseAt cause node : Eval α) >>= f)
      ((Eval.raiseAt cause node' : Eval β) >>= g) := fun _ _ => .error rfl

theorem attach_of_error {x : Eval α} {m m' : Machine} {h : Halt} (node : NodeRef)
    (hx : x m = .error h m') :
    ∃ h' : Halt, Eval.attach node x m = .error h' m' ∧ h'.cause? = h.cause? ∧
      (h = .outOfFuel → h' = .outOfFuel) := by
  cases h with
  | fault f => exact ⟨_, attach_of_fault hx, rfl, nofun⟩
  | outOfFuel => exact ⟨_, attach_of_outOfFuel hx, rfl, fun _ => rfl⟩

theorem attach_left {node : NodeRef} (h : c.Agrees F V x y) :
    c.Agrees F V (Eval.attach node x) y := by
  intro m hm
  have h := h m hm
  generalize hr : x m = r at h
  generalize y (c.machine m) = s at h
  cases h with
  | ok ha hm =>
    rw [attach_of_ok hr]
    exact .ok ha hm
  | error hc =>
    obtain ⟨h', heq, hcause, -⟩ := attach_of_error node hr
    rw [heq]
    exact .error (hc.trans hcause.symm)
  | early h =>
    rw [attach_of_outOfFuel hr]
    exact .early h
  | late h => exact .late h

theorem attach_right {node : NodeRef} (h : c.Agrees F V x y) :
    c.Agrees F V x (Eval.attach node y) := by
  intro m hm
  have h := h m hm
  generalize x m = r at h
  generalize hs : y (c.machine m) = s at h
  cases h with
  | ok ha hm =>
    rw [attach_of_ok hs]
    exact .ok ha hm
  | error hc =>
    obtain ⟨h', heq, hcause, -⟩ := attach_of_error node hs
    rw [heq]
    exact .error (hcause.trans hc)
  | early h => exact .early h
  | late h =>
    rw [attach_of_outOfFuel hs]
    exact .late h

theorem attach {node node' : NodeRef} (h : c.Agrees F V x y) :
    c.Agrees F V (Eval.attach node x) (Eval.attach node' y) := h.attach_left.attach_right

theorem get_bind {f : Machine → Eval γ} {g : Machine → Eval δ}
    (h : ∀ m, c.Owned m → c.Agrees G W (f m) (g (c.machine m))) :
    c.Agrees G W (MonadState.get >>= f) (MonadState.get >>= g) := fun m hm => h m hm m hm

theorem change {f g : Machine → Machine}
    (h : ∀ m, c.Owned m → c.Owned (f m) ∧ g (c.machine m) = c.machine (f m)) :
    c.Agrees id (fun _ => True) (modify f) (modify g) := by
  intro m hm
  obtain ⟨howned, heq⟩ := h m hm
  show c.Alike id _ (.ok PUnit.unit (f m)) (.ok PUnit.unit (g (c.machine m)))
  rw [heq]
  exact .ok trivial howned

theorem lift {e : Except Cause α} {e' : Except Cause β} (heq : e' = e.map F)
    (h : ∀ a, e = .ok a → V a) : c.Agrees F V (Eval.lift e) (Eval.lift e') := by
  subst heq
  cases e with
  | ok a => exact pure (h a rfl) rfl
  | error cause => exact raise

section Basic

variable {v : Value} {name : String} {scope : ScopeId}

theorem display : c.Agrees id (fun _ => True) (Eval.display v) (Eval.display (c.value v)) := by
  refine get_bind fun m _ => ?_
  rw [Tidying.text?_machine]
  cases m.text? v with
  | some text => exact pure trivial rfl
  | none => exact throw

theorem operate {op : BinaryOp} {s t : Ty} {l r : Value} :
    c.Agrees c.value c.Owns (Eval.operate op s t l r)
      (Eval.operate op s t (c.value l) (c.value r)) := by
  unfold Eval.operate
  split
  · exact display.bind fun _ _ => display.bind fun _ _ => pure trivial rfl
  · exact lift (by rw [Tidying.apply_value, Tidying.map_apply]) fun v hv => owns_apply hv

theorem log {e : Event} : c.Agrees id (fun _ => True) (Eval.log e) (Eval.log e) :=
  change fun _ hm => ⟨hm.of_frames rfl ⟨hm.values.bound, hm.values.held⟩, rfl⟩

theorem arity {wanted got : Nat} :
    c.Agrees id (fun _ => True) (Eval.arity name wanted got) (Eval.arity name wanted got) := by
  unfold Eval.arity
  split
  · exact pure trivial rfl
  · exact raise

theorem push : c.Agrees id (fun _ => True) (Eval.push scope) (Eval.push scope) := by
  intro m hm
  show c.Alike id _ (.ok (m.push scope).1 (m.push scope).2)
    (.ok ((c.machine m).push scope).1 ((c.machine m).push scope).2)
  rw [Tidying.push_machine]
  exact .ok trivial (hm.push scope)

theorem alloc {object : Object} (ho : object.All c.Owns) :
    c.Agrees id (fun _ => True) (Eval.alloc object) (Eval.alloc (c.object object)) := by
  intro m hm
  show c.Alike id _ (.ok (m.alloc object).1 (m.alloc object).2)
    (.ok ((c.machine m).alloc (c.object object)).1 ((c.machine m).alloc (c.object object)).2)
  rw [Tidying.alloc_machine]
  exact .ok trivial (hm.of_frames rfl (hm.values.alloc ho))

theorem updateObject {o : ObjectId} {change change' : Object → Object}
    (hall : ∀ object : Object, object.All c.Owns → (change object).All c.Owns)
    (h : ∀ object, c.object (change object) = change' (c.object object)) :
    c.Agrees id (fun _ => True) (modify (·.updateObject o change))
      (modify (·.updateObject o change')) :=
  Agrees.change fun m hm => ⟨hm.of_frames rfl (hm.values.updateObject hall),
    (Tidying.updateObject_machine h m o).symm⟩

end Basic

section Frames

variable {node : NodeRef} {scope : ScopeId} {name : String} {v : Value} {target target' : Ty}

theorem scopeOf (fit : c.Fits ctx ctx') (h : c.stays node.mark.id) :
    c.Agrees id (fun _ => True) (Eval.scopeOf ctx node) (Eval.scopeOf ctx' node) := by
  unfold Eval.scopeOf
  rw [fit.scope h]
  split
  · exact pure trivial rfl
  · exact raise

theorem read (fit : c.Fits ctx ctx') :
    c.Agrees c.value c.Owns (Eval.read ctx env scope name) (Eval.read ctx' env scope name) := by
  refine get_bind fun m hm => lift ?_ fun v hv => ?_
  · unfold Machine.read
    rw [Tidying.frameOf?_machine, fit.text]
    cases m.frameOf? env scope with
    | none => rfl
    | some f =>
      dsimp only
      rw [Tidying.frame_machine, Tidying.frame, Bindings.get?_map]
      cases (m.frame f).bindings.get? name <;> rfl
  · unfold Machine.read at hv
    split at hv
    · cases hv
    · split at hv
      · cases hv
      · cases hv
        exact hm.values.bound _ _ _ ‹_›

theorem write (fit : c.Fits ctx ctx') (hv : c.Owns v) :
    c.Agrees id (fun _ => True) (Eval.write ctx env scope name v target)
      (Eval.write ctx' env scope name (c.value v) target) := by
  refine get_bind fun m _ => (lift (F := id) (V := fun _ => True) ?_ fun _ _ => trivial).bind
    fun f _ => change fun m hm => ?_
  · unfold Machine.slot
    rw [Tidying.frameOf?_machine, fit.text]
    cases m.frameOf? env scope <;> rfl
  · refine ⟨hm.define (hv.widen target) f name, ?_⟩
    rw [Tidying.define_machine, Tidying.widen_value]
    rfl

theorem writeAt (fit : c.Fits ctx ctx') (h : c.stays node.mark.id) (hv : c.Owns v) :
    c.Agrees id (fun _ => True) (Eval.writeAt ctx env node name v target)
      (Eval.writeAt ctx' env node name (c.value v) target) :=
  (scopeOf fit h).bind fun _ _ => write fit hv

theorem bindParameters (fit : c.Fits ctx ctx') {ps : List Parameter} {vs : List Value}
    (hps : ∀ p ∈ ps, c.stays p.mark.id) (hvs : ∀ v ∈ vs, c.Owns v) :
    c.Agrees id (fun _ => True) (Eval.bindParameters ctx env scope ps vs)
      (Eval.bindParameters ctx' env scope ps (vs.map c.value)) := by
  induction ps generalizing vs with
  | nil => exact pure trivial rfl
  | cons p ps ih =>
    cases vs with
    | nil => exact pure trivial rfl
    | cons v vs =>
      simp only [List.forall_mem_cons] at hps hvs
      rw [List.map_cons, Eval.bindParameters, Eval.bindParameters, fit.typeOf hps.1]
      exact (write fit hvs.1).bind fun _ _ => ih hps.2 hvs.2

theorem storeFrame (fit : c.Fits ctx ctx') (h : c.stays node.mark.id) :
    c.Agrees id (fun _ => True) (Eval.storeFrame ctx env node) (Eval.storeFrame ctx' env node) := by
  refine (scopeOf fit h).bind fun scope _ => get_bind fun m _ => ?_
  rw [Tidying.frameOf?_machine, id, fit.text]
  split
  · exact pure trivial rfl
  · exact raise

theorem changeStore {f : FrameId} {change change' : PredicateStore → Except Cause PredicateStore}
    (hstore : ∀ s, change' (c.store s) = (change s).map c.store)
    (hrules : ∀ (m : Machine) store, c.Owned m → change (m.frame f).predicates = .ok store →
      (m.setStore f store).AllRules fun _ r => c.Stays (Stmt.rule (c.rule r.decl)).nodes) :
    c.Agrees id (fun _ => True) (Eval.changeStore f change) (Eval.changeStore f change') := by
  intro m hm
  have hstep : Eval.changeStore f change m = (Eval.lift (change (m.frame f).predicates) >>=
      fun store => modify (·.setStore f store)) m := rfl
  have hstep' : Eval.changeStore f change' (c.machine m) =
      (Eval.lift (change' ((c.machine m).frame f).predicates) >>=
        fun store => modify (·.setStore f store)) (c.machine m) := rfl
  rw [hstep, hstep', Tidying.frame_machine, Tidying.frame, hstore]
  cases hs : change (m.frame f).predicates with
  | error cause => exact .error rfl
  | ok store =>
    show c.Alike id _ (.ok PUnit.unit (m.setStore f store))
      (.ok PUnit.unit ((c.machine m).setStore f (c.store store)))
    rw [← Tidying.setStore_machine]
    exact .ok trivial ⟨hm.values.setStore, hrules m store hm hs⟩

theorem reference (fit : c.Fits ctx ctx') {r : Reference} (h : c.stays r.mark.id) :
    c.Agrees c.value c.Owns (Eval.reference ctx env r) (Eval.reference ctx' env r) := by
  unfold Eval.reference
  rw [fit.decl h]
  cases hdecl : (ctx.table.attributes r.mark.id).decl with
  | none => exact raise
  | some d =>
    cases d with
    | function d => exact pure (fit.known _ _ h hdecl) rfl
    | builtinFunction | builtinType | struct => exact pure trivial rfl
    | _ =>
      have hnode : c.stays (⟨.reference, r.mark⟩ : NodeRef).mark.id := h
      exact (scopeOf fit hnode).bind fun _ _ => read fit

theorem constructor (fit : c.Fits ctx ctx') {m : Mark} (h : c.stays m.id) :
    c.Agrees c.value c.Owns (Eval.constructor ctx m name) (Eval.constructor ctx' m name) := by
  unfold Eval.constructor
  rw [fit.decl h]
  cases hdecl : (ctx.table.attributes m.id).decl with
  | none => exact raise
  | some d =>
    cases d with
    | struct d => exact pure (fit.known _ _ h hdecl) rfl
    | _ => exact raise

theorem declareAtom (fit : c.Fits ctx ctx') {d : AtomDecl} (h : c.stays d.mark.id) :
    c.Agrees id (fun _ => True) (Eval.declareAtom ctx env d) (Eval.declareAtom ctx' env d) := by
  have hnode : c.stays (⟨.atomDeclaration, d.mark⟩ : NodeRef).mark.id := h
  exact (scopeOf fit hnode).bind fun _ _ => log.bind fun _ _ => write (v := .bool true) fit trivial

theorem declareRule (fit : c.Fits ctx ctx') {d : RuleDecl}
    (h : c.Stays (Stmt.rule (c.rule d)).nodes) :
    c.Agrees id (fun _ => True) (Eval.declareRule ctx env d)
      (Eval.declareRule ctx' env (c.rule d)) := by
  have hmark : c.stays d.mark.id := h.stmt
  have hnode : c.stays (⟨.ruleDeclaration, d.mark⟩ : NodeRef).mark.id := hmark
  have hbody : (ctx'.table.attributes (c.rule d).mark.id).bodyScope =
      (ctx.table.attributes d.mark.id).bodyScope := fit.bodyScope hmark
  unfold Eval.declareRule
  rw [hbody]
  cases (ctx.table.attributes d.mark.id).bodyScope with
  | none => exact raise
  | some scope =>
    refine (storeFrame fit hnode).bind fun f _ => ?_
    refine (changeStore (fun s => ?_) fun m store hm hs => ?_).bind fun _ _ => log
    · exact Tidying.setRule_store s d.functor ⟨d, scope, env⟩
    · exact hm.rules.setRule h hs

end Frames

section Objects

variable {name : String} {v stem : Value}

theorem fieldOf : c.Agrees c.value c.Owns (Eval.fieldOf stem name)
    (Eval.fieldOf (c.value stem) name) := by
  refine get_bind fun m hm => ?_
  cases stem with
  | array o =>
    simp only [Tidying.value, Tidying.object_machine]
    cases m.objects[o]? with
    | none => exact raise
    | some object =>
      cases object with
      | array elements =>
        simp only [Option.map_some, Tidying.object, Array.size_map]
        split
        · exact pure trivial rfl
        · exact raise
      | struct d fields => exact raise
  | struct o =>
    simp only [Tidying.value, Tidying.object_machine]
    cases ho : m.objects[o]? with
    | none => exact raise
    | some object =>
      cases object with
      | array elements => exact raise
      | struct d fields =>
        simp only [Option.map_some, Tidying.object, Bindings.get?_map]
        cases hv : fields.get? name with
        | none => exact raise
        | some v => exact pure (hm.values.held o _ ho name v hv) rfl
  | _ => exact raise

theorem element {array index : Value} :
    c.Agrees id (fun _ => True) (Eval.element array index)
      (Eval.element (c.value array) (c.value index)) := by
  cases array with
  | array o =>
    refine get_bind fun m _ => ?_
    rw [Tidying.arrayLength_machine]
    cases index with
    | int i =>
      simp only [Tidying.value]
      split
      · exact pure trivial rfl
      · exact raise
    | _ => exact raise
  | _ => exact raise

theorem getElement {o : ObjectId} {i : Nat} :
    c.Agrees c.value c.Owns (Eval.getElement o i) (Eval.getElement o i) := by
  refine get_bind fun m hm => ?_
  rw [Tidying.object_machine]
  cases ho : m.objects[o]? with
  | none => exact pure trivial rfl
  | some object =>
    cases object with
    | struct d fields => exact pure trivial rfl
    | array elements =>
      by_cases hi : i < elements.size
      · have hmem : elements.getD i .absent ∈ elements := by simp [Array.getD, hi]
        refine pure (hm.values.held o _ ho _ hmem) ?_
        simp [Array.getD, hi]
      · have hnone : elements.getD i .absent = .absent := by simp [Array.getD, hi]
        refine pure ?_ ?_
        · rw [hnone]
          trivial
        · simp [Array.getD, hi, Tidying.value]

theorem setElement {o : ObjectId} {i : Nat} (hv : c.Owns v) :
    c.Agrees id (fun _ => True) (Eval.setElement o i v) (Eval.setElement o i (c.value v)) :=
  updateObject (fun _ ho => ho.setElement hv i) (Tidying.setElement_object i v)

theorem setField (hv : c.Owns v) :
    c.Agrees id (fun _ => True) (Eval.setField stem name v)
      (Eval.setField (c.value stem) name (c.value v)) := by
  cases stem with
  | struct o =>
    refine get_bind fun m _ => ?_
    rw [Tidying.object_machine]
    cases m.objects[o]? with
    | none => exact raise
    | some object =>
      cases object with
      | array elements => exact raise
      | struct d fields =>
        simp only [Option.map_some, Tidying.object, Bindings.contains_map]
        split
        · exact updateObject (fun _ ho => ho.setField hv name) (Tidying.setField_object name v)
        · exact raise
  | _ => exact raise

theorem fillFields (fit : c.Fits ctx ctx') {fields : List FieldDecl} {args : List Value}
    {filled : Bindings Value} (hfields : ∀ f ∈ fields, c.stays f.mark.id) :
    Eval.fillFields ctx' fields (args.map c.value) (filled.map c.value) =
      (Eval.fillFields ctx fields args filled).map c.value := by
  induction fields generalizing args filled with
  | nil => rfl
  | cons field fields ih =>
    cases args with
    | nil => rfl
    | cons v args =>
      simp only [List.forall_mem_cons] at hfields
      rw [List.map_cons, Eval.fillFields, Eval.fillFields, fit.typeOf hfields.1,
        Tidying.widen_value, ← Bindings.map_set, ih hfields.2]

theorem owns_fillFields {fields : List FieldDecl} {args : List Value} {filled : Bindings Value}
    (hargs : ∀ v ∈ args, c.Owns v) (hfilled : ∀ name v, filled.get? name = some v → c.Owns v) :
    ∀ name v, (Eval.fillFields ctx fields args filled).get? name = some v → c.Owns v := by
  induction fields generalizing args filled with
  | nil => exact hfilled
  | cons field fields ih =>
    cases args with
    | nil => exact hfilled
    | cons a args =>
      simp only [List.forall_mem_cons] at hargs
      refine ih hargs.2 fun name v hv => ?_
      by_cases hn : name = field.name
      · subst hn
        rw [Bindings.get?_set_self] at hv
        cases hv
        exact hargs.1.widen _
      · rw [Bindings.get?_set_ne _ _ hn] at hv
        exact hfilled name v hv

theorem construct (fit : c.Fits ctx ctx') {d : StructDecl} {args : List Value}
    (hd : c.Knows (.struct d)) (hargs : ∀ v ∈ args, c.Owns v) :
    c.Agrees c.value c.Owns (Eval.construct ctx d args)
      (Eval.construct ctx' d (args.map c.value)) := by
  have hfields : ∀ f ∈ d.fields, c.stays f.mark.id := fun f hf => by
    refine hd (.field f) ?_
    simp only [Stmt.nodes, StructDecl.nodes, List.mem_cons, List.mem_flatMap]
    exact .inr ⟨f, hf, List.mem_cons_self⟩
  unfold Eval.construct
  rw [List.length_map]
  refine arity.bind fun _ _ => ?_
  have hobject : c.Agrees id (fun _ => True)
      (Eval.alloc (.struct d (Eval.fillFields ctx d.fields args ∅)))
      (Eval.alloc (c.object (.struct d (Eval.fillFields ctx d.fields args ∅)))) :=
    alloc (owns_fillFields hargs fun _ _ hv => by cases hv)
  have hempty : (∅ : Bindings Value) = (∅ : Bindings Value).map c.value := rfl
  rw [hempty, fillFields fit hfields]
  exact hobject.bind fun o _ => pure trivial rfl

theorem native {args : List Value} :
    c.Agrees c.value c.Owns (Eval.native name args) (Eval.native name (args.map c.value)) := by
  have hhead : (args.map c.value).headD .absent = c.value (args.headD .absent) := by
    cases args <;> rfl
  unfold Eval.native
  rw [List.length_map, hhead]
  refine arity.bind fun _ _ => display.bind fun text _ => ?_
  refine (change fun m hm => ?_).bind fun _ _ => pure trivial rfl
  exact ⟨hm.of_frames rfl ⟨hm.values.bound, hm.values.held⟩, rfl⟩

end Objects

end Agrees

end Comparison

end LogicScript
