import LogicScript.Proofs.Conformance

/-! What the basic operations do to a machine that fits the static types.

The judgement `Respects` compares two evaluations, of which the first may be watched: they do the
same, and they leave a machine behind that still fits, in a world that may have grown. -/
namespace LogicScript

open Analysis (useType elementOf resultOf)

namespace Eval

variable {α β : Type}

/-- Two evaluations that begin in a machine of a world do the same, and if they give a result, it is as
told in the world that they leave behind. -/
def Respects (p : Program) (t : Table) (view : Ty.View) (w : World) (m : Machine) (x y : Eval α)
    (Q : World → α → Prop) : Prop :=
  m.Typed p t view w → x m = y m ∧
    ∀ a m', y m = .ok a m' → ∃ w', w <+: w' ∧ m'.Typed p t view w' ∧ Q w' a

namespace Respects

variable {p : Program} {t : Table} {view : Ty.View} {w : World} {m : Machine} {x y : Eval α}
  {f g : α → Eval β} {P : World → α → Prop} {Q : World → β → Prop}

/-- What is told may depend on how the machine fits. -/
theorem given (h : m.Typed p t view w → Respects p t view w m x y P) :
    Respects p t view w m x y P := fun hm => h hm hm

theorem weaken {P' : World → α → Prop} (h : Respects p t view w m x y P)
    (hP : ∀ w' a, w <+: w' → P w' a → P' w' a) : Respects p t view w m x y P' := by
  intro hm
  obtain ⟨hxy, hy⟩ := h hm
  refine ⟨hxy, fun a m' hok => ?_⟩
  obtain ⟨w', hw, hm', ha⟩ := hy a m' hok
  exact ⟨w', hw, hm', hP w' a hw ha⟩

theorem pure {a : α} (h : P w a) : Respects p t view w m (Pure.pure a) (Pure.pure a) P := fun hm =>
  ⟨rfl, by rintro _ _ ⟨⟩; exact ⟨w, List.prefix_rfl, hm, h⟩⟩

theorem throw {halt : Halt} :
    Respects p t view w m (MonadExcept.throw halt) (MonadExcept.throw halt) P := fun _ =>
  ⟨rfl, by rintro _ _ ⟨⟩⟩

theorem raise {cause : Cause} : Respects p t view w m (Eval.raise cause) (Eval.raise cause) P := throw

theorem raiseAt {cause : Cause} {node : NodeRef} :
    Respects p t view w m (Eval.raiseAt cause node) (Eval.raiseAt cause node) P := throw

theorem bind (hx : Respects p t view w m x y P)
    (hf : ∀ w' m' a, w <+: w' → P w' a → Respects p t view w' m' (f a) (g a) Q) :
    Respects p t view w m (x >>= f) (y >>= g) Q := by
  intro hm
  obtain ⟨hxy, hy⟩ := hx hm
  cases r : y m with
  | error halt m' =>
    rw [bind_of_error r, bind_of_error (hxy.trans r)]
    exact ⟨rfl, by rintro _ _ ⟨⟩⟩
  | ok a m' =>
    obtain ⟨w', hw, hm', ha⟩ := hy a m' r
    obtain ⟨hfg, hg⟩ := hf w' m' a hw ha hm'
    rw [bind_of_ok r, bind_of_ok (hxy.trans r)]
    refine ⟨hfg, fun b m'' hok => ?_⟩
    obtain ⟨w'', hw', hm'', hb⟩ := hg b m'' hok
    exact ⟨w'', hw.trans hw', hm'', hb⟩

theorem raise_bind {cause : Cause} :
    Respects p t view w m (Eval.raise cause >>= f) (Eval.raise cause >>= g) Q :=
  (raise (P := fun _ _ => False)).bind fun _ _ _ _ h => h.elim

theorem raiseAt_bind {cause : Cause} {node : NodeRef} :
    Respects p t view w m (Eval.raiseAt cause node >>= f) (Eval.raiseAt cause node >>= g) Q :=
  (raiseAt (P := fun _ _ => False)).bind fun _ _ _ _ h => h.elim

theorem attach {node : NodeRef} (h : Respects p t view w m x y P) :
    Respects p t view w m (Eval.attach node x) (Eval.attach node y) P := by
  intro hm
  obtain ⟨hxy, hy⟩ := h hm
  refine ⟨by unfold Eval.attach; rw [hxy], fun a m' hok => hy a m' ?_⟩
  unfold Eval.attach at hok
  split at hok
  · cases hok
  · exact hok

/-- What was read of the machine is known, so the rest is judged for this machine. -/
theorem get_bind {f g : Machine → Eval β} (h : Respects p t view w m (f m) (g m) Q) :
    Respects p t view w m (MonadState.get >>= f) (MonadState.get >>= g) Q := h

theorem lift_bind {e : Except Cause α} (h : ∀ a, e = .ok a → Respects p t view w m (f a) (g a) Q) :
    Respects p t view w m (lift e >>= f) (lift e >>= g) Q := by
  cases e with
  | ok a => exact h a rfl
  | error cause => exact throw

theorem lift {e : Except Cause α} (h : ∀ a, e = .ok a → P w a) :
    Respects p t view w m (Eval.lift e) (Eval.lift e) P := by
  cases e with
  | ok a => exact pure (h a rfl)
  | error cause => exact throw

theorem change {k : Machine → Machine} (h : m.Typed p t view w → (k m).Typed p t view w) :
    Respects p t view w m (modify k) (modify k) fun _ _ => True := fun hm =>
  ⟨rfl, by rintro _ _ ⟨⟩; exact ⟨w, List.prefix_rfl, h hm, trivial⟩⟩

theorem log {e : Event} : Respects p t view w m (Eval.log e) (Eval.log e) fun _ _ => True :=
  change fun hm => hm.log e

theorem display {v : Value} :
    Respects p t view w m (Eval.display v) (Eval.display v) fun _ _ => True := by
  refine get_bind ?_
  cases m.text? v with
  | some text => exact pure trivial
  | none => exact throw

theorem arity {name : String} {wanted got : Nat} :
    Respects p t view w m (Eval.arity name wanted got) (Eval.arity name wanted got) fun _ _ => True := by
  unfold Eval.arity
  split
  · exact pure trivial
  · exact raise

theorem push {scope : ScopeId} :
    Respects p t view w m (Eval.push scope) (Eval.push scope) fun _ _ => True := fun hm =>
  ⟨rfl, by rintro _ _ ⟨⟩; exact ⟨w, List.prefix_rfl, hm.push scope, trivial⟩⟩

theorem alloc {object : Object} {shape : Shape} (howned : object.All p.Owns)
    (hheld : p.Consistent t view → shape.Holds p t view w object) :
    Respects p t view w m (Eval.alloc object) (Eval.alloc object) fun w' o =>
      w'[o]? = some shape := by
  refine fun hm => ⟨rfl, ?_⟩
  rintro _ _ ⟨⟩
  have hlast : (w ++ [shape])[m.objects.size]? = some shape := by
    rw [← hm.size, List.getElem?_concat_length]
  exact ⟨_, List.prefix_append w [shape], hm.alloc howned hheld, hlast⟩

section Frames

variable {ctx : Context} {env : Env} {node : NodeRef} {scope : ScopeId} {name : String} {v : Value}
  {slot : Ty}

theorem scopeOf_bind {f g : ScopeId → Eval β}
    (h : ∀ scope, (ctx.table.attributes node.mark.id).scope = some scope →
      Respects p t view w m (f scope) (g scope) Q) :
    Respects p t view w m (scopeOf ctx node >>= f) (scopeOf ctx node >>= g) Q := by
  unfold scopeOf
  cases hs : (ctx.table.attributes node.mark.id).scope with
  | none => exact throw
  | some scope => exact h scope hs

theorem read : Respects p t view w m (read ctx env scope name) (read ctx env scope name) fun w' v =>
    p.Owns v ∧ ∀ d, t.scopes.findLocal scope name = some d → d.isTyped = true →
      ¬ d.Reused p t view name → v.Conforms p t view w' ((useType t d).seen view) := by
  refine given fun hm => get_bind (lift fun v hv => ?_)
  unfold Machine.read at hv
  split at hv
  · cases hv
  · rename_i f hf
    split at hv
    · cases hv
    · rename_i hget
      cases hv
      have hscope : (m.frame f).scope = scope := by simpa using List.find?_some hf
      exact ⟨hm.values.bound f name v hget, fun d hd => hm.bound f name v d hget (hscope ▸ hd)⟩

theorem write (hv : p.Owns v)
    (hslot : ∀ d, t.scopes.findLocal scope name = some d → d.isTyped = true →
      ¬ d.Reused p t view name → (v.widen slot).Conforms p t view w ((useType t d).seen view)) :
    Respects p t view w m (write ctx env scope name v slot) (write ctx env scope name v slot)
      fun _ _ => True := by
  refine get_bind (lift_bind fun f hf => change fun hm => ?_)
  unfold Machine.slot at hf
  split at hf
  · cases hf
  · rename_i f' hframe
    cases hf
    have hscope : (m.frame f).scope = scope := by simpa using List.find?_some hframe
    exact hm.define (hv.widen slot) (hscope ▸ hslot)

theorem writeAt {D : Decl → Prop} (henters : ctx.table.Enters node.mark name D)
    (hv : p.Owns v)
    (hslot : ∀ d, D d → d.isTyped = true → ¬ d.Reused p ctx.table view name →
      (v.widen slot).Conforms p ctx.table view w ((useType ctx.table d).seen view)) :
    Respects p ctx.table view w m (writeAt ctx env node name v slot) (writeAt ctx env node name v slot)
      fun _ _ => True := by
  refine scopeOf_bind fun scope hs => write hv fun d hd htyped hreused => ?_
  obtain ⟨d', hd', hD⟩ := henters scope hs
  obtain rfl : d = d' := Option.some.inj (hd.symm.trans hd')
  exact hslot d hD htyped hreused

theorem bindParameters {ps : List Parameter} {vs : List Value}
    (hps : ctx.table.EntersAll scope ps) (hvs : ∀ v ∈ vs, p.Owns v)
    (hfits : ∀ q ∈ (ps.map (ctx.table.seen view ·.mark)).zip vs,
      (q.2.widen q.1).Conforms p ctx.table view w q.1) :
    Respects p ctx.table view w m (bindParameters ctx env scope ps vs)
      (bindParameters ctx env scope ps vs) fun _ _ => True := by
  induction ps generalizing vs w m with
  | nil => exact pure trivial
  | cons q ps ih =>
    cases vs with
    | nil => exact pure trivial
    | cons v vs =>
      simp only [List.map_cons, List.zip_cons_cons, List.forall_mem_cons, Value.widen_seen_mark]
        at hvs hfits
      refine (write hvs.1 fun d hd _ _ => ?_).bind fun w' m' _ hw _ => ?_
      · rw [hps q List.mem_cons_self] at hd
        cases hd
        exact hfits.1
      · exact ih (fun q hq => hps q (List.mem_cons_of_mem _ hq)) hvs.2 fun q hq =>
          (hfits.2 q hq).mono hw

theorem storeFrame : Respects p t view w m (storeFrame ctx env node) (storeFrame ctx env node)
    fun _ _ => True := by
  refine scopeOf_bind fun scope _ => get_bind ?_
  split
  · exact pure trivial
  · exact raise

theorem changeStore {f : FrameId} {change : PredicateStore → Except Cause PredicateStore}
    (hok : ∀ store, change (m.frame f).predicates = .ok store → m.Typed p t view w →
      ∀ functor r, store.get? functor = some (.rule r) → r.Filed p t functor) :
    Respects p t view w m (changeStore f change) (changeStore f change) fun _ _ => True :=
  get_bind (lift_bind fun store hs => Respects.change fun hm => hm.setStore (hok store hs hm))

theorem addFact {f : FrameId} {functor : String} {tuple : List Value} :
    Respects p t view w m (Eval.changeStore f (·.addFact functor tuple))
      (Eval.changeStore f (·.addFact functor tuple)) fun _ _ => True :=
  changeStore fun _ hs hm _ _ hr => hm.rules f _ _ (PredicateStore.rule_of_addFact hs hr)

theorem declareRule {d : RuleDecl} (hd : .statement (.rule d) ∈ p.nodes) :
    Respects p ctx.table view w m (declareRule ctx env d) (declareRule ctx env d) fun _ _ => True := by
  unfold Eval.declareRule
  split
  · exact raise
  · rename_i scope hscope
    refine storeFrame.bind fun w₁ m₁ f _ _ => ?_
    refine (changeStore fun store hs hm functor r hr => ?_).bind fun w₂ m₂ _ _ _ => log
    rcases PredicateStore.rule_of_setRule hs hr with hold | ⟨rfl, rfl⟩
    · exact hm.rules f functor r hold
    · exact ⟨hd, rfl, hscope⟩

theorem declareAtom {d : AtomDecl}
    (henters : ctx.table.Enters d.mark d.name fun e => e.isAtom = true) :
    Respects p ctx.table view w m (declareAtom ctx env d) (declareAtom ctx env d) fun _ _ => True := by
  refine scopeOf_bind fun scope hs => log.bind fun w₁ m₁ _ _ _ => ?_
  refine write (.of_kind (by simp [Value.kind])) fun e he htyped _ => ?_
  obtain ⟨e', he', hatom⟩ := henters scope hs
  obtain rfl : e = e' := Option.some.inj (he.symm.trans he')
  cases e <;> first | cases htyped; done | cases hatom

theorem function_conforms {d : FunctionDecl} (hd : d ∈ p.functions) :
    (Value.function d).Conforms p t view w (t.seen view d.mark) := by
  have hnull : p.Consistent t view → t.seen view d.mark ≠ .null := by
    intro hc hnull
    have hfunction := (hc _ (Program.mem_functions.mp hd)).1
    rw [hnull] at hfunction
    cases hfunction
  unfold Value.Conforms
  split
  · simp [Value.kind]
  · exact fun hc => absurd ‹_› (hnull hc)
  · exact fun _ => ⟨by simp, by simp⟩
  · exact fun _ => ⟨by simp, by simp⟩
  · rename_i ps r htype
    refine fun _ => ⟨?_, by simp, by simp⟩
    rintro _ ⟨⟩
    exact htype
  · trivial

theorem reference {r : Reference} (ht : p.Typed ctx.table) (hr : r.node ∈ p.nodes)
    (hd : ∀ d, (ctx.table.attributes r.mark.id).decl = some (.function d) → d ∈ p.functions) :
    Respects p ctx.table view w m (reference ctx env r) (reference ctx env r) fun w' v =>
      (Expr.reference r).Yields p ctx.table view w' v := by
  cases hdecl : (ctx.table.attributes r.mark.id).decl with
  | none =>
    unfold Eval.reference
    rw [hdecl]
    exact raise
  | some d =>
    have htype : ctx.table.typeOf r.mark = useType ctx.table d :=
      ht.composed _ hr _ (by rw [Expr.composedType?, hdecl, Option.map_some])
    have hseen : ctx.table.seen view r.mark = (useType ctx.table d).seen view := by
      rw [Table.seen, htype]
    have hfunction : (Expr.reference r).function? ctx.table = d.function? := by
      simp only [Expr.function?, Expr.unwrap, hdecl, Option.bind_some]
    have hread : (∀ f, d ≠ .function f) → (d.isTyped = true ∨ useType ctx.table d = .bool) →
        Respects p ctx.table view w m (scopeOf ctx ⟨.reference, r.mark⟩ >>= fun scope =>
          Eval.read ctx env scope r.name) (scopeOf ctx ⟨.reference, r.mark⟩ >>= fun scope =>
          Eval.read ctx env scope r.name) fun w' v => (Expr.reference r).Yields p ctx.table view w' v := by
      intro hnot htyped
      refine scopeOf_bind fun scope hs => read.weaken fun w' v _ hv => ⟨hv.1, fun f hf => ?_, ?_⟩
      · rw [hfunction] at hf
        cases d <;> first | cases hf; done | exact absurd rfl (hnot _)
      · intro hcertain
        show v.Conforms p ctx.table view w' (ctx.table.seen view r.mark)
        rw [hseen]
        rcases htyped with htyped | hbool
        · obtain ⟨d', hd', rfl⟩ := ht.reference r hr d hdecl scope hs
          by_cases hreused : d'.Reused p ctx.table view r.name
          · -- The name has several types; so nothing is promised but where it does not matter.
            obtain ⟨hfloat, hshared⟩ := hcertain.of_reused hr hdecl hreused
            rw [← hseen]
            exact Value.conforms_unshared (fun h => hfloat (Ty.seen_eq_prim.mp h))
              (by simpa [Table.seen] using hshared)
          · exact hv.2 d' hd' htyped hreused
        · rw [hbool, Ty.seen_prim]
          trivial
    have hknown : ∀ v : Value, p.Owns v → (∀ f, d.function? = some f → v = .function f) →
        v.Conforms p ctx.table view w ((useType ctx.table d).seen view) →
        (Expr.reference r).Yields p ctx.table view w v := fun v hv hf hc =>
      ⟨hv, fun f hsome => hf f (hfunction ▸ hsome), fun _ => hseen ▸ hc⟩
    unfold Eval.reference
    rw [hdecl]
    cases d with
    | builtinFunction name =>
      refine pure (hknown _ (.of_kind (by simp [Value.kind])) (by rintro _ ⟨⟩) fun _ => ?_)
      exact ⟨by simp, by simp, fun _ _ => rfl⟩
    | builtinType primitive =>
      exact pure (hknown _ (.of_kind (by simp [Value.kind])) (by rintro _ ⟨⟩) trivial)
    | struct d => exact pure (hknown _ (.of_kind (by simp [Value.kind])) (by rintro _ ⟨⟩) trivial)
    | function f =>
      refine pure (hknown _ ?_ (by rintro _ ⟨⟩; rfl) (function_conforms (hd f hdecl)))
      rintro _ ⟨⟩
      exact hd f hdecl
    | atom => exact hread (by simp) (.inr rfl)
    | var | parameter | placeholder | fact | rule => exact hread (by simp) (.inl rfl)

end Frames

section Objects

variable {ctx : Context} {name : String} {v stem : Value}

theorem element {array index : Value} :
    Respects p t view w m (element array index) (element array index) fun _ q =>
      array = .array q.1 := by
  unfold Eval.element
  split
  · exact raise
  · refine get_bind ?_
    dsimp only
    split
    · split
      · exact pure rfl
      · exact raise
    · exact raise
  · exact raise

theorem getElement {o : ObjectId} {i : Nat} :
    Respects p t view w m (getElement o i) (getElement o i) fun w' v => p.Owns v ∧
      (p.Consistent t view → ∀ element, w[o]? = some (.array element) →
        v.Conforms p t view w' element) := by
  have habsent : p.Owns .absent ∧ (p.Consistent t view → ∀ element, w[o]? = some (.array element) →
      Value.absent.Conforms p t view w element) :=
    ⟨.of_kind (by simp [Value.kind]), fun _ _ _ => Value.conforms_nothing (.inr rfl)⟩
  refine given fun hm => get_bind ?_
  split
  · rename_i elements ho
    refine pure ?_
    by_cases hi : i < elements.size
    · have hmem : elements.getD i .absent ∈ elements := by
        simp [Array.getD, hi]
      exact ⟨hm.values.held o _ ho _ hmem, fun hc element hw => hm.held hc o _ _ hw ho _ hmem⟩
    · have hget : elements.getD i .absent = .absent := by simp [Array.getD, hi]
      rw [hget]
      exact habsent
  · exact pure habsent

theorem setElement {o : ObjectId} {i : Nat} (hv : p.Owns v)
    (hfits : p.Consistent t view → ∃ element, w[o]? = some (.array element) ∧
      v.Conforms p t view w element) :
    Respects p t view w m (setElement o i v) (setElement o i v) fun _ _ => True :=
  change fun hm => hm.setElement hv hfits

/-- A field is the length of an array, or it is fit for the shape of a struct. -/
theorem fieldOf : Respects p t view w m (fieldOf stem name) (fieldOf stem name) fun w' v =>
    p.Owns v ∧ ((∃ o, stem = .array o ∧ ∃ i, v = .int i) ∨ ∃ o, stem = .struct o ∧
      (p.Consistent t view → ∀ d, w[o]? = some (.struct d) →
        ∃ f ∈ d.fields, f.name = name ∧ v.Conforms p t view w' (t.seen view f.mark))) := by
  refine given fun hm => get_bind ?_
  dsimp only
  split
  · exact raise
  · rename_i o
    split
    · split
      · exact pure ⟨.of_kind (by simp [Value.kind]), .inl ⟨o, rfl, _, rfl⟩⟩
      · exact raise
    · exact raise
  · rename_i o
    split
    · rename_i d' fields ho
      split
      · rename_i v hv
        exact pure ⟨hm.values.held o _ ho name v hv,
          .inr ⟨o, rfl, fun hc d hw => hm.held hc o _ _ hw ho name v hv⟩⟩
      · exact raise
    · exact raise
  · exact raise

theorem setField (hv : p.Owns v)
    (hfits : p.Consistent t view → ∀ o, stem = .struct o → ∃ d, w[o]? = some (.struct d) ∧
      ∀ f ∈ d.fields, f.name = name → v.Conforms p t view w (t.seen view f.mark)) :
    Respects p t view w m (setField stem name v) (setField stem name v) fun _ _ => True := by
  unfold Eval.setField
  split
  · exact raise
  · rename_i o
    refine get_bind ?_
    split
    · rename_i d fields ho
      split
      · rename_i hcontains
        refine change fun hm => hm.setField hv (fun d' fields' ho' => ?_) fun hc => hfits hc o rfl
        rw [ho] at ho'
        cases ho'
        exact hcontains
      · exact raise
    · exact raise
  · exact raise

theorem holds_fillFields {d : StructDecl} {fs : List FieldDecl} {vs : List Value}
    {filled : Bindings Value} (hsub : fs ⊆ d.fields)
    (hfits : ∀ q ∈ (fs.map (ctx.table.seen view ·.mark)).zip vs,
      (q.2.widen q.1).Conforms p ctx.table view w q.1)
    (hfilled : Shape.Holds p ctx.table view w (.struct d) (.struct d filled)) :
    Shape.Holds p ctx.table view w (.struct d) (.struct d (fillFields ctx fs vs filled)) := by
  induction fs generalizing vs filled with
  | nil => exact hfilled
  | cons f fs ih =>
    cases vs with
    | nil => exact hfilled
    | cons v vs =>
      simp only [List.map_cons, List.zip_cons_cons, List.forall_mem_cons, Value.widen_seen_mark]
        at hfits
      refine ih (List.subset_of_cons_subset hsub) hfits.2 fun other u hu => ?_
      by_cases hname : other = f.name
      · subst hname
        rw [Bindings.get?_set_self] at hu
        cases hu
        exact ⟨f, hsub List.mem_cons_self, rfl, hfits.1⟩
      · rw [Bindings.get?_set_ne _ _ hname] at hu
        exact hfilled other u hu

theorem construct {d : StructDecl} {args : List Value} (hvs : ∀ v ∈ args, p.Owns v)
    (hfits : ∀ q ∈ (d.fields.map (ctx.table.seen view ·.mark)).zip args,
      (q.2.widen q.1).Conforms p ctx.table view w q.1) :
    Respects p ctx.table view w m (construct ctx d args) (construct ctx d args) fun w' v =>
      p.Owns v ∧ v.Conforms p ctx.table view w' (.struct d) := by
  refine arity.bind fun w₁ m₁ _ hw _ => ?_
  have hempty : ∀ {V : Value → Prop}, Object.All V (.struct d ∅) := by
    intro V other u hu
    cases hu
  have hholds := holds_fillFields (List.Subset.refl d.fields) (fun q hq => (hfits q hq).mono hw)
    (fun other u (hu : (∅ : Bindings Value).get? other = some u) => nomatch hu)
  refine (alloc (p.attributeContract_admits.fillFields hvs hempty) fun _ => hholds).bind
    fun w₂ m₂ o _ ho => pure ⟨.of_kind (by simp [Value.kind]), fun _ => ⟨by simp, ?_⟩⟩
  rintro _ ⟨⟩
  exact ho

theorem native {args : List Value} :
    Respects p t view w m (native name args) (native name args) fun w' v =>
      p.Owns v ∧ v.Conforms p t view w' .string := by
  refine arity.bind fun w₁ m₁ _ _ _ => display.bind fun w₂ m₂ text _ _ => ?_
  refine (change fun hm => hm.print text).bind fun w₃ m₃ _ _ _ => ?_
  exact pure ⟨.of_kind (by simp [Value.kind]), trivial⟩

end Objects

end Respects

end Eval

end LogicScript
