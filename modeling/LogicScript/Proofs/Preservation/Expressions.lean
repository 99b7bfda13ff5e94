import LogicScript.Proofs.Respect

/-! Expressions give values that fit their static types.

There is one rule for each function a step of evaluation is made of. Each speaks of a watched and an
unwatched evaluation of nodes of the program, whose requests are met in the same way. What is stored
goes through `Preserves.stored`: the slot takes the value, as its type is the expected one or as it is
a literal that nothing else knows. -/
namespace LogicScript

open Analysis (useType elementOf resultOf)
open Eval

/-- What is known of a program and its attributes when it is run. -/
structure Program.Settles (p : Program) (t : Table) : Prop where
  numbered : p.Numbered
  typed : p.Typed t
  attributed : p.Attributed t
  functions : ∀ id d, (t.attributes id).decl = some (.function d) → d ∈ p.functions

/-- In a consistent program a result of the type is fit for what is returned. -/
def Program.Returns (p : Program) (t : Table) (view : Ty.View) (result : Ty) (es : List Expr) : Prop :=
  p.Consistent t view → ∀ e ∈ es, result.Takes t view e

theorem Program.Returns.mono {p : Program} {t : Table} {view : Ty.View} {result : Ty}
    {es es' : List Expr} (h : p.Returns t view result es) (hsub : es' ⊆ es) :
    p.Returns t view result es' := fun hc e he => h hc e (hsub he)

theorem Stmt.returned_block (b : Block) :
    (Stmt.block b).returned = Stmt.returnedOfList b.statements := by
  cases b
  rfl

/-- The expressions whose value the body of a loop returns. -/
def Eval.LoopBody.returned : LoopBody → List Expr
  | .block _ b => Stmt.returnedOfList b.statements
  | .statement st => st.returned

/-- All requests for nodes of the program give what is fit for the static types. -/
structure Program.Preserves (p : Program) (t : Table) (view : Ty.View) (sub sub' : Evaluator) :
    Prop where
  expression : ∀ w m env e, e.nodes ⊆ p.nodes →
    Respects p t view w m (sub.expression env e) (sub'.expression env e)
      fun w' v => e.Yields p t view w' v
  blank : ∀ w m env e element, e.nodes ⊆ p.nodes → e.isBlank t = true →
    Respects p t view w m (sub.expression env e) (sub'.expression env e)
      fun w' v => v.kind = .array ∧ v.Conforms p t view w' (.array element)
  statement : ∀ w m env st result, st.nodes ⊆ p.nodes → p.Returns t view result st.returned →
    Respects p t view w m (sub.statement env st) (sub'.statement env st)
      fun w' done => done.Conforms p t view w' result
  rounds : ∀ w m env condition body result, condition.nodes ⊆ p.nodes → body.nodes ⊆ p.nodes →
    p.Returns t view result body.returned →
    Respects p t view w m (sub.rounds env condition body) (sub'.rounds env condition body)
      fun w' done => done.Conforms p t view w' result
  resolve : ∀ w m env depth goal, goal.nodes ⊆ p.nodes →
    Respects p t view w m (sub.resolve env depth goal) (sub'.resolve env depth goal) fun _ _ => True

section Values

variable {p : Program} {t : Table} {view : Ty.View} {w : World} {v : Value} {type : Ty} {e : Expr}

theorem Expr.Yields.of_type (hv : p.Owns v) (hf : e.function? t = none)
    (htype : t.seen view e.mark = type) (h : v.Conforms p t view w type) : e.Yields p t view w v :=
  ⟨hv, fun _ hd => absurd (hf.symm.trans hd) (by simp), fun _ => htype ▸ h⟩

theorem Expr.Yields.widen_conforms {slot : Ty} (h : e.Yields p t view w v)
    (htakes : p.Consistent t view → slot.isShared = true →
      t.seen view e.mark = slot ∨ t.seen view e.mark = .null) :
    (v.widen slot).Conforms p t view w slot := by
  refine Value.widen_conforms fun hc hshared => ?_
  rcases htakes hc hshared with hsame | hnull
  · refine h.seen hc hsame ?_
    rintro rfl
    cases hshared
  · exact Value.conforms_nothing (h.seen hc hnull (by simp) hc)

theorem Value.constructor_conforms {d : StructDecl}
    (h : p.Consistent t view → type = .function (d.fields.map (t.seen view ·.mark)) (.struct d)) :
    (Value.constructor d).Conforms p t view w type := by
  unfold Value.Conforms
  split
  · simp [Value.kind]
  · exact fun hc => by cases h hc
  · exact fun hc => by cases h hc
  · exact fun hc => by cases h hc
  · intro hc
    cases h hc
    exact ⟨by simp, by rintro _ ⟨⟩; exact ⟨rfl, rfl⟩, by simp⟩
  · trivial

theorem Operator.not_int_onFloats {op : BinaryOp} {left right : Value}
    (h : onFloats op left right = .ok v) : v.kind ≠ .int := by
  unfold onFloats at h
  repeat' split at h
  all_goals cases h
  all_goals simp [Value.kind]

theorem Operator.conforms_apply {op : BinaryOp} {s₁ s₂ : Ty} {left right : Value}
    (h : apply op s₁ s₂ left right = .ok v) :
    v.Conforms p t view w (Analysis.operatorType op s₁ s₂) := by
  unfold Analysis.operatorType
  split
  · trivial
  · rename_i harithmetic
    split
    · trivial
    · split
      · rename_i hfloat
        have hequal : (op == .equal) = false ∧ (op == .notEqual) = false := by
          cases op <;> first | exact ⟨rfl, rfl⟩ | exact absurd rfl harithmetic
        unfold apply at h
        simp only [hequal, hfloat, Bool.false_eq_true, if_false, if_true] at h
        exact not_int_onFloats h
      · trivial

theorem Program.Settles.typeOf_function (hs : p.Settles t) {e : Expr} (he : e.nodes ⊆ p.nodes)
    {d : FunctionDecl} (hd : e.function? t = some d) : t.typeOf e.mark = t.typeOf d.mark := by
  match e with
  | .paren mark inner =>
    rw [hs.typed.composed _ (he (Expr.self_mem_nodes _)) _ rfl]
    have hinner : inner.nodes ⊆ p.nodes := fun n hn => he (List.mem_cons_of_mem _ hn)
    exact hs.typeOf_function hinner hd
  | .reference r =>
    obtain ⟨decl, hdecl, hfunction⟩ := Option.bind_eq_some_iff.mp hd
    cases decl <;> cases hfunction
    refine hs.typed.composed _ (he (Expr.self_mem_nodes _)) _ ?_
    rw [Expr.composedType?, hdecl]
    rfl

/-- A function that is found in a consistent program has the types of its parameters. -/
theorem Program.Consistent.function (hc : p.Consistent t view) {d : FunctionDecl}
    (hd : d ∈ p.functions) :
    t.seen view d.mark =
      .function (d.parameters.map (t.seen view ·.mark)) (resultOf (t.seen view d.mark)) ∧
    ∀ e ∈ (Stmt.block d.body).returned, (resultOf (t.seen view d.mark)).Takes t view e :=
  hc _ (Program.mem_functions.mp hd)

theorem Program.Settles.seen (hs : p.Settles t) (he : .expression e ∈ p.nodes)
    (h : e.composedType? t = some type) : t.seen view e.mark = type.seen view := by
  rw [Table.seen, hs.typed.composed e he type h]

end Values

namespace Program.Preserves

variable {p : Program} {ctx : Context} {view : Ty.View} {sub sub' : Evaluator} {w : World}
  {m : Machine} {env : Env}

section Expressions

theorem stored (h : p.Preserves ctx.table view sub sub') {e : Expr} {slot : Ty}
    (he : e.nodes ⊆ p.nodes) (htakes : p.Consistent ctx.table view → slot.Takes ctx.table view e) :
    Respects p ctx.table view w m (sub.expression env e) (sub'.expression env e)
      fun w' v => p.Owns v ∧ (v.widen slot).Conforms p ctx.table view w' slot := by
  by_cases hblank : slot.isArray = true ∧ e.isBlank ctx.table = true
  · obtain ⟨harray, hblank⟩ := hblank
    cases slot with
    | array element =>
      refine (h.blank w m env e element he hblank).weaken fun w' v _ hv => ⟨.of_kind ?_, ?_⟩
      · simp [hv.1]
      · rw [Value.widen_of_ne (by simp)]
        exact hv.2
    | _ => cases harray
  · refine (h.expression w m env e he).weaken fun w' v _ hv => ⟨hv.owned, hv.widen_conforms ?_⟩
    intro hc hshared
    rcases htakes hc hshared with hsame | hnull | hfresh
    · exact .inl hsame
    · exact .inr hnull
    · exact absurd hfresh hblank

theorem storedEach (h : p.Preserves ctx.table view sub sub') {es : List Expr} {slot : Ty}
    (hes : ∀ e ∈ es, e.nodes ⊆ p.nodes)
    (htakes : p.Consistent ctx.table view → ∀ e ∈ es, slot.Takes ctx.table view e) :
    Respects p ctx.table view w m (expressions sub env es) (expressions sub' env es)
      fun w' vs => ∀ v ∈ vs, p.Owns v ∧ (v.widen slot).Conforms p ctx.table view w' slot := by
  induction es generalizing w m with
  | nil => exact .pure (by simp)
  | cons e es ih =>
    simp only [List.forall_mem_cons] at hes htakes
    refine (h.stored hes.1 fun hc => (htakes hc).1).bind fun w₁ m₁ v _ hv => ?_
    refine (ih hes.2 fun hc => (htakes hc).2).bind fun w₂ m₂ vs hw hvs => .pure ?_
    exact List.forall_mem_cons.mpr ⟨⟨hv.1, hv.2.mono hw⟩, hvs⟩

theorem storedAll (h : p.Preserves ctx.table view sub sub') {es : List Expr} {slots : List Ty}
    (hes : ∀ e ∈ es, e.nodes ⊆ p.nodes)
    (htakes : p.Consistent ctx.table view → Ty.TakesAll ctx.table view slots es) :
    Respects p ctx.table view w m (expressions sub env es) (expressions sub' env es)
      fun w' vs => (∀ v ∈ vs, p.Owns v) ∧
        ∀ q ∈ slots.zip vs, (q.2.widen q.1).Conforms p ctx.table view w' q.1 := by
  induction es generalizing slots w m with
  | nil => exact .pure (by simp)
  | cons e es ih =>
    simp only [List.forall_mem_cons] at hes
    cases slots with
    | nil =>
      refine (h.stored hes.1 fun _ => Ty.void_takes _ _ e).bind fun w₁ m₁ v _ hv => ?_
      refine (ih hes.2 fun _ => Ty.takesAll_nil _ _ es).bind fun w₂ m₂ vs hw hvs => .pure ?_
      exact ⟨List.forall_mem_cons.mpr ⟨hv.1, hvs.1⟩, by simp⟩
    | cons slot slots =>
      simp only [Ty.TakesAll, List.zip_cons_cons, List.forall_mem_cons] at htakes
      refine (h.stored hes.1 fun hc => (htakes hc).1).bind fun w₁ m₁ v _ hv => ?_
      refine (ih hes.2 fun hc => (htakes hc).2).bind fun w₂ m₂ vs hw hvs => .pure ?_
      exact ⟨List.forall_mem_cons.mpr ⟨hv.1, hvs.1⟩,
        List.forall_mem_cons.mpr ⟨hv.2.mono hw, hvs.2⟩⟩

theorem access (h : p.Preserves ctx.table view sub sub') {array index : Expr}
    (ha : array.nodes ⊆ p.nodes) (hi : index.nodes ⊆ p.nodes) :
    Respects p ctx.table view w m (access sub env array index) (access sub' env array index)
      fun w' q => array.Yields p ctx.table view w' (.array q.1) := by
  refine (h.expression w m env array ha).bind fun w₁ m₁ a _ hv => ?_
  refine (h.expression w₁ m₁ env index hi).bind fun w₂ m₂ i hw _ => ?_
  refine Respects.element.weaken fun w₃ q hw' hq => ?_
  subst hq
  exact (hv.mono hw).mono hw'

theorem truth (h : p.Preserves ctx.table view sub sub') {e : Expr} (he : e.nodes ⊆ p.nodes) :
    Respects p ctx.table view w m (truth sub env e) (truth sub' env e) fun _ _ => True := by
  refine (h.expression w m env e he).bind fun w₁ m₁ v _ _ => ?_
  split
  · exact .pure trivial
  · exact .raise

theorem holds (h : p.Preserves ctx.table view sub sub') {e : Expr} (he : e.nodes ⊆ p.nodes) :
    Respects p ctx.table view w m (holds sub env e) (holds sub' env e) fun _ _ => True := by
  refine (h.expression w m env e he).bind fun w₁ m₁ v _ _ => ?_
  split
  · exact .pure trivial
  · exact .raiseAt

theorem operate {op : BinaryOp} {s t : Ty} {l r : Value} :
    Respects p ctx.table view w m (operate op s t l r) (operate op s t l r) fun w' v =>
      p.Owns v ∧ v.Conforms p ctx.table view w' (Analysis.operatorType op s t) := by
  unfold Eval.operate
  split
  · rename_i hjoins
    refine .bind .display fun w₁ m₁ _ _ _ => .bind .display fun w₂ m₂ _ _ _ => .pure ?_
    rw [Analysis.operatorType_of_joins hjoins]
    exact ⟨.of_kind (by simp [Value.kind]), trivial⟩
  · exact .lift fun v hv => ⟨.of_kind (Operator.isPlain_apply hv).1, Operator.conforms_apply hv⟩

theorem binary (h : p.Preserves ctx.table view sub sub') {op : BinaryOp} {left right : Expr}
    (hl : left.nodes ⊆ p.nodes) (hr : right.nodes ⊆ p.nodes) :
    Respects p ctx.table view w m (binary ctx sub env op left right) (binary ctx sub' env op left right)
      fun w' v => p.Owns v ∧ v.Conforms p ctx.table view w' (Analysis.operatorType op
        (ctx.table.typeOf left.mark) (ctx.table.typeOf right.mark)) := by
  have bool : ∀ b, p.Owns (.bool b) := fun b => .of_kind (by simp [Value.kind])
  unfold Eval.binary
  split
  · refine (h.truth hl).bind fun w₁ m₁ b _ _ => ?_
    split
    · exact (h.truth hr).bind fun w₂ m₂ b _ _ => .pure ⟨bool b, trivial⟩
    · exact .pure ⟨bool _, trivial⟩
  · refine (h.truth hl).bind fun w₁ m₁ b _ _ => ?_
    split
    · exact .pure ⟨bool _, trivial⟩
    · exact (h.truth hr).bind fun w₂ m₂ b _ _ => .pure ⟨bool b, trivial⟩
  · refine (h.expression w m env left hl).bind fun w₁ m₁ l _ _ => ?_
    exact (h.expression w₁ m₁ env right hr).bind fun w₂ m₂ r _ _ => operate

theorem callFunction (hs : p.Settles ctx.table) (h : p.Preserves ctx.table view sub sub')
    {d : FunctionDecl} (hd : d ∈ p.functions) {args : List Value} (hargs : ∀ v ∈ args, p.Owns v)
    (hfits : ∀ q ∈ (d.parameters.map (ctx.table.seen view ·.mark)).zip args,
      (q.2.widen q.1).Conforms p ctx.table view w q.1) :
    Respects p ctx.table view w m (callFunction ctx sub env d args) (callFunction ctx sub' env d args)
      fun w' v => p.Owns v ∧
        v.Conforms p ctx.table view w' (resultOf (ctx.table.seen view d.mark)) := by
  have hmem := Program.mem_functions.mp hd
  have hbody : (Stmt.block d.body).nodes ⊆ p.nodes := by
    refine List.Subset.trans ?_ (Program.nodes_inside hs.numbered hmem rfl)
    rw [Node.nodes, Stmt.nodes_function]
    exact List.subset_append_right ..
  refine Respects.arity.bind fun w₁ m₁ _ h₁ _ => ?_
  split
  · exact .raise
  · rename_i scope hscope
    refine Respects.push.bind fun w₂ m₂ f h₂ _ => ?_
    have hentered := hs.typed.parameters d hmem scope hscope
    refine (Respects.bindParameters hentered hargs fun q hq =>
      ((hfits q hq).mono h₁).mono h₂).bind fun w₃ m₃ _ _ _ => ?_
    refine Respects.log.bind fun w₄ m₄ _ _ _ => ?_
    refine (h.statement w₄ m₄ _ _ (resultOf (ctx.table.seen view d.mark)) hbody
      fun hc => (hc.function hd).2).bind fun w₅ m₅ done _ hdone => ?_
    rw [Table.seen, Ty.resultOf_seen] at hdone ⊢
    cases done with
    | normal => exact .pure ⟨p.owns_void, Value.conforms_nothing (.inr rfl)⟩
    | returned v =>
      obtain ⟨howned, hconforms⟩ := hdone
      rw [Value.widen_seen] at hconforms
      have hvoid : v.Conforms p ctx.table view w₅ (Ty.void.seen view) := by
        rw [Ty.seen_prim]
        trivial
      dsimp only
      cases htype : ctx.table.typeOf d.mark with
      | function ps result =>
        rw [htype] at hconforms
        exact .pure ⟨howned.widen result, hconforms⟩
      | _ => exact .pure ⟨howned, hvoid⟩

/-- In a consistent program, what is called has the type that is known of it. -/
theorem callee_conforms {mark : Mark} {callee : Expr} {arguments : List Expr}
    (hmem : .expression (.call mark callee arguments) ∈ p.nodes) {f : Value}
    (hf : callee.Yields p ctx.table view w f) (hc : p.Consistent ctx.table view) : ∃ ps r,
    ctx.table.seen view callee.mark = .function ps r ∧
      f.Conforms p ctx.table view w (.function ps r) := by
  obtain ⟨htype, -⟩ := hc _ hmem
  exact ⟨_, _, htype, hf.seen hc htype (by simp)⟩

theorem call (hs : p.Settles ctx.table) (h : p.Preserves ctx.table view sub sub') {mark : Mark}
    {callee : Expr} {arguments : List Expr}
    (he : (Expr.call mark callee arguments).nodes ⊆ p.nodes) {f : Value} {args : List Value}
    (hf : callee.Yields p ctx.table view w f) (howned : ∀ v ∈ args, p.Owns v)
    (hargs : ∀ q ∈ (ctx.table.seen view callee.mark).paramsOf.zip args,
      (q.2.widen q.1).Conforms p ctx.table view w q.1) :
    Respects p ctx.table view w m (call ctx sub env f args) (call ctx sub' env f args)
      fun w' v => (Expr.call mark callee arguments).Yields p ctx.table view w' v := by
  have hmem := he (Expr.self_mem_nodes _)
  have htype : ctx.table.seen view mark = resultOf (ctx.table.seen view callee.mark) :=
    (hs.seen hmem rfl).trans (Ty.resultOf_seen ..).symm
  -- The parameters of what is called are those that its static type has.
  have hfits : ∀ slots, (∀ ps r, p.Consistent ctx.table view →
      f.Conforms p ctx.table view w (.function ps r) → ps = slots) →
      ∀ q ∈ slots.zip args, (q.2.widen q.1).Conforms p ctx.table view w q.1 := by
    intro slots hslots q hq
    by_cases hc : p.Consistent ctx.table view
    · obtain ⟨ps, r, hcallee, hconforms⟩ := callee_conforms hmem hf hc
      rw [hcallee, Ty.paramsOf, hslots ps r hc hconforms] at hargs
      exact hargs q hq
    · exact Value.widen_conforms fun hc' => absurd hc' hc
  -- What is no function of the program is only known in a consistent program.
  have hyields : ∀ {w' : World} {v : Value} {r : Ty}, (∀ d, f ≠ .function d) →
      (∀ ps r', p.Consistent ctx.table view → f.Conforms p ctx.table view w (.function ps r') →
        r' = r) → p.Owns v → v.Conforms p ctx.table view w' r →
      (Expr.call mark callee arguments).Yields p ctx.table view w' v := by
    intro w' v r hnot hr hv hfit
    refine ⟨hv, by rintro _ ⟨⟩, ?_⟩
    rintro (hdirect | ⟨hc, -⟩)
    · obtain ⟨d, hd⟩ := Option.ne_none_iff_exists'.mp hdirect
      exact absurd (hf.function d hd) (hnot d)
    · obtain ⟨ps, r', hcallee, hconforms⟩ := callee_conforms hmem hf hc
      show v.Conforms p ctx.table view w' (ctx.table.seen view mark)
      rw [htype, hcallee, resultOf, hr ps r' hc hconforms]
      exact hfit
  unfold Eval.call
  split
  · exact .raise
  · rename_i name
    refine Respects.native.weaken fun w' v _ hv => hyields (by simp) ?_ hv.1 hv.2
    exact fun ps r' hc hconforms => (hconforms hc).2.2 name rfl
  · rename_i d
    refine (Respects.construct howned (hfits _ fun ps r hc hconforms => ?_)).weaken
      fun w' v _ hv => hyields (by simp) ?_ hv.1 hv.2
    · exact ((hconforms hc).2.1 d rfl).1
    · exact fun ps r' hc hconforms => ((hconforms hc).2.1 d rfl).2
  · rename_i d
    have hd : d ∈ p.functions := hf.owned d rfl
    refine (h.callFunction hs hd howned (hfits _ fun ps r hc hconforms => ?_)).weaken
      fun w' v _ hv => ⟨hv.1, by rintro _ ⟨⟩, fun hcertain => ?_⟩
    · cases ((hconforms hc).1 d rfl).symm.trans (hc.function hd).1
      rfl
    · have hcallee : ctx.table.seen view callee.mark = ctx.table.seen view d.mark := by
        rcases hcertain with hdirect | ⟨hc, -⟩
        · obtain ⟨d', hd'⟩ := Option.ne_none_iff_exists'.mp hdirect
          cases hf.function d' hd'
          rw [Table.seen, Table.seen, hs.typeOf_function (fun n hn => he ?_) hd']
          exact List.mem_cons_of_mem _ (List.mem_append_left _ hn)
        · obtain ⟨ps, r', hcallee, hconforms⟩ := callee_conforms hmem hf hc
          exact hcallee.trans ((hconforms hc).1 d rfl).symm
      show v.Conforms p ctx.table view w' (ctx.table.seen view mark)
      rw [htype, hcallee]
      exact hv.2
  · exact .raise

/-- In a consistent program, the shape of an indexed array is that of its elements' type. -/
theorem shape_of_array {mark : Mark} {array index : Expr}
    (hmem : .expression (.index mark array index) ∈ p.nodes) {o : ObjectId}
    (ha : array.Yields p ctx.table view w (.array o)) (hc : p.Consistent ctx.table view) :
    w[o]? = some (.array ((elementOf (ctx.table.typeOf array.mark)).held view)) := by
  have harray : ctx.table.typeOf array.mark = .array (elementOf (ctx.table.typeOf array.mark)) :=
    hc _ hmem
  have hseen : ctx.table.seen view array.mark =
      .array ((elementOf (ctx.table.typeOf array.mark)).held view) := by
    rw [← Ty.seen_array, ← harray, Table.seen]
  exact (ha.seen hc hseen (by simp) hc).2 o rfl

/-- In a consistent program, a field that is not the length of an array is one of a struct. -/
theorem shape_of_struct (hs : p.Settles ctx.table) {mark : Mark} {stem : Expr} {name : String}
    (hmem : .expression (.field mark stem name) ∈ p.nodes) {o : ObjectId}
    (ho : stem.Yields p ctx.table view w (.struct o)) (hc : p.Consistent ctx.table view) :
    ∃ d, w[o]? = some (.struct d) ∧ ∀ f ∈ d.fields, f.name = name →
      ctx.table.seen view mark = ctx.table.seen view f.mark := by
  rcases hs.typed.field mark stem name hmem with ⟨d, hstem⟩ | ⟨-, element, hstem⟩
  · have hseen : ctx.table.seen view stem.mark = .struct d := by
      rw [Table.seen, hstem, Ty.seen_struct]
    refine ⟨d, (ho.seen hc hseen (by simp) hc).2 o rfl, fun f hf hname => hc _ hmem f ?_ hname⟩
    rw [hstem]
    exact hf
  · obtain ⟨s, hseen⟩ : ∃ s, ctx.table.seen view stem.mark = .array s :=
      ⟨_, by rw [Table.seen, hstem, Ty.seen_array]⟩
    exact absurd rfl ((ho.seen hc hseen (by simp) hc).1 o)

theorem index (hs : p.Settles ctx.table) (h : p.Preserves ctx.table view sub sub') {mark : Mark}
    {array index : Expr} (he : (Expr.index mark array index).nodes ⊆ p.nodes) :
    Respects p ctx.table view w m (Eval.access sub env array index >>= fun q => getElement q.1 q.2)
      (Eval.access sub' env array index >>= fun q => getElement q.1 q.2)
      fun w' v => (Expr.index mark array index).Yields p ctx.table view w' v := by
  have hmem := he (Expr.self_mem_nodes _)
  have ha : array.nodes ⊆ p.nodes := fun n hn => he (by simp [Expr.nodes, hn])
  have hi : index.nodes ⊆ p.nodes := fun n hn => he (by simp [Expr.nodes, hn])
  have htype : ctx.table.typeOf mark = elementOf (ctx.table.typeOf array.mark) :=
    hs.typed.composed _ hmem _ rfl
  refine (h.access ha hi).bind fun w₁ m₁ q _ hq => ?_
  refine Respects.getElement.weaken fun w₂ v _ hv => ⟨hv.1, by rintro _ ⟨⟩, ?_⟩
  rintro (hdirect | ⟨hc, hdoubtful⟩)
  · exact absurd trivial hdirect
  · have hconforms := hv.2 hc _ (shape_of_array hmem hq hc)
    have hfloat : ¬ (view = .coarse ∧ elementOf (ctx.table.typeOf array.mark) = .float) := fun h =>
      hdoubtful (htype.trans h.2) h.1
    rw [Ty.held, if_neg hfloat, ← htype] at hconforms
    exact hconforms

theorem field (hs : p.Settles ctx.table) (h : p.Preserves ctx.table view sub sub') {mark : Mark}
    {stem : Expr} {name : String} (he : (Expr.field mark stem name).nodes ⊆ p.nodes) :
    Respects p ctx.table view w m (sub.expression env stem >>= fun s => fieldOf s name)
      (sub'.expression env stem >>= fun s => fieldOf s name)
      fun w' v => (Expr.field mark stem name).Yields p ctx.table view w' v := by
  have hmem := he (Expr.self_mem_nodes _)
  have hstem : stem.nodes ⊆ p.nodes := fun n hn => he (by simp [Expr.nodes, hn])
  refine (h.expression w m env stem hstem).bind fun w₁ m₁ s _ hyields => ?_
  refine Respects.fieldOf.weaken fun w₂ v _ hv => ⟨hv.1, by rintro _ ⟨⟩, ?_⟩
  rintro (hdirect | ⟨hc, -⟩)
  · exact absurd trivial hdirect
  · show v.Conforms p ctx.table view w₂ (ctx.table.seen view mark)
    rcases hv.2 with ⟨o, rfl, i, rfl⟩ | ⟨o, rfl, hfield⟩
    · rcases hs.typed.field mark stem name hmem with ⟨d, hd⟩ | ⟨hint, -⟩
      · have hseen : ctx.table.seen view stem.mark = .struct d := by
          rw [Table.seen, hd, Ty.seen_struct]
        exact absurd rfl ((hyields.seen hc hseen (by simp) hc).1 o)
      · rw [Table.seen, hint, Ty.seen_prim]
        trivial
    · obtain ⟨d, hshape, htype⟩ := shape_of_struct hs hmem hyields hc
      obtain ⟨f, hf, hname, hconforms⟩ := hfield hc d hshape
      rw [htype f hf hname]
      exact hconforms

theorem assign (hs : p.Settles ctx.table) (h : p.Preserves ctx.table view sub sub') {mark : Mark}
    {target value : Expr} (he : (Expr.assign mark target value).nodes ⊆ p.nodes) :
    Respects p ctx.table view w m (assign ctx sub env target value) (assign ctx sub' env target value)
      fun w' v => (Expr.assign mark target value).Yields p ctx.table view w' v := by
  have hmem := he (Expr.self_mem_nodes _)
  have htarget : target.nodes ⊆ p.nodes := fun n hn => he (by simp [Expr.nodes, hn])
  have hvalue : value.nodes ⊆ p.nodes := fun n hn => he (by simp [Expr.nodes, hn])
  have htype : ctx.table.seen view mark = ctx.table.seen view target.mark := hs.seen hmem rfl
  have hstored : ∀ {w m}, Respects p ctx.table view w m (sub.expression env value)
      (sub'.expression env value) fun w' v => p.Owns v ∧
        (v.widen (ctx.table.typeOf target.mark)).Conforms p ctx.table view w'
          (ctx.table.seen view target.mark) := fun {w m} => by
    simpa only [Value.widen_seen_mark] using h.stored hvalue fun hc => hc _ hmem
  have hyields : ∀ {w : World} {v : Value}, p.Owns v →
      (v.widen (ctx.table.typeOf target.mark)).Conforms p ctx.table view w
        (ctx.table.seen view target.mark) →
      (Expr.assign mark target value).Yields p ctx.table view w
        (v.widen (ctx.table.typeOf target.mark)) := fun hv hfits =>
    .of_type (hv.widen _) rfl htype hfits
  unfold Eval.assign
  split
  · rename_i r
    refine hstored.bind fun w₁ m₁ v _ hv => ?_
    dsimp only
    split
    · rename_i hassignable
      obtain ⟨d, hdecl, -⟩ := (Option.any_eq_true ..).mp hassignable
      have hr := htarget (Expr.self_mem_nodes _)
      have hslot : ctx.table.seen view r.mark = (useType ctx.table d).seen view :=
        hs.seen hr (by rw [Expr.composedType?, hdecl, Option.map_some])
      refine (Respects.writeAt (hs.typed.reference r hr d hdecl) hv.1 ?_).bind
        fun w₂ m₂ _ hw _ => .pure (hyields hv.1 (hv.2.mono hw))
      rintro _ rfl - -
      exact hslot ▸ hv.2
    · exact .raise_bind
  · rename_i mark' a i
    have hindex := htarget (Expr.self_mem_nodes _)
    have ha : a.nodes ⊆ p.nodes := fun n hn => htarget (by simp [Expr.nodes, hn])
    have hi : i.nodes ⊆ p.nodes := fun n hn => htarget (by simp [Expr.nodes, hn])
    have helement : ctx.table.seen view mark' = (elementOf (ctx.table.typeOf a.mark)).seen view :=
      hs.seen hindex rfl
    refine (h.access ha hi).bind fun w₁ m₁ q _ hq => ?_
    refine hstored.bind fun w₂ m₂ v hw hv => ?_
    have hconforms := hv.2
    rw [show ctx.table.seen view (Expr.index mark' a i).mark = _ from helement] at hconforms
    refine (Respects.setElement (hv.1.widen _) fun hc =>
      ⟨_, World.getElem?_of_prefix hw (shape_of_array hindex hq hc), hconforms.held⟩).bind
      fun w₃ m₃ _ hw' _ => .pure (hyields hv.1 (hv.2.mono hw'))
  · rename_i mark' stem name
    have hfield := htarget (Expr.self_mem_nodes _)
    have hstem : stem.nodes ⊆ p.nodes := fun n hn => htarget (by simp [Expr.nodes, hn])
    refine (h.expression w m env stem hstem).bind fun w₁ m₁ s _ hstemyields => ?_
    refine hstored.bind fun w₂ m₂ v hw hv => ?_
    refine (Respects.setField (hv.1.widen _) ?_).bind
      fun w₃ m₃ _ hw' _ => .pure (hyields hv.1 (hv.2.mono hw'))
    rintro hc o rfl
    obtain ⟨d, hshape, hsame⟩ := shape_of_struct hs hfield hstemyields hc
    refine ⟨d, World.getElem?_of_prefix hw hshape, fun f hf hname => ?_⟩
    rw [← hsame f hf hname]
    exact hv.2
  · exact .raise

theorem query (hs : p.Settles ctx.table) (h : p.Preserves ctx.table view sub sub') {mark : Mark}
    {target : Reference} {question : Expr}
    (he : (Expr.query mark target question).nodes ⊆ p.nodes) :
    Respects p ctx.table view w m (query ctx sub env mark target question)
      (query ctx sub' env mark target question)
      fun w' v => (Expr.query mark target question).Yields p ctx.table view w' v := by
  unfold Eval.query
  split
  · rename_i goal
    dsimp only
    split
    · rename_i hbool
      have hr : target.node ∈ p.nodes := he (by simp [Expr.nodes])
      have hgoal : goal.nodes ⊆ p.nodes := fun n hn => he (by simp [Expr.nodes, hn])
      obtain ⟨d, hdecl⟩ := Option.isSome_iff_exists.mp (hs.attributed.reference target hr).1
      have hslot : ctx.table.seen view target.mark = (useType ctx.table d).seen view :=
        hs.seen hr (by rw [Expr.composedType?, hdecl, Option.map_some])
      have hnull : ctx.table.seen view target.mark ≠ .null := by
        intro hnull
        rw [Ty.seen_eq_prim.mp hnull] at hbool
        cases hbool
      refine (h.resolve w m env 0 goal hgoal).bind fun w₁ m₁ answer _ _ => ?_
      have howned : p.Owns (.bool answer) := .of_kind (by simp [Value.kind])
      refine (Respects.writeAt (hs.typed.reference target hr d hdecl) howned ?_).bind
        fun w₂ m₂ _ _ _ => Respects.log.bind fun w₃ m₃ _ _ _ => .pure ?_
      · rintro _ rfl - -
        rw [← hslot]
        exact Value.conforms_of_kind (by simp [Value.widen, Value.kind]) hnull
          (by simp [Value.widen, Value.kind])
      · refine .of_type howned rfl (hs.seen (he (Expr.self_mem_nodes _)) rfl) ?_
        rw [Ty.seen_prim]
        trivial
    · exact .raiseAt_bind
  · exact .raiseAt

/-- An array that is made of what fits a slot; the shape may be one that does not tell as much. -/
theorem literal (h : p.Preserves ctx.table view sub sub') {elements : List Expr}
    (helements : ∀ e ∈ elements, e.nodes ⊆ p.nodes) {type : Ty} (slot element : Ty)
    (htakes : p.Consistent ctx.table view → ∀ e ∈ elements, slot.Takes ctx.table view e)
    (hfits : p.Consistent ctx.table view → ∀ (w : World) (v : Value),
      (v.widen slot).Conforms p ctx.table view w slot →
      (v.widen type).Conforms p ctx.table view w element) :
    Respects p ctx.table view w m
      (Eval.expressions sub env elements >>= fun values => Eval.alloc (.array
        (values.map (·.widen type)).toArray) >>= fun o => Pure.pure (.array o))
      (Eval.expressions sub' env elements >>= fun values => Eval.alloc (.array
        (values.map (·.widen type)).toArray) >>= fun o => Pure.pure (.array o))
      fun w' (v : Value) => v.kind = .array ∧ v.Conforms p ctx.table view w' (.array element) := by
  refine (h.storedEach helements htakes).bind fun w₁ m₁ vs _ hvs => ?_
  have howned : Object.All p.Owns (.array (vs.map (·.widen type)).toArray) := by
    intro u hu
    obtain ⟨v, hv, rfl⟩ := List.mem_map.mp (List.mem_toArray.mp hu)
    exact (hvs v hv).1.widen type
  have hheld : p.Consistent ctx.table view → Shape.Holds p ctx.table view w₁ (.array element)
      (.array (vs.map (·.widen type)).toArray) := by
    intro hc u hu
    obtain ⟨v, hv, rfl⟩ := List.mem_map.mp (List.mem_toArray.mp hu)
    exact hfits hc w₁ v (hvs v hv).2
  refine (Respects.alloc howned hheld).bind fun w₂ m₂ o _ ho => .pure ⟨rfl, fun _ => ⟨by simp, ?_⟩⟩
  rintro _ ⟨⟩
  exact ho

theorem array (hs : p.Settles ctx.table) (h : p.Preserves ctx.table view sub sub') {mark : Mark}
    {elements : List Expr} (he : (Expr.array mark elements).nodes ⊆ p.nodes) :
    Respects p ctx.table view w m (Eval.expression ctx sub env (.array mark elements))
      (Eval.expression ctx sub' env (.array mark elements))
      fun w' v => (Expr.array mark elements).Yields p ctx.table view w' v := by
  have hmem := he (Expr.self_mem_nodes _)
  have helements : ∀ e ∈ elements, e.nodes ⊆ p.nodes := fun e hmem n hn =>
    he (List.mem_cons_of_mem _ (Expr.mem_nodesOfList.mpr ⟨e, hmem, hn⟩))
  obtain ⟨element, helement⟩ := hs.typed.array mark elements hmem
  have hseen : ctx.table.seen view mark = .array (element.held view) := by
    rw [Table.seen, helement, Ty.seen_array]
  have hwiden : elementTypeOf ctx mark = element := by rw [elementTypeOf, helement]
  refine .attach ((h.literal helements (element.seen view) (element.held view) ?_ ?_).weaken
    fun w' v _ hv => ?_)
  · intro hc e he
    have htakes : ((elementOf (ctx.table.typeOf mark)).seen view).Takes _ _ _ := hc _ hmem e he
    rw [helement] at htakes
    exact htakes
  · intro hc w v hv
    rw [Value.widen_seen] at hv
    rw [hwiden]
    exact hv.held
  · exact .of_type (.of_kind (by simp [hv.1])) rfl hseen hv.2

theorem blank_array (h : p.Preserves ctx.table view sub sub') {mark : Mark} {elements : List Expr}
    (he : (Expr.array mark elements).nodes ⊆ p.nodes) {element : Ty}
    (hblank : (Expr.array mark elements).isBlank ctx.table = true) :
    Respects p ctx.table view w m (Eval.expression ctx sub env (.array mark elements))
      (Eval.expression ctx sub' env (.array mark elements))
      fun w' v => v.kind = .array ∧ v.Conforms p ctx.table view w' (.array element) := by
  have helements : ∀ e ∈ elements, e.nodes ⊆ p.nodes := fun e hmem n hn =>
    he (List.mem_cons_of_mem _ (Expr.mem_nodesOfList.mpr ⟨e, hmem, hn⟩))
  have hnull : ∀ e ∈ elements, ctx.table.typeOf e.mark = .null := by
    simpa [Expr.isBlank, Expr.unwrap] using hblank
  refine .attach (h.literal helements .null element ?_ ?_)
  · intro _ e he _
    exact .inl (by rw [Table.seen, hnull e he, Ty.seen_prim])
  · intro hc w v hv
    rw [Value.widen_of_ne (by simp)] at hv
    refine Value.conforms_nothing ?_
    rcases hv hc with h | h <;> cases v <;> simp_all [Value.widen, Value.kind]

theorem expression_step (hs : p.Settles ctx.table) (h : p.Preserves ctx.table view sub sub') {e : Expr}
    (he : e.nodes ⊆ p.nodes) :
    Respects p ctx.table view w m (Eval.expression ctx sub env e) (Eval.expression ctx sub' env e)
      fun w' v => e.Yields p ctx.table view w' v := by
  have hmem := he e.self_mem_nodes
  have plain : ∀ {w : World} {v : Value} {type : Ty}, v.kind ≠ .function → e.function? ctx.table = none →
      e.composedType? ctx.table = some type → v.Conforms p ctx.table view w (type.seen view) →
      e.Yields p ctx.table view w v := fun hv hf htype h =>
    .of_type (.of_kind hv) hf (hs.seen hmem htype) h
  have bool : ∀ {w m b}, e.function? ctx.table = none → e.composedType? ctx.table = some .bool →
      Respects p ctx.table view w m (Pure.pure (.bool b) : Eval Value) (Pure.pure (.bool b))
        fun w' v => e.Yields p ctx.table view w' v := fun hf htype =>
    .pure (plain (by simp [Value.kind]) hf htype (by rw [Ty.seen_prim]; trivial))
  cases e with
  | array mark elements => exact h.array hs he
  | int | string | bool =>
    exact .attach (.pure (plain (by simp [Value.kind]) rfl rfl (by rw [Ty.seen_prim]; trivial)))
  | float =>
    exact .attach (.pure (plain (by simp [Value.kind]) rfl rfl
      (by rw [Ty.seen_prim]; simp [Value.Conforms, Value.kind])))
  | null =>
    exact .attach (.pure (plain (by simp [Value.kind]) rfl rfl
      (by rw [Ty.seen_prim]; exact fun _ => .inl rfl)))
  | reference r => exact .attach (Respects.reference hs.typed hmem (hs.functions _))
  | constructor mark name =>
    refine .attach ?_
    dsimp only
    unfold Eval.constructor
    split
    · rename_i d hdecl
      refine .pure ⟨.of_kind (by simp [Value.kind]), by rintro _ ⟨⟩, fun _ => ?_⟩
      exact Value.constructor_conforms fun hc => hc _ hmem d (by simp [hdecl, Decl.struct?])
    · exact .raise
  | field mark stem name => exact .attach (h.field hs he)
  | index mark array index => exact .attach (h.index hs he)
  | call mark callee arguments =>
    have hcallee : callee.nodes ⊆ p.nodes := fun n hn => he (by simp [Expr.nodes, hn])
    have harguments : ∀ e ∈ arguments, e.nodes ⊆ p.nodes := fun e hmem n hn =>
      he (by simp [Expr.nodes, Expr.mem_nodesOfList.mpr ⟨e, hmem, hn⟩])
    refine .attach ((h.expression w m env callee hcallee).bind fun w₁ m₁ f _ hf => ?_)
    exact (h.storedAll harguments fun hc => (hc _ hmem).2).bind fun w₂ m₂ args hw hargs =>
      h.call hs he (hf.mono hw) hargs.1 hargs.2
  | not mark operand =>
    have hoperand : operand.nodes ⊆ p.nodes := fun n hn => he (by simp [Expr.nodes, hn])
    refine .attach ((h.expression w m env operand hoperand).bind fun w₁ m₁ v _ _ => ?_)
    split
    · exact bool rfl rfl
    · exact .raise
  | binary mark op left right =>
    have hleft : left.nodes ⊆ p.nodes := fun n hn => he (by simp [Expr.nodes, hn])
    have hright : right.nodes ⊆ p.nodes := fun n hn => he (by simp [Expr.nodes, hn])
    refine .attach ((h.binary hleft hright).weaken fun w' v _ hv => ?_)
    exact .of_type hv.1 rfl ((hs.seen hmem rfl).trans (Ty.operatorType_seen ..)) hv.2
  | assign mark target value => exact .attach (h.assign hs he)
  | paren mark inner =>
    have hinner : inner.nodes ⊆ p.nodes := fun n hn => he (by simp [Expr.nodes, hn])
    have htype : ctx.table.typeOf mark = ctx.table.typeOf inner.mark :=
      hs.typed.composed _ hmem _ rfl
    refine .attach ((h.expression w m env inner hinner).weaken fun w' v _ hv => ?_)
    refine ⟨hv.owned, hv.function, fun hcertain => ?_⟩
    have hinner : inner.Certain p ctx.table view := by
      unfold Expr.Certain at hcertain ⊢
      rw [← htype]
      exact hcertain
    show v.Conforms p ctx.table view w' (ctx.table.seen view mark)
    rw [Table.seen, htype]
    exact hv.conforms hinner
  | query mark target question => exact .attach (h.query hs he)
  | placeholder mark name type => exact .attach .raise
  | logic goal =>
    have hgoal : goal.nodes ⊆ p.nodes := fun n hn => he (by simpa [Expr.nodes] using hn)
    refine .attach ?_
    cases goal with
    | atom mark name =>
      exact .pure (plain (by simp [Value.kind]) rfl rfl (by rw [Ty.seen_prim]; trivial))
    | _ => exact (h.resolve w m env 0 _ hgoal).bind fun w₁ m₁ b _ _ => bool rfl rfl

/-- What a literal of nulls gives fits every type of arrays, in parentheses or not. -/
theorem blank_step (h : p.Preserves ctx.table view sub sub') {e : Expr} {element : Ty}
    (he : e.nodes ⊆ p.nodes) (hblank : e.isBlank ctx.table = true) :
    Respects p ctx.table view w m (Eval.expression ctx sub env e) (Eval.expression ctx sub' env e)
      fun w' v => v.kind = .array ∧ v.Conforms p ctx.table view w' (.array element) := by
  cases e with
  | array mark elements => exact h.blank_array he hblank
  | paren mark inner =>
    exact .attach (h.blank w m env inner element (fun n hn => he (by simp [Expr.nodes, hn])) hblank)
  | _ => cases hblank

end Expressions

end Program.Preserves

end LogicScript
