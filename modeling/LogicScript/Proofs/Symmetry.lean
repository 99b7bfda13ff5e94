import LogicScript.Proofs.Operands
import LogicScript.Proofs.Stores

/-! A unification with its sides changed.

In each position the same is done either way round, but for the order in which two values are
evaluated. What is evaluated is a literal or a variable, so that does not matter: only an array
literal changes the machine, and a new array is equal to no other value that the machine has made. If
a variable is bound to a value without a text, it may be that neither way round comes to an end. -/
namespace LogicScript

open Eval

theorem Value.numericEqual_comm (v w : Value) : v.numericEqual w = w.numericEqual v := by
  cases v <;> cases w <;> simp only [numericEqual] <;>
    first | exact Binary64.equal_comm .. | exact Value.equal_comm ..

theorem Value.Within.mono {v : Value} {n n' : Nat} (h : v.Within n) (hle : n ≤ n') : v.Within n' :=
  fun o ho => Nat.lt_of_lt_of_le (h o ho) hle

theorem Value.Within.widen {v : Value} {n : Nat} (h : v.Within n) (t : Ty) : (v.widen t).Within n := by
  unfold Value.widen
  split
  · rintro o (ho | ho) <;> cases ho
  · exact h

namespace Machine

variable {m : Machine} {env : Env} {f : FrameId} {name : String} {v : Value}

theorem Complete.log (h : m.Complete env) (e : Event) : (m.log e).Complete env :=
  ⟨⟨h.chain, h.rules⟩, h.bound, h.filed, h.held⟩

theorem Complete.alloc (h : m.Complete env) {object : Object}
    (hobject : ∀ v ∈ object.values, v.Within m.objects.size) : (m.alloc object).2.Complete env := by
  have hsize : m.objects.size ≤ (m.alloc object).2.objects.size := by simp [Machine.alloc]
  refine ⟨⟨h.chain, h.rules⟩, fun f name v hv => (h.bound f name v hv).mono hsize,
    fun f functor e he tuple htuple v hv => (h.filed f functor e he tuple htuple v hv).mono hsize, ?_⟩
  intro o other ho v hv
  have hother : (m.objects.push object)[o]? = some other := ho
  rw [Array.getElem?_push] at hother
  split at hother
  · cases hother
    exact (hobject v hv).mono hsize
  · exact (h.held o other hother v hv).mono hsize

theorem Complete.define (h : m.Complete env) (hv : v.Within m.objects.size) :
    (m.define f name v).Complete env := by
  refine ⟨⟨fun i hi => ?_, fun i functor r hr j hj => ?_⟩, fun i other w hw => ?_,
    fun i functor e he => ?_, h.held⟩
  · rw [size_define]
    exact h.chain i hi
  · rw [predicates_define] at hr
    rw [size_define]
    exact h.rules i functor r hr j hj
  · rw [Machine.define, frame_updateFrame] at hw
    split at hw
    · by_cases hname : other = name
      · subst hname
        rw [Bindings.get?_set_self] at hw
        cases hw
        exact hv
      · rw [Bindings.get?_set_ne _ _ hname] at hw
        exact h.bound i other w hw
    · exact h.bound i other w hw
  · rw [predicates_define] at he
    exact h.filed i functor e he

end Machine

mutual

theorem literal_complete (ctx : Context) (e : Expr) {m : Machine} {env : Env} (h : m.Complete env) :
    (literal ctx e m).2.Complete env ∧
      (literal ctx e m).1.Within (literal ctx e m).2.objects.size := by
  match e with
  | .array mark elements =>
    obtain ⟨hcomplete, hwithin⟩ := literals_complete ctx elements h
    refine ⟨hcomplete.alloc ?_, ?_⟩
    · intro v hv
      simp only [Object.values, List.mem_map] at hv
      obtain ⟨w, hw, rfl⟩ := hv
      exact (hwithin w hw).widen _
    · rintro o (ho | ho) <;> cases ho
      simp [literal, Machine.alloc]
  | .logic goal => cases goal <;> exact ⟨h, by rintro o (ho | ho) <;> cases ho⟩
  | .int _ _ | .float _ _ | .string _ _ | .bool _ _ | .null _ | .reference _ | .constructor _ _
  | .field _ _ _ | .index _ _ _ | .call _ _ _ | .not _ _ | .binary _ _ _ _ | .assign _ _ _
  | .paren _ _ | .query _ _ _ | .placeholder _ _ _ =>
    exact ⟨h, by rintro o (ho | ho) <;> cases ho⟩

theorem literals_complete (ctx : Context) (es : List Expr) {m : Machine} {env : Env}
    (h : m.Complete env) : (literals ctx es m).2.Complete env ∧
      ∀ v ∈ (literals ctx es m).1, v.Within (literals ctx es m).2.objects.size := by
  match es with
  | [] => exact ⟨h, by simp [literals]⟩
  | e :: es =>
    obtain ⟨hfirst, hvalue⟩ := literal_complete ctx e h
    obtain ⟨hrest, hvalues⟩ := literals_complete ctx es hfirst
    refine ⟨hrest, ?_⟩
    simp only [literals, List.mem_cons, forall_eq_or_imp]
    exact ⟨hvalue.mono (literals_allocates ctx es _).size_le, hvalues⟩

end

/-- The name of a variable, which is bound to a value in the active frame of its scope. -/
structure Reference.IsBound (t : Table) (m : Machine) (env : Env) (r : Reference) : Prop where
  decl : ∃ d, (t.attributes r.mark.id).decl = some d ∧ d.isAssignable = true
  value : ∃ owner f v, (t.attributes r.mark.id).scope = some owner ∧ m.frameOf? env owner = some f ∧
    (m.frame f).bindings.get? r.name = some v

namespace Reference.IsBound

variable {t : Table} {m m' : Machine} {env : Env} {r : Reference}

/-- The name is looked up in the same frame as long as the frames keep their scopes. -/
theorem lookup (h : r.IsBound t m env) : ∃ f v, (m.frame f).bindings.get? r.name = some v ∧
    ∀ m' : Machine, (∀ g, (m'.frame g).scope = (m.frame g).scope) →
      r.value? t (env.map m'.frame) = (m'.frame f).bindings.get? r.name := by
  obtain ⟨owner, f, v, hscope, hframe, hv⟩ := h.value
  refine ⟨f, v, hv, fun m' hsame => ?_⟩
  obtain ⟨d, hd, hvar⟩ := h.decl
  have hframe' : m'.frameOf? env owner = some f := by
    simpa only [Machine.frameOf?, hsame] using hframe
  unfold Reference.value?
  rw [hd]
  cases d with
  | var | parameter | placeholder =>
    simp only [hscope, Machine.find?_map_frame, hframe', Option.bind_some, Option.map_some]
  | _ => cases hvar

theorem value? (h : r.IsBound t m env) : ∃ f v, r.value? t (env.map m.frame) = some v ∧
    (m.frame f).bindings.get? r.name = some v := by
  obtain ⟨f, v, hv, hlookup⟩ := h.lookup
  exact ⟨f, v, (hlookup m fun _ => rfl).trans hv, hv⟩

/-- When a name is bound, this one has the value that it had before, or the new one. -/
theorem value?_define (h : r.IsBound t m env) {f : FrameId} {name : String} {v w : Value}
    (hw : r.value? t (env.map (m.define f name v).frame) = some w) :
    w = v ∨ r.value? t (env.map m.frame) = some w := by
  obtain ⟨g, u, hu, hlookup⟩ := h.lookup
  rw [hlookup _ fun _ => Machine.scope_define .., Machine.define, Machine.frame_updateFrame] at hw
  rw [hlookup m fun _ => rfl]
  split at hw
  · by_cases hname : r.name = name
    · rw [hname, Bindings.get?_set_self] at hw
      exact .inl (Option.some.inj hw).symm
    · rw [Bindings.get?_set_ne _ _ hname] at hw
      exact .inr hw
  · exact .inr hw

theorem define (h : r.IsBound t m env) (f : FrameId) (name : String) (v : Value) :
    r.IsBound t (m.define f name v) env := by
  obtain ⟨owner, g, w, hscope, hframe, hw⟩ := h.value
  refine ⟨h.decl, owner, g, ?_⟩
  have hsame : (m.define f name v).frameOf? env owner = some g := by
    simpa only [Machine.frameOf?, Machine.scope_define] using hframe
  rw [Machine.define, Machine.frame_updateFrame]
  split
  · by_cases hname : r.name = name
    · exact ⟨v, hscope, hsame, by rw [hname, Bindings.get?_set_self]⟩
    · exact ⟨w, hscope, hsame, by rw [Bindings.get?_set_ne _ _ hname, hw]⟩
  · exact ⟨w, hscope, hsame, hw⟩

theorem of_frames (h : r.IsBound t m env) (hframes : m'.frames = m.frames) : r.IsBound t m' env := by
  have hframe : m'.frame = m.frame := funext (Machine.frame_of_frames hframes)
  obtain ⟨owner, f, v, hscope, hf, hv⟩ := h.value
  refine ⟨h.decl, owner, f, v, hscope, ?_, by rw [hframe, hv]⟩
  rw [Machine.frameOf?, hframe]
  exact hf

end Reference.IsBound

/-- The value of an argument, with the machine in which its arrays are there. -/
def operand (ctx : Context) (env : Env) : Expr → Machine → Value × Machine
  | .reference r, m => ((r.value? ctx.table (env.map m.frame)).getD .absent, m)
  | e, m => literal ctx e m

theorem operand_literal {ctx : Context} {env : Env} {e : Expr} (he : e.isLiteral = true)
    (m : Machine) : operand ctx env e m = literal ctx e m := by
  cases e with
  | reference r => cases he
  | _ => rfl

/-- An argument that has a value: a literal or a variable that is bound. -/
def Expr.IsValued (t : Table) (m : Machine) (env : Env) (e : Expr) : Prop :=
  e.isLiteral = true ∨ ∃ r, e = .reference r ∧ r.IsBound t m env

namespace Expr.IsValued

variable {t : Table} {m m' : Machine} {env : Env} {e l r : Expr}

theorem of_frames (h : e.IsValued t m env) (hframes : m'.frames = m.frames) :
    e.IsValued t m' env :=
  h.imp_right fun ⟨r, he, hr⟩ => ⟨r, he, hr.of_frames hframes⟩

variable (ctx : Context)

theorem evaluates (h : e.IsValued ctx.table m env) :
    Eventually ctx (fun sub => sub.expression env e) m
      (.ok (operand ctx env e m).1 (operand ctx env e m).2) := by
  rcases h with he | ⟨r, rfl, hr⟩
  · rw [operand_literal he]
    exact expression_literal e m he
  · obtain ⟨f, v, hv, -⟩ := hr.value?
    simp only [operand, hv, Option.getD_some]
    exact expression_plain rfl hv

theorem allocates (h : e.IsValued ctx.table m env) : m.Allocates (operand ctx env e m).2 := by
  rcases h with he | ⟨r, rfl, hr⟩
  · rw [operand_literal he]
    exact literal_allocates ctx e m
  · exact .refl m

theorem complete (h : e.IsValued ctx.table m env) (hm : m.Complete env) :
    (operand ctx env e m).2.Complete env ∧
      (operand ctx env e m).1.Within (operand ctx env e m).2.objects.size := by
  rcases h with he | ⟨r, rfl, hr⟩
  · rw [operand_literal he]
    exact literal_complete ctx e hm
  · obtain ⟨f, v, hv, hbound⟩ := hr.value?
    simp only [operand, hv, Option.getD_some]
    exact ⟨hm, hm.bound f r.name v hbound⟩

theorem text?_after (h : e.IsValued ctx.table m env) {v : Value} (hv : (m.text? v).isSome) :
    ((operand ctx env e m).2.text? v).isSome := by
  rcases h with he | ⟨r, rfl, -⟩
  · rw [operand_literal he]
    exact text?_after_literal ctx e hv
  · exact hv

/-- The value is the same in all machines with the same frames, or it is an array that is new in
each. -/
theorem cases (h : e.IsValued ctx.table m env) :
    (∃ v, ∀ m', m'.frames = m.frames → operand ctx env e m' = (v, m')) ∨
      e.isLiteral = true ∧ ∀ m', ∃ o, (operand ctx env e m').1 = .array o ∧ m'.objects.size ≤ o ∧
        o < (operand ctx env e m').2.objects.size := by
  rcases h with he | ⟨r, rfl, -⟩
  · simp only [operand_literal he]
    exact (literal_cases ctx he).imp (fun ⟨v, _, hv⟩ => ⟨v, fun m' _ => hv m'⟩) fun h => ⟨he, h⟩
  · refine .inl ⟨(operand ctx env (.reference r) m).1, fun m' hframes => ?_⟩
    have hframe : m'.frame = m.frame := funext (Machine.frame_of_frames hframes)
    rw [operand, operand, hframe]

/-- Two values that are evaluated one after the other are the same, and so is the machine, if they are
evaluated the other way round; or else they are different arrays from literals both times. -/
theorem exchange (hl : l.IsValued ctx.table m env) (hr : r.IsValued ctx.table m env) :
    let a := operand ctx env l m
    let b := operand ctx env r a.2
    let b' := operand ctx env r m
    let a' := operand ctx env l b'.2
    (a.1 = a'.1 ∧ b.1 = b'.1 ∧ b.2 = a'.2) ∨
      (l.isLiteral = true ∧ r.isLiteral = true) ∧
        a.1.numericEqual b.1 = false ∧ b'.1.numericEqual a'.1 = false := by
  intro a b b' a'
  have hdiffer : ∀ {o o' : ObjectId}, o < o' → (Value.array o).numericEqual (.array o') = false :=
    fun hlt => by simp [Value.numericEqual, Value.equal, Nat.ne_of_lt hlt]
  rcases hl.cases ctx with ⟨v, hv⟩ | ⟨hleft, hnew⟩
  · have ha : a = (v, m) := hv m rfl
    have ha' : a' = (v, b'.2) := hv b'.2 (hr.allocates ctx).frames
    have hb : b = b' := by simp only [b, b', ha]
    simp [ha, ha', hb]
  · rcases hr.cases ctx with ⟨w, hw⟩ | ⟨hright, hnew'⟩
    · have hb : b = (w, a.2) := hw a.2 (hl.allocates ctx).frames
      have hb' : b' = (w, m) := hw m rfl
      have ha : a = a' := by simp only [a, a', hb']
      simp [hb, hb', ha]
    · obtain ⟨o, ho, -, hlt⟩ := hnew m
      obtain ⟨o', ho', hle, -⟩ := hnew' a.2
      obtain ⟨k, hk, -, hlt'⟩ := hnew' m
      obtain ⟨k', hk', hle', -⟩ := hnew b'.2
      refine .inr ⟨⟨hleft, hright⟩, ?_, ?_⟩
      · rw [ho, ho']
        exact hdiffer (Nat.lt_of_lt_of_le hlt hle)
      · rw [hk, hk']
        exact hdiffer (Nat.lt_of_lt_of_le hlt' hle')

end Expr.IsValued

/-- Two evaluations come to the same: to the same machine, or to faults of one kind. When they fault,
the machines are the same but for new arrays of which the machine before does not know. If a value may
be without a text, it may also be that neither comes to an end. -/
inductive SameOutcome {α : Type} (endless : Prop) (Q : Machine → Prop) :
    EStateM.Result Halt Machine α → EStateM.Result Halt Machine α → Prop
  | ok (a : α) {m : Machine} (h : Q m) : SameOutcome endless Q (.ok a m) (.ok a m)
  | fault {f f' : Fault} {m₀ m m' : Machine} (hkind : f.kind = f'.kind) (h : Q m₀)
    (hm : m₀.Allocates m) (hm' : m₀.Allocates m') :
    SameOutcome endless Q (.error (.fault f) m) (.error (.fault f') m')
  | outOfFuel {m : Machine} (hendless : endless) :
    SameOutcome endless Q (.error .outOfFuel m) (.error .outOfFuel m)

theorem SameOutcome.mono {α : Type} {endless endless' : Prop} {Q Q' : Machine → Prop}
    {r r' : EStateM.Result Halt Machine α} (h : SameOutcome endless Q r r')
    (hendless : endless → endless') (hq : ∀ m, Q m → Q' m) : SameOutcome endless' Q' r r' := by
  cases h with
  | ok a h => exact .ok a (hq _ h)
  | fault hkind h hm hm' => exact .fault hkind (hq _ h) hm hm'
  | outOfFuel h => exact .outOfFuel (hendless h)

/-- The two evaluations always come to the same. -/
def ComeToSame {α : Type} (ctx ctx' : Context) (endless : Prop) (Q : Machine → Prop) (m : Machine)
    (x y : Evaluator → Eval α) : Prop :=
  ∃ result result', Eventually ctx x m result ∧ Eventually ctx' y m result' ∧
    SameOutcome endless Q result result'

namespace ComeToSame

variable {α β : Type} {ctx ctx' : Context} {endless : Prop} {Q : Machine → Prop} {m : Machine}
  {x y : Evaluator → Eval α}

theorem ok (a : α) {m₁ : Machine} (hx : Eventually ctx x m (.ok a m₁))
    (hy : Eventually ctx' y m (.ok a m₁)) (h : Q m₁) : ComeToSame ctx ctx' endless Q m x y :=
  ⟨_, _, hx, hy, .ok a h⟩

theorem fault {f f' : Fault} {m₀ m₁ m₂ : Machine} (hx : Eventually ctx x m (.error (.fault f) m₁))
    (hy : Eventually ctx' y m (.error (.fault f') m₂)) (hkind : f.kind = f'.kind) (h : Q m₀)
    (hm₁ : m₀.Allocates m₁) (hm₂ : m₀.Allocates m₂) : ComeToSame ctx ctx' endless Q m x y :=
  ⟨_, _, hx, hy, .fault hkind h hm₁ hm₂⟩

theorem outOfFuel {m₁ : Machine} (hx : Eventually ctx x m (.error .outOfFuel m₁))
    (hy : Eventually ctx' y m (.error .outOfFuel m₁)) (hendless : endless) :
    ComeToSame ctx ctx' endless Q m x y :=
  ⟨_, _, hx, hy, .outOfFuel hendless⟩

theorem after {f g : Evaluator → α → Eval β} {a : α} {m₁ : Machine}
    (hx : Eventually ctx x m (.ok a m₁)) (hy : Eventually ctx' y m (.ok a m₁))
    (h : ComeToSame ctx ctx' endless Q m₁ (f · a) (g · a)) :
    ComeToSame ctx ctx' endless Q m (fun sub => x sub >>= f sub) fun sub => y sub >>= g sub := by
  obtain ⟨result, result', hresult, hresult', hsame⟩ := h
  exact ⟨result, result', hx.bind_ok hresult, hy.bind_ok hresult', hsame⟩

theorem bind {f g : Evaluator → α → Eval β} (h : ComeToSame ctx ctx' endless Q m x y)
    (hf : ∀ a m₁, Q m₁ → ComeToSame ctx ctx' endless Q m₁ (f · a) (g · a)) :
    ComeToSame ctx ctx' endless Q m (fun sub => x sub >>= f sub) fun sub => y sub >>= g sub := by
  obtain ⟨result, result', hx, hy, hsame⟩ := h
  cases hsame with
  | ok a hq => exact .after hx hy (hf a _ hq)
  | fault hkind hq hm hm' => exact .fault hx.bind_error hy.bind_error hkind hq hm hm'
  | outOfFuel hendless => exact .outOfFuel hx.bind_error hy.bind_error hendless

theorem display {v : Value} (htext : ¬ endless → (m.text? v).isSome) (hm : Q m) :
    ComeToSame ctx ctx' endless Q m (fun _ => display v) fun _ => display v := by
  have hdisplay := display_apply v m
  cases hv : m.text? v with
  | none =>
    rw [hv] at hdisplay htext
    have hendless : endless := by_contra fun hends => absurd (htext hends) Bool.false_ne_true
    exact .outOfFuel (.of_forall fun _ => hdisplay) (.of_forall fun _ => hdisplay) hendless
  | some text =>
    rw [hv] at hdisplay
    exact .ok text (.of_forall fun _ => hdisplay) (.of_forall fun _ => hdisplay) hm

theorem differ {v w : Option String} {f f' : String → String → Fault} {m₁ : Machine}
    (hx : Eventually ctx x m (shown m₁ (fun left right => .error (.fault (f left right)) m₁) v w))
    (hy : Eventually ctx' y m (shown m₁ (fun right left => .error (.fault (f' right left)) m₁) w v))
    (hkind : ∀ left right, (f left right).kind = (f' right left).kind)
    (htext : ¬ endless → v.isSome ∧ w.isSome) (h : Q m) (hm₁ : m.Allocates m₁) :
    ComeToSame ctx ctx' endless Q m x y := by
  have hendless : v.isSome = false ∨ w.isSome = false → endless := fun hnone =>
    by_contra fun hends => by simp [htext hends] at hnone
  cases v with
  | none => cases w <;> exact .outOfFuel hx hy (hendless (.inl rfl))
  | some left =>
    cases w with
    | none => exact .outOfFuel hx hy (hendless (.inr rfl))
    | some right => exact .fault hx hy (hkind left right) h hm₁ hm₁

end ComeToSame

/-- What is so at each position of a unification: the variables among its arguments are bound, their
values have texts unless some had none in the beginning, and nothing dangles if nothing did then. -/
structure Supplied (t : Table) (arguments : List Expr) (endless intact : Prop) (env : Env)
    (m : Machine) : Prop where
  bound : ∀ r, .reference r ∈ arguments → r.IsBound t m env
  text : ¬ endless → ∀ r, .reference r ∈ arguments → ∀ v,
    r.value? t (env.map m.frame) = some v → (m.text? v).isSome
  complete : intact → m.Complete env

namespace Supplied

variable {t : Table} {arguments : List Expr} {endless intact : Prop} {env : Env} {m m' : Machine}
  {e : Expr}

theorem valued (h : Supplied t arguments endless intact env m) (hmem : e ∈ arguments)
    (he : e.isLiteral = true ∨ ∃ r, e = .reference r) : e.IsValued t m env := by
  rcases he with he | ⟨r, rfl⟩
  · exact .inl he
  · exact .inr ⟨r, rfl, h.bound r hmem⟩

/-- The value of an argument refers to no objects but those that are there then. -/
theorem operand (limit : Nat) (h : Supplied t arguments endless intact env m)
    (he : e.IsValued t m env) :
    Supplied t arguments endless intact env (operand ⟨t, limit⟩ env e m).2 ∧
      (intact → (operand ⟨t, limit⟩ env e m).1.Within
        (operand ⟨t, limit⟩ env e m).2.objects.size) := by
  have hcomplete := fun hi => he.complete ⟨t, limit⟩ (h.complete hi)
  have hframes := (he.allocates ⟨t, limit⟩).frames
  have hframe : (LogicScript.operand ⟨t, limit⟩ env e m).2.frame = m.frame :=
    funext (Machine.frame_of_frames hframes)
  refine ⟨⟨fun r hr => (h.bound r hr).of_frames hframes, fun hends r hr v hv => ?_,
    fun hi => (hcomplete hi).1⟩, fun hi => (hcomplete hi).2⟩
  rw [hframe] at hv
  exact he.text?_after ⟨t, limit⟩ (h.text hends r hr v hv)

/-- The value of an argument has a text unless one had none in the beginning. -/
theorem text?_operand (limit : Nat) (h : Supplied t arguments endless intact env m)
    (hmem : e ∈ arguments) (he : e.IsValued t m env) (hends : ¬ endless) :
    ((LogicScript.operand ⟨t, limit⟩ env e m).2.text?
      (LogicScript.operand ⟨t, limit⟩ env e m).1).isSome := by
  rcases he with he | ⟨r, rfl, hr⟩
  · rw [operand_literal he]
    exact text?_literal ⟨t, limit⟩ e m
  · obtain ⟨f, v, hv, -⟩ := hr.value?
    simp only [LogicScript.operand, hv, Option.getD_some]
    exact h.text hends r hmem v hv

theorem define {f : FrameId} {name : String} {v : Value}
    (h : Supplied t arguments endless intact env m) (hv : intact → v.Within m.objects.size)
    (htext : ¬ endless → (m.text? v).isSome) :
    Supplied t arguments endless intact env (m.define f name v) where
  bound r hr := (h.bound r hr).define f name v
  text hends r hr w hw := by
    rcases (h.bound r hr).value?_define hw with rfl | hold
    · exact htext hends
    · exact h.text hends r hr w hold
  complete hi := (h.complete hi).define (hv hi)

theorem log (h : Supplied t arguments endless intact env m) (e : Event) :
    Supplied t arguments endless intact env (m.log e) where
  bound r hr := (h.bound r hr).of_frames rfl
  text hends r hr v hv := h.text hends r hr v hv
  complete hi := (h.complete hi).log e

end Supplied

/-- The tables say the same of all arguments, and types can be compared either way round. -/
structure Exchanges (t t' : Table) (arguments : List Expr) : Prop where
  operand : ∀ e ∈ arguments, e.isOperand = true
  same : ∀ e ∈ arguments, t.Same t' e
  comparable : ∀ l ∈ arguments, ∀ r ∈ arguments,
    (t.typeOf l.mark).comparable (t.typeOf r.mark) = (t.typeOf r.mark).comparable (t.typeOf l.mark)

section Positions

variable {t t' : Table} {limit : Nat} {arguments : List Expr} {endless intact : Prop} {env : Env}
  {m : Machine} {e l r : Expr} {mark : Mark} {name : String}

theorem Table.Same.operand_eq (h : t.Same t' e) (he : e.IsValued t m env) (m' : Machine) :
    operand ⟨t', limit⟩ env e m' = operand ⟨t, limit⟩ env e m' := by
  rcases he with he | ⟨r, rfl, hr⟩
  · rw [operand_literal he, operand_literal he, h.literal he]
  · have hvalue : ∀ chain, r.value? t' chain = r.value? t chain := fun chain => by
      have hscope : (t'.attributes r.mark.id).scope = (t.attributes r.mark.id).scope := h.scope rfl
      unfold Reference.value?
      rw [h.decl r rfl, hscope]
    simp only [operand, hvalue]

theorem Table.Same.valued (h : t.Same t' e) (he : e.IsValued t m env) : e.IsValued t' m env := by
  rcases he with he | ⟨r, rfl, hr⟩
  · exact .inl he
  · obtain ⟨owner, f, v, hscope, hframe, hv⟩ := hr.value
    refine .inr ⟨r, rfl, ⟨by rw [h.decl r rfl]; exact hr.decl, owner, f, v, ?_, hframe, hv⟩⟩
    exact (h.scope rfl).trans hscope

/-- A value is written to the same frame by both tables, or there is no such frame. -/
theorem writeAt_same (limit : Nat) (env : Env) (node : NodeRef) (name : String) (v : Value)
    (type : Ty) (m : Machine)
    (h : (t'.attributes node.mark.id).scope = (t.attributes node.mark.id).scope) :
    (∃ f, writeAt ⟨t, limit⟩ env node name v type m = .ok () (m.define f name (v.widen type)) ∧
      writeAt ⟨t', limit⟩ env node name v type m = .ok () (m.define f name (v.widen type))) ∨
    ∃ f f' : Fault, f.kind = f'.kind ∧
      writeAt ⟨t, limit⟩ env node name v type m = .error (.fault f) m ∧
      writeAt ⟨t', limit⟩ env node name v type m = .error (.fault f') m := by
  have hwrite : ∀ {t : Table} {scope : ScopeId}, (t.attributes node.mark.id).scope = some scope →
      writeAt ⟨t, limit⟩ env node name v type m =
        write ⟨t, limit⟩ env scope name v type m := by
    intro t scope hscope
    have hfiled : scopeOf ⟨t, limit⟩ node m = .ok scope m := by
      simp only [scopeOf, hscope]
      rfl
    exact bind_of_ok hfiled
  cases hscope : (t.attributes node.mark.id).scope with
  | none =>
    have hnone : ∀ {t : Table}, (t.attributes node.mark.id).scope = none →
        writeAt ⟨t, limit⟩ env node name v type m =
          .error (.fault ⟨.nodeWithoutScope node.kind, none⟩) m := by
      intro t hscope
      refine bind_of_error (?_ : scopeOf ⟨t, limit⟩ node m = _)
      simp only [scopeOf, hscope]
      rfl
    exact .inr ⟨_, _, rfl, hnone hscope, hnone (h.trans hscope)⟩
  | some scope =>
    simp only [hwrite hscope, hwrite (h.trans hscope), write_apply, Machine.write, Machine.slot]
    cases m.frameOf? env scope with
    | none =>
      exact .inr ⟨⟨.noFrameToWrite (t.scopes.get scope).text name, none⟩,
        ⟨.noFrameToWrite (t'.scopes.get scope).text name, none⟩, rfl, rfl, rfl⟩
    | some f => exact .inl ⟨f, rfl, rfl⟩

theorem bindPlaceholder_same {type : TypeExpr} (hm : Supplied t arguments endless intact env m)
    (hmem : e ∈ arguments) (he : e.IsValued t m env) (hsame : t.Same t' e)
    (hplaceholder : t.Same t' (.placeholder mark name type)) :
    ComeToSame ⟨t, limit⟩ ⟨t', limit⟩ endless (Supplied t arguments endless intact env) m
      (fun sub => bindPlaceholder ⟨t, limit⟩ sub env mark name e)
      fun sub => bindPlaceholder ⟨t', limit⟩ sub env mark name e := by
  have hslot : t'.typeOf mark = t.typeOf mark := hplaceholder.type
  by_cases h : (t.typeOf e.mark).assignable (t.typeOf mark) = true
  · have h' : (t'.typeOf e.mark).assignable (t'.typeOf mark) = true := by
      rw [hsame.type, hslot]
      exact h
    have hpass : ∀ {t : Table}, (t.typeOf e.mark).assignable (t.typeOf mark) = true → ∀ sub,
        bindPlaceholder ⟨t, limit⟩ sub env mark name e = (sub.expression env e >>= fun v =>
          writeAt ⟨t, limit⟩ env ⟨.unboundParameter, mark⟩ name v (t.typeOf mark) >>= fun _ =>
            display v >>= fun text => log (.bound name text)) := by
      intro t h sub
      simp only [bindPlaceholder, h]
      rfl
    simp only [hpass h, hpass h', hslot]
    obtain ⟨hnext, hwithin⟩ := hm.operand limit he
    have htext := hm.text?_operand limit hmem he
    have hvalue := he.evaluates ⟨t, limit⟩
    have hvalue' := (hsame.valued he).evaluates ⟨t', limit⟩
    rw [hsame.operand_eq he] at hvalue'
    refine .after hvalue hvalue' ?_
    generalize (operand ⟨t, limit⟩ env e m).1 = v at hwithin htext ⊢
    generalize (operand ⟨t, limit⟩ env e m).2 = m₁ at hnext hwithin htext ⊢
    rcases writeAt_same limit env ⟨.unboundParameter, mark⟩ name v (t.typeOf mark) m₁
        (hplaceholder.scope rfl) with
      ⟨f, hwrite, hwrite'⟩ | ⟨f, f', hkind, hwrite, hwrite'⟩
    · have hbound : Supplied t arguments endless intact env
          (m₁.define f name (v.widen (t.typeOf mark))) :=
        hnext.define (fun hi => (hwithin hi).widen _) fun hends => Value.text?_widen (htext hends) _
      refine .after (.of_forall fun _ => hwrite) (.of_forall fun _ => hwrite') ?_
      refine ComeToSame.bind (.display htext hbound) fun text m₂ hm₂ => ?_
      exact .ok () (.of_forall fun _ => rfl) (.of_forall fun _ => rfl) (hm₂.log _)
    · exact .fault (.of_forall fun _ => bind_of_error hwrite)
        (.of_forall fun _ => bind_of_error hwrite') hkind hnext (.refl m₁) (.refl m₁)
  · have h' : ¬ (t'.typeOf e.mark).assignable (t'.typeOf mark) = true := by
      rw [hsame.type, hslot]
      exact h
    exact .fault (.of_forall fun _ => bindPlaceholder_fault h)
      (.of_forall fun _ => bindPlaceholder_fault h') rfl hm (.refl m) (.refl m)

/-- Two arguments of comparable types are evaluated, and their values are compared. -/
theorem matchValues_valued (ctx : Context) (hl : l.IsValued ctx.table m env)
    (hr : r.IsValued ctx.table m env)
    (h : (ctx.table.typeOf l.mark).comparable (ctx.table.typeOf r.mark) = true) :
    Eventually ctx (fun sub => matchValues ctx sub env l r) m
      (let a := operand ctx env l m
      let b := operand ctx env r a.2
      if a.1.numericEqual b.1 then .ok () b.2
      else shown b.2 (fun left right => .error (.fault ⟨.valuesDiffer left right, some r.ref⟩) b.2)
        (b.2.text? a.1) (b.2.text? b.1)) := by
  simp only [matchValues_of_comparable h]
  refine (hl.evaluates ctx).bind_ok
    (((hr.of_frames (hl.allocates ctx).frames).evaluates ctx).bind_ok (.of_forall fun _ => ?_))
  split
  · rfl
  · exact display_two ..

theorem matchValues_exchange (hm : Supplied t arguments endless intact env m)
    (hleft : l ∈ arguments) (hright : r ∈ arguments) (hl : l.IsValued t m env)
    (hr : r.IsValued t m env) (hsame : t.Same t' l) (hsame' : t.Same t' r)
    (hcomparable : (t.typeOf l.mark).comparable (t.typeOf r.mark) =
      (t.typeOf r.mark).comparable (t.typeOf l.mark)) :
    ComeToSame ⟨t, limit⟩ ⟨t', limit⟩ endless (Supplied t arguments endless intact env) m
      (fun sub => matchValues ⟨t, limit⟩ sub env l r)
      fun sub => matchValues ⟨t', limit⟩ sub env r l := by
  by_cases h : (t.typeOf l.mark).comparable (t.typeOf r.mark) = true
  · have h' : (t'.typeOf r.mark).comparable (t'.typeOf l.mark) = true := by
      rw [hsame.type, hsame'.type, ← hcomparable]
      exact h
    have hfirst := matchValues_valued ⟨t, limit⟩ hl hr h
    have hsecond := matchValues_valued ⟨t', limit⟩ (hsame'.valued hr) (hsame.valued hl) h'
    simp only [hsame.operand_eq hl, hsame'.operand_eq hr] at hsecond
    have hexchange := hl.exchange ⟨t, limit⟩ hr
    dsimp only at hfirst hexchange
    -- The machines after both values were evaluated, one way round and the other.
    have hl' := hl.of_frames (hr.allocates ⟨t, limit⟩).frames
    have hr' := hr.of_frames (hl.allocates ⟨t, limit⟩).frames
    have hnext := ((hm.operand limit hl).1.operand limit hr').1
    have hm₁ := (hl.allocates ⟨t, limit⟩).trans (hr'.allocates ⟨t, limit⟩)
    have hm₂ := (hr.allocates ⟨t, limit⟩).trans (hl'.allocates ⟨t, limit⟩)
    rcases hexchange with ⟨hv, hw, hmachine⟩ | ⟨⟨hlit, hlit'⟩, hne, hne'⟩
    · rw [← hv, ← hw, ← hmachine, Value.numericEqual_comm] at hsecond
      split at hfirst
      · rename_i hequal
        rw [if_pos hequal] at hsecond
        exact .ok () hfirst hsecond hnext
      · rename_i hdiffer
        rw [if_neg hdiffer] at hsecond
        refine .differ hfirst hsecond (fun _ _ => rfl) (fun hends => ?_) hm hm₁
        exact ⟨hr'.text?_after ⟨t, limit⟩ (hm.text?_operand limit hleft hl hends),
          (hm.operand limit hl).1.text?_operand limit hright hr' hends⟩
    · rw [if_neg (Bool.eq_false_iff.mp hne)] at hfirst
      rw [if_neg (Bool.eq_false_iff.mp hne')] at hsecond
      simp only [operand_literal hlit, operand_literal hlit'] at hfirst hsecond hm₁ hm₂
      obtain ⟨v, hv⟩ := Option.isSome_iff_exists.mp
        (text?_after_literal ⟨t, limit⟩ r (text?_literal ⟨t, limit⟩ l m))
      obtain ⟨w, hw⟩ := Option.isSome_iff_exists.mp
        (text?_literal ⟨t, limit⟩ r (literal ⟨t, limit⟩ l m).2)
      obtain ⟨w', hw'⟩ := Option.isSome_iff_exists.mp
        (text?_after_literal ⟨t, limit⟩ l (text?_literal ⟨t, limit⟩ r m))
      obtain ⟨v', hv'⟩ := Option.isSome_iff_exists.mp
        (text?_literal ⟨t, limit⟩ l (literal ⟨t, limit⟩ r m).2)
      rw [hv, hw] at hfirst
      rw [hv', hw'] at hsecond
      exact .fault hfirst hsecond rfl hm hm₁ hm₂
  · have h' : ¬ (t'.typeOf r.mark).comparable (t'.typeOf l.mark) = true := by
      rw [hsame.type, hsame'.type, ← hcomparable]
      exact h
    exact .fault (.of_forall fun _ => matchValues_incomparable h)
      (.of_forall fun _ => matchValues_incomparable h') rfl hm (.refl m) (.refl m)

/-- An argument that has a value: a literal or a name. -/
def Expr.HasValue (e : Expr) : Prop := e.isLiteral = true ∨ ∃ r, e = .reference r

theorem Expr.HasValue.ne (h : e.HasValue) : ∀ mark name type, e ≠ .placeholder mark name type := by
  rintro mark name type rfl
  rcases h with h | ⟨r, h⟩ <;> cases h

section Sides

variable {ctx : Context} {sub : Evaluator} {type : TypeExpr}

theorem unifyPosition_values (hl : l.HasValue) (hr : r.HasValue) :
    unifyPosition ctx sub env l r = matchValues ctx sub env l r := by
  have hne := hl.ne
  have hne' := hr.ne
  unfold unifyPosition
  split <;> simp_all

theorem unifyPosition_left (he : e.HasValue) :
    unifyPosition ctx sub env (.placeholder mark name type) e =
      bindPlaceholder ctx sub env mark name e := by
  have hne := he.ne
  unfold unifyPosition
  split <;> simp_all

theorem unifyPosition_right (he : e.HasValue) :
    unifyPosition ctx sub env e (.placeholder mark name type) =
      bindPlaceholder ctx sub env mark name e := by
  have hne := he.ne
  unfold unifyPosition
  split <;> simp_all

end Sides

/-- What is done in one position comes to the same with its sides changed. -/
theorem unifyPosition_exchange (hx : Exchanges t t' arguments)
    (hm : Supplied t arguments endless intact env m) (hl : l ∈ arguments) (hr : r ∈ arguments) :
    ComeToSame ⟨t, limit⟩ ⟨t', limit⟩ endless (Supplied t arguments endless intact env) m
      (fun sub => unifyPosition ⟨t, limit⟩ sub env l r)
      fun sub => unifyPosition ⟨t', limit⟩ sub env r l := by
  have hcases : ∀ e ∈ arguments, e.HasValue ∨ ∃ m name type, e = .placeholder m name type :=
    fun e he => or_assoc.mpr (Expr.isOperand_cases (hx.operand e he))
  rcases hcases l hl with hleft | ⟨mark, name, type, rfl⟩ <;>
    rcases hcases r hr with hright | ⟨mark', name', type', rfl⟩
  · simp only [unifyPosition_values hleft hright, unifyPosition_values hright hleft]
    exact matchValues_exchange hm hl hr (hm.valued hl hleft) (hm.valued hr hright) (hx.same l hl)
      (hx.same r hr) (hx.comparable l hl r hr)
  · simp only [unifyPosition_left hleft, unifyPosition_right hleft]
    exact bindPlaceholder_same hm hl (hm.valued hl hleft) (hx.same l hl) (hx.same _ hr)
  · simp only [unifyPosition_left hright, unifyPosition_right hright]
    exact bindPlaceholder_same hm hr (hm.valued hr hright) (hx.same r hr) (hx.same _ hl)
  · exact .fault (.of_forall fun _ => rfl) (.of_forall fun _ => rfl) rfl hm (.refl m) (.refl m)

/-- So do all positions, one after the other. -/
theorem unifyAll_exchange (limit : Nat) {ls rs : List Expr} (hx : Exchanges t t' arguments)
    (hm : Supplied t arguments endless intact env m) (hls : ls ⊆ arguments) (hrs : rs ⊆ arguments) :
    ComeToSame ⟨t, limit⟩ ⟨t', limit⟩ endless (Supplied t arguments endless intact env) m
      (fun sub => unifyAll ⟨t, limit⟩ sub env ls rs)
      fun sub => unifyAll ⟨t', limit⟩ sub env rs ls := by
  induction ls generalizing rs m with
  | nil =>
    have hnone : ∀ ctx sub, unifyAll ctx sub env rs [] = pure () := fun ctx sub => by
      cases rs <;> rfl
    simp only [hnone]
    exact .ok () (.of_forall fun _ => rfl) (.of_forall fun _ => rfl) hm
  | cons l ls ih =>
    cases rs with
    | nil => exact .ok () (.of_forall fun _ => rfl) (.of_forall fun _ => rfl) hm
    | cons r rs =>
      rw [List.cons_subset] at hls hrs
      exact (unifyPosition_exchange hx hm hls.1 hrs.1).bind fun _ _ hm₁ => ih hm₁ hls.2 hrs.2

/-- So does the whole unification. -/
theorem unify_exchange (limit : Nat) (mark : Mark) {left right : PredicateCall}
    (hx : Exchanges t t' (left.arguments ++ right.arguments))
    (hm : Supplied t (left.arguments ++ right.arguments) endless intact env m) :
    ComeToSame ⟨t, limit⟩ ⟨t', limit⟩ endless
      (Supplied t (left.arguments ++ right.arguments) endless intact env) m
      (fun sub => sub.statement env (.unify mark left right))
      fun sub => sub.statement env (.unify mark right left) := by
  by_cases hfunctor : left.functor = right.functor
  · by_cases harity : left.arguments.length = right.arguments.length
    · obtain ⟨result, result', hresult, hresult', hsame⟩ := unifyAll_exchange limit hx hm
        (List.subset_append_left ..) (List.subset_append_right ..)
      simp only [← fun sub => unify_alike ⟨t, limit⟩ sub env mark hfunctor harity] at hresult
      simp only [← fun sub => unify_alike ⟨t', limit⟩ sub env mark hfunctor.symm harity.symm]
        at hresult'
      cases hsame with
      | ok a h => exact .ok .normal (hresult.unify.1 _ rfl) (hresult'.unify.1 _ rfl) h
      | fault hkind h hm₁ hm₂ =>
        exact .fault (hresult.unify.2.1 _ _ rfl) (hresult'.unify.2.1 _ _ rfl) hkind h hm₁ hm₂
      | outOfFuel hendless =>
        exact .outOfFuel (hresult.unify.2.2 _ rfl) (hresult'.unify.2.2 _ rfl) hendless
    · exact .fault (unify_arities _ m env mark hfunctor harity)
        (unify_arities _ m env mark hfunctor.symm (Ne.symm harity)) rfl hm (.refl m) (.refl m)
  · exact .fault (unify_functors _ m env mark hfunctor)
      (unify_functors _ m env mark (Ne.symm hfunctor)) rfl hm (.refl m) (.refl m)

end Positions

namespace Program

variable {p : Program} {mark : Mark} {left right : PredicateCall}

/-- No struct of the program has the name of a primitive type. -/
def StructsApart (p : Program) : Prop :=
  ∀ d, .statement (.struct d) ∈ p.nodes → ∀ q : Primitive, q.name ≠ d.name

theorem comparable_symm (hnames : p.StructsApart) (m m' : Mark) :
    (p.settled.table.typeOf m).comparable (p.settled.table.typeOf m') =
      (p.settled.table.typeOf m').comparable (p.settled.table.typeOf m) := by
  have hnamed : ∀ m, Ty.WellNamed (p.settled.table.typeOf m).structs := fun m d hd =>
    hnames d (p.typeOf_known m d hd)
  have hflip : ∀ {s t : Ty}, Ty.WellNamed t.structs → s.comparable t = true → t.comparable s = true :=
    fun ht h => (Ty.comparable_symm_iff h).mpr (Ty.mistakes_of_wellNamed _ ht)
  exact Bool.eq_iff_iff.mpr ⟨hflip (hnamed m'), hflip (hnamed m)⟩

/-- A unification of literals, placeholders and other variables that are bound comes to the same with
its sides changed, if the analysis accepts both programs and no struct is named like a primitive type:
both come to the end and leave the same machine, or both make a fault of the same kind. Then the
machines are the same but for arrays that came from array literals. Nothing refers to these, if the
machine had all that it referred to in the beginning. Only if one of the variables has a value that is
inside itself, it may be that both do not come to an end, as that value cannot be shown. -/
theorem unify_symmetric (hp : p.Numbered) (hnames : p.StructsApart) (hok : (analyze p).2 = [])
    (hok' : (analyze (p.turn mark.id)).2 = [])
    (h : .statement (.unify mark left right) ∈ p.nodes)
    (hes : ∀ e ∈ left.arguments ++ right.arguments, e.isOperand = true) (limit : Nat) (m : Machine)
    (env : Env)
    (hbound : ∀ r, .reference r ∈ left.arguments ++ right.arguments →
      r.IsBound (analyze p).1 m env)
    (hother : ∀ r, .reference r ∈ left.arguments ++ right.arguments →
      ∀ d, ((analyze p).1.attributes r.mark.id).decl = some d →
        ¬ d.Among (left.arguments ++ right.arguments)) :
    ∃ result result', Eventually ⟨(analyze p).1, limit⟩
        (fun sub => sub.statement env (.unify mark left right)) m result ∧
      Eventually ⟨(analyze (p.turn mark.id)).1, limit⟩
        (fun sub => sub.statement env (.unify mark right left)) m result' ∧
      SameOutcome (∃ r v, .reference r ∈ left.arguments ++ right.arguments ∧
          r.value? (analyze p).1 (env.map m.frame) = some v ∧ v.IsCircular m.objects)
        (fun m' => m.Complete env → m'.Complete env) result result' := by
  rw [analyze_eq] at hok hok' hbound hother
  rw [analyze_eq, analyze_eq]
  have hvars : ∀ r, .reference r ∈ left.arguments ++ right.arguments →
      ∃ d, (p.settled.table.attributes r.mark.id).decl = some d ∧ d.isAssignable = true ∧
        ¬ d.Among (left.arguments ++ right.arguments) := by
    intro r hr
    obtain ⟨d, hd, hvar⟩ := (hbound r hr).decl
    exact ⟨d, hd, hvar, hother r hr d hd⟩
  have hx : Exchanges p.settled.table (p.turn mark.id).settled.table
      (left.arguments ++ right.arguments) :=
    ⟨hes, turn_same hp hok hok' h hes hvars, fun l _ r _ => comparable_symm hnames l.mark r.mark⟩
  have hm : Supplied p.settled.table (left.arguments ++ right.arguments)
      (∃ r v, .reference r ∈ left.arguments ++ right.arguments ∧
        r.value? p.settled.table (env.map m.frame) = some v ∧ v.IsCircular m.objects)
      (m.Complete env) env m := by
    refine ⟨hbound, fun hends r hr v hv => ?_, fun hcomplete => hcomplete⟩
    exact Option.isSome_iff_ne_none.mpr fun hnone =>
      hends ⟨r, v, hr, hv, Value.text?_eq_none_iff.mp hnone⟩
  obtain ⟨result, result', hresult, hresult', hsame⟩ := unify_exchange limit mark hx hm
  exact ⟨result, result', hresult, hresult', hsame.mono id fun _ hm => hm.complete⟩

/-- The two sides of `q(a, x: Float, "s") = q(1, 2, y: String)`. -/
def mixedLeft : PredicateCall :=
  ⟨⟨4, {}⟩, "q", [.reference ⟨⟨5, {}⟩, "a"⟩, .placeholder ⟨6, {}⟩ "x" (.simple ⟨7, {}⟩ "Float"),
    .string ⟨8, {}⟩ "s"]⟩

def mixedRight : PredicateCall :=
  ⟨⟨9, {}⟩, "q", [.int ⟨10, {}⟩ 1, .int ⟨11, {}⟩ 2,
    .placeholder ⟨12, {}⟩ "y" (.simple ⟨13, {}⟩ "String")]⟩

/-- The unification stands after the declaration of the variable. -/
def mixed : Program where
  mark := ⟨0, {}⟩
  statements := [.var ⟨⟨1, {}⟩, "a", none, some (.int ⟨2, {}⟩ 1)⟩,
    .unify ⟨3, {}⟩ mixedLeft mixedRight]

/-- The variable is bound in the root frame. -/
def mixedMachine : Machine := (({} : Machine).push 0).2.define 0 "a" (.int 1)

theorem mixed_decl : ∃ d, ((analyze mixed).1.attributes 5).decl = some d ∧
    (d.isAssignable && !d.isPlaceholder) = true := by
  have hdecl : ((analyze mixed).1.attributes 5).decl.any
      (fun d => d.isAssignable && !d.isPlaceholder) = true := by decide +kernel
  generalize ((analyze mixed).1.attributes 5).decl = decl at hdecl ⊢
  cases decl with
  | none => cases hdecl
  | some d => exact ⟨d, rfl, hdecl⟩

theorem mixed_scope : ((analyze mixed).1.attributes 5).scope = some 0 := by decide +kernel

theorem mixed_symmetric : (analyze mixed).2 = [] ∧ (analyze (mixed.turn 3)).2 = [] ∧
    ∃ result result', Eventually ⟨(analyze mixed).1, 1⟩
        (fun sub => sub.statement [0] (.unify ⟨3, {}⟩ mixedLeft mixedRight)) mixedMachine result ∧
      Eventually ⟨(analyze (mixed.turn 3)).1, 1⟩
        (fun sub => sub.statement [0] (.unify ⟨3, {}⟩ mixedRight mixedLeft)) mixedMachine result' ∧
      SameOutcome False (fun m' => mixedMachine.Complete [0] → m'.Complete [0]) result result' := by
  have hnumbered : mixed.Numbered := by unfold Numbered Distinct; decide
  have hnames : mixed.StructsApart := by
    intro d hd
    simp [mixed, mixedLeft, mixedRight, nodes, Stmt.nodesOfList, Stmt.nodes, VarDecl.nodes, Expr.nodes,
      Expr.nodesOfList, TypeExpr.nodes, PredicateCall.goal, Goal.nodes] at hd
  have hok : (analyze mixed).2 = [] := List.isEmpty_iff.mp (by decide +kernel)
  have hok' : (analyze (mixed.turn (⟨3, {}⟩ : Mark).id)).2 = [] :=
    List.isEmpty_iff.mp (by decide +kernel)
  have hmem : .statement (.unify ⟨3, {}⟩ mixedLeft mixedRight) ∈ mixed.nodes := by
    simp [mixed, nodes, Stmt.nodesOfList, Stmt.nodes]
  have hname : ∀ r, .reference r ∈ mixedLeft.arguments ++ mixedRight.arguments →
      r = ⟨⟨5, {}⟩, "a"⟩ := by simp [mixedLeft, mixedRight]
  obtain ⟨d, hd, hvar⟩ := mixed_decl
  have hscope := mixed_scope
  simp only [Bool.and_eq_true, Bool.not_eq_true'] at hvar
  have hbound : ∀ r, .reference r ∈ mixedLeft.arguments ++ mixedRight.arguments →
      r.IsBound (analyze mixed).1 mixedMachine [0] := by
    intro r hr
    rw [hname r hr]
    exact ⟨⟨d, hd, hvar.1⟩, 0, 0, .int 1, hscope, rfl, rfl⟩
  have hother : ∀ r, .reference r ∈ mixedLeft.arguments ++ mixedRight.arguments →
      ∀ e, ((analyze mixed).1.attributes r.mark.id).decl = some e →
        ¬ e.Among (mixedLeft.arguments ++ mixedRight.arguments) := by
    intro r hr e he
    rw [hname r hr] at he
    rintro ⟨m, name, type, -, rfl⟩
    cases hd.symm.trans he
    cases hvar.2
  have hends : ∀ v : Value, ¬ v.IsCircular mixedMachine.objects := by
    intro v hcircular
    have htext : (v.text? mixedMachine.objects).isSome :=
      Value.text?_isSome_iff.mpr fun o _ => (Descends.size #[]).acc (Nat.zero_le o)
    rw [Value.text?_eq_none_iff.mpr hcircular] at htext
    cases htext
  obtain ⟨result, result', hresult, hresult', hsame⟩ :=
    unify_symmetric hnumbered hnames hok hok' hmem (by decide) 1 mixedMachine [0] hbound hother
  refine ⟨hok, hok', result, result', hresult, hresult', hsame.mono ?_ fun _ h => h⟩
  rintro ⟨r, v, -, -, hcircular⟩
  exact hends v hcircular

end Program

end LogicScript
