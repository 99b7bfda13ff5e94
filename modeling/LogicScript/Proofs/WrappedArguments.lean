import LogicScript.Proofs.Purity
import LogicScript.Proofs.Tidying.Lockstep
import LogicScript.Proofs.Typing

/-! Parentheses around the arguments of unifications and facts.

Parentheses have the type and the value of what is inside them. So around an argument of a unification
that is matched by its value they make no difference. A placeholder in parentheses, though, is not
taken for one: it is evaluated, and that is a fault. A fact looks into the parentheses, and there they
never make a difference. -/
namespace LogicScript

open Eval

/-- The second expression is the first one without some of the parentheses around it. -/
inductive Expr.Strips : Expr → Expr → Prop
  | refl (e : Expr) : Strips e e
  | paren (m : Mark) {inner e : Expr} : Strips inner e → Strips (.paren m inner) e

def Expr.hidesPlaceholder (e : Expr) : Bool :=
  e.placeholder?.isNone && e.unwrap.placeholder?.isSome

/-- Some parentheses are taken away, but not the last ones around a placeholder. -/
structure Expr.Loosens (e e' : Expr) : Prop where
  strips : e.Strips e'
  hidden : e'.hidesPlaceholder = e.hidesPlaceholder

/-- The second statement is the first one with other arguments: those of a unification are related in
the one way, those of a fact in the other. -/
inductive Stmt.Changes (R S : Expr → Expr → Prop) : Stmt → Stmt → Prop
  | unify (m ml mr : Mark) (fl fr : String) {ls ls' rs rs' : List Expr} (hl : List.Forall₂ R ls ls')
    (hr : List.Forall₂ R rs rs') :
    Changes R S (.unify m ⟨ml, fl, ls⟩ ⟨mr, fr, rs⟩) (.unify m ⟨ml, fl, ls'⟩ ⟨mr, fr, rs'⟩)
  | fact (m : Mark) (functor : String) {es es' : List Expr} (h : List.Forall₂ S es es') :
    Changes R S (.fact ⟨m, functor, es⟩) (.fact ⟨m, functor, es'⟩)

def Stmt.hidesPlaceholder : Stmt → Bool
  | .unify _ left right => (left.arguments ++ right.arguments).any Expr.hidesPlaceholder
  | _ => false

namespace Stmt.Changes

variable {R R' S S' : Expr → Expr → Prop} {st st' : Stmt}

theorem flip (h : Changes R S st st') : Changes (Function.swap R) (Function.swap S) st' st := by
  cases h with
  | unify m ml mr fl fr hl hr => exact .unify m ml mr fl fr hl.flip hr.flip
  | fact m functor h => exact .fact m functor h.flip

theorem imp (h : Changes R S st st') (hR : ∀ e ∈ st.parts, ∀ e', R e e' → R' e e')
    (hS : ∀ e ∈ st.parts, ∀ e', S e e' → S' e e') : Changes R' S' st st' := by
  cases h with
  | unify m ml mr fl fr hl hr =>
    refine .unify m ml mr fl fr ?_ ?_
    · refine ((List.forall₂_and_left _ _).mpr ⟨fun e he => he, hl⟩).imp fun e e' h => ?_
      exact hR e (List.mem_append_left _ h.1) e' h.2
    · refine ((List.forall₂_and_left _ _).mpr ⟨fun e he => he, hr⟩).imp fun e e' h => ?_
      exact hR e (List.mem_append_right _ h.1) e' h.2
  | fact m functor h =>
    refine .fact m functor ?_
    refine ((List.forall₂_and_left _ _).mpr ⟨fun e he => he, h⟩).imp fun e e' h => ?_
    exact hS e h.1 e' h.2

end Stmt.Changes

namespace Expr

variable {e e' : Expr}

theorem Strips.unwrap_eq (h : e.Strips e') : e'.unwrap = e.unwrap := by
  induction h with
  | refl e => rfl
  | paren m h ih => exact ih

theorem unwrap_of_placeholder (h : e.placeholder?.isSome) : e.unwrap = e := by
  cases e with
  | placeholder m name type => rfl
  | _ => cases h

theorem Loosens.eq_of_placeholder (h : e.Loosens e')
    (hp : e.placeholder?.isSome ∨ e'.placeholder?.isSome) : e' = e := by
  obtain ⟨hstrips, hhidden⟩ := h
  cases hstrips with
  | refl e => rfl
  | paren m hstrips =>
    obtain hp | hp := hp
    · cases hp
    · -- The parentheses would hide a placeholder that now stands bare.
      have hunwrap := hstrips.unwrap_eq
      rw [unwrap_of_placeholder hp] at hunwrap
      have hinside : (Expr.paren m _).hidesPlaceholder = e'.placeholder?.isSome :=
        congrArg (·.placeholder?.isSome) hunwrap.symm
      rw [hinside, hp, hidesPlaceholder, Option.isNone_eq_false_iff.mpr hp] at hhidden
      cases hhidden

end Expr

theorem Program.typeOf_strips {p : Program} (hp : p.Numbered) {e e' : Expr} (h : e.Strips e')
    (he : .expression e ∈ p.nodes) :
    p.settled.table.typeOf e'.mark = p.settled.table.typeOf e.mark := by
  induction h with
  | refl e => rfl
  | paren m h ih =>
    rw [composed hp he rfl (by simp)]
    exact ih (nodes_inside hp he rfl (List.mem_cons_of_mem _ (Expr.self_mem_nodes _)))

namespace Eval

variable {α β : Type}

/-- Two evaluations end in the same machine, with the same value or with faults of the same cause. -/
inductive EndsAlike : EStateM.Result Halt Machine α → EStateM.Result Halt Machine α → Prop
  | ok (a : α) (m : Machine) : EndsAlike (.ok a m) (.ok a m)
  | fault {f f' : Fault} (m : Machine) (h : f'.cause = f.cause) :
    EndsAlike (.error (.fault f) m) (.error (.fault f') m)

def Ended (r : EStateM.Result Halt Machine α) : Prop := ∀ m, r ≠ .error .outOfFuel m

/-- What the first evaluation ends with, unless it runs out of fuel, the second one ends with. -/
def Refines (x y : Eval α) : Prop := ∀ m, Ended (x m) → EndsAlike (x m) (y m)

namespace EndsAlike

variable {r s t : EStateM.Result Halt Machine α}

theorem refl (h : Ended r) : EndsAlike r r := by
  match r with
  | .ok a m => exact .ok a m
  | .error (.fault f) m => exact .fault m rfl
  | .error .outOfFuel m => exact absurd rfl (h m)

theorem trans (h : EndsAlike r s) (h' : EndsAlike s t) : EndsAlike r t := by
  cases h with
  | ok a m => exact h'
  | fault m h =>
    cases h' with
    | fault _ h' => exact .fault m (h'.trans h)

end EndsAlike

namespace Refines

variable {x y : Eval α} {f g : α → Eval β}

theorem refl (x : Eval α) : Refines x x := fun _ h => .refl h

theorem raiseAt {cause : Cause} {node node' : NodeRef} :
    Refines (Eval.raiseAt cause node : Eval α) (Eval.raiseAt cause node') := fun m _ => .fault m rfl

theorem raiseAt_bind {cause : Cause} {node node' : NodeRef} :
    Refines (Eval.raiseAt cause node >>= f) (Eval.raiseAt cause node' >>= g) := fun m _ =>
  .fault m rfl

theorem bind (hx : Refines x y) (hf : ∀ a, Refines (f a) (g a)) :
    Refines (x >>= f) (y >>= g) := by
  intro m hended
  have hxm := hx m
  generalize hr : x m = r at hxm
  generalize hs : y m = s at hxm
  cases r with
  | ok a m₁ =>
    cases hxm (by rintro m ⟨⟩)
    rw [bind_of_ok hr] at hended ⊢
    rw [bind_of_ok hs]
    exact hf a m₁ hended
  | error halt m₁ =>
    rw [bind_of_error hr] at hended ⊢
    cases halt with
    | outOfFuel => exact absurd rfl (hended m₁)
    | fault cause =>
      cases hxm (by rintro m ⟨⟩) with
      | fault _ h =>
        rw [bind_of_error hs]
        exact .fault m₁ h

theorem attach_left {node : NodeRef} (h : Refines x y) : Refines (Eval.attach node x) y := by
  intro m hended
  have hxm := h m
  generalize hr : x m = r at hxm
  match r with
  | .ok a m₁ =>
    rw [attach_of_ok hr]
    exact hxm (by rintro m ⟨⟩)
  | .error (.fault f) m₁ =>
    rw [attach_of_fault hr]
    have hnamed : EndsAlike (.error (.fault (f.attach node)) m₁ : EStateM.Result Halt Machine α)
        (.error (.fault f) m₁) := .fault m₁ rfl
    exact hnamed.trans (hxm (by rintro m ⟨⟩))
  | .error .outOfFuel m₁ => exact absurd (attach_of_outOfFuel hr) (hended m₁)

theorem attach_right {node : NodeRef} (h : Refines x y) : Refines x (Eval.attach node y) := by
  intro m hended
  have hxm := h m hended
  generalize x m = r at hxm
  generalize hs : y m = s at hxm
  cases hxm with
  | ok a m₁ =>
    rw [attach_of_ok hs]
    exact .ok a m₁
  | fault m₁ h =>
    rw [attach_of_fault hs]
    exact .fault m₁ h

theorem attach {node node' : NodeRef} (h : Refines x y) :
    Refines (Eval.attach node x) (Eval.attach node' y) := h.attach_left.attach_right

end Refines

section Fuel

variable {ctx : Context} {env : Env} {fuel fuel' : Nat}

theorem refines_of_le (hle : fuel ≤ fuel') (e : Expr) :
    Refines ((evaluator ctx fuel).expression env e) ((evaluator ctx fuel').expression env e) := by
  intro m hended
  rw [expression_of_le hle hended]
  exact .refl hended

end Fuel

end Eval

/-- One evaluator may be asked for an argument of a fact, another one for what it is changed to. -/
structure Eval.Replaces (sub sub' : Evaluator) (e e' : Expr) : Prop where
  unwrap : e'.unwrap = e.unwrap
  value : ∀ env, Refines (sub.expression env e) (sub'.expression env e')

/-- One evaluator may be asked for an argument of a unification, another one for what it is changed
to. A placeholder is not changed. -/
structure Eval.Interchanges (ctx : Context) (sub sub' : Evaluator) (e e' : Expr) : Prop where
  type : ctx.table.typeOf e'.mark = ctx.table.typeOf e.mark
  placeholder : e.placeholder?.isSome ∨ e'.placeholder?.isSome → e' = e
  value : ∀ env, Refines (sub.expression env e) (sub'.expression env e')

section Statements

variable {ctx : Context} {sub sub' : Evaluator} {env : Env}

theorem Eval.Replaces.ground {functor : String} {es es' : List Expr}
    (h : List.Forall₂ (Replaces sub sub') es es') :
    Refines (ground sub env functor es) (ground sub' env functor es') := by
  induction h with
  | nil => exact .refl _
  | @cons e e' es es' he h ih =>
    rw [Eval.ground, Eval.ground, he.unwrap]
    have hvalues : Refines
        (do
          let v ← sub.expression env e
          if v.kind = .void then raiseAt (.voidInFact functor) e.ref
          return v :: (← Eval.ground sub env functor es))
        (do
          let v ← sub'.expression env e'
          if v.kind = .void then raiseAt (.voidInFact functor) e'.ref
          return v :: (← Eval.ground sub' env functor es')) := by
      refine (he.value env).bind fun v => ?_
      dsimp only
      split
      · exact .raiseAt_bind
      · exact ih.bind fun vs => .refl _
    cases e.unwrap with
    | placeholder m name type => exact .raiseAt_bind
    | _ => exact hvalues

namespace Eval.Interchanges

variable {e e' l l' r r' : Expr}

theorem bindPlaceholder {m : Mark} {name : String} (h : Interchanges ctx sub sub' e e') :
    Refines (bindPlaceholder ctx sub env m name e) (bindPlaceholder ctx sub' env m name e') := by
  unfold Eval.bindPlaceholder
  rw [h.type]
  dsimp only
  split
  · exact (h.value env).bind fun v => .refl _
  · exact .raiseAt_bind

theorem matchValues (hl : Interchanges ctx sub sub' l l') (hr : Interchanges ctx sub sub' r r') :
    Refines (matchValues ctx sub env l r) (matchValues ctx sub' env l' r') := by
  unfold Eval.matchValues
  rw [hl.type, hr.type]
  dsimp only
  split
  · refine (hl.value env).bind fun v => (hr.value env).bind fun w => ?_
    split
    · exact .refl _
    · exact (Refines.refl _).bind fun s => (Refines.refl _).bind fun t => .raiseAt
  · exact .raiseAt_bind

theorem ne_placeholder (h : Interchanges ctx sub sub' e e')
    (he : ∀ m name type, e ≠ .placeholder m name type) (m : Mark) (name : String)
    (type : TypeExpr) : e' ≠ .placeholder m name type := by
  rintro rfl
  exact he m name type (h.placeholder (.inr rfl)).symm

/-- A position of a unification looks at its arguments as they are. -/
theorem unifyPosition (hl : Interchanges ctx sub sub' l l') (hr : Interchanges ctx sub sub' r r') :
    Refines (unifyPosition ctx sub env l r) (unifyPosition ctx sub' env l' r') := by
  by_cases hleft : ∃ m name type, l = .placeholder m name type
  · obtain ⟨m, name, type, rfl⟩ := hleft
    cases hl.placeholder (.inl rfl)
    by_cases hright : ∃ m name type, r = .placeholder m name type
    · obtain ⟨m', name', type', rfl⟩ := hright
      cases hr.placeholder (.inl rfl)
      exact .raiseAt
    · simp only [not_exists] at hright
      rw [Comparison.unifyPosition_left hright,
        Comparison.unifyPosition_left (hr.ne_placeholder hright)]
      exact hr.bindPlaceholder
  · simp only [not_exists] at hleft
    by_cases hright : ∃ m name type, r = .placeholder m name type
    · obtain ⟨m, name, type, rfl⟩ := hright
      cases hr.placeholder (.inl rfl)
      rw [Comparison.unifyPosition_right hleft,
        Comparison.unifyPosition_right (hl.ne_placeholder hleft)]
      exact hl.bindPlaceholder
    · simp only [not_exists] at hright
      rw [Comparison.unifyPosition_values hleft hright,
        Comparison.unifyPosition_values (hl.ne_placeholder hleft) (hr.ne_placeholder hright)]
      exact hl.matchValues hr

theorem unifyAll {ls ls' rs rs' : List Expr} (hl : List.Forall₂ (Interchanges ctx sub sub') ls ls')
    (hr : List.Forall₂ (Interchanges ctx sub sub') rs rs') :
    Refines (unifyAll ctx sub env ls rs) (unifyAll ctx sub' env ls' rs') := by
  induction hl generalizing rs rs' with
  | nil => exact .refl _
  | cons hl hls ih =>
    cases hr with
    | nil => exact .refl _
    | cons hr hrs => exact (hl.unifyPosition hr).bind fun _ => ih hrs

end Eval.Interchanges

theorem Stmt.Changes.refines {st st' : Stmt}
    (h : Stmt.Changes (Interchanges ctx sub sub') (Replaces sub sub') st st') :
    Refines (Eval.statement ctx sub env st) (Eval.statement ctx sub' env st') := by
  cases h with
  | unify m ml mr fl fr hl hr =>
    refine Refines.attach (Refines.bind ?_ fun _ => .refl _)
    unfold Eval.unify
    dsimp only
    rw [← hl.length_eq, ← hr.length_eq]
    split
    · exact .raiseAt_bind
    · split
      · exact .raiseAt_bind
      · exact Interchanges.unifyAll hl hr
  | fact m functor h =>
    exact Refines.attach (((Replaces.ground h).bind fun tuple => .refl _).bind fun _ => .refl _)

end Statements

section Evaluated

variable {ctx : Context} {sub : Evaluator} {env : Env} {e l r : Expr} {u : Unit}

/-- An expression is evaluated without a fault, in some machine. -/
def Eval.Evaluated (sub : Evaluator) (env : Env) (e : Expr) : Prop :=
  ∃ m v m', sub.expression env e m = .ok v m'

theorem Eval.evaluated_of_bindPlaceholder {mark : Mark} {name : String} {m m' : Machine}
    (h : bindPlaceholder ctx sub env mark name e m = .ok u m') : Evaluated sub env e := by
  unfold bindPlaceholder at h
  dsimp only at h
  split at h
  · obtain ⟨v, m₁, hv, -⟩ := ok_of_bind h
    exact ⟨m, v, m₁, hv⟩
  · cases h

theorem Eval.evaluated_of_matchValues {m m' : Machine}
    (h : matchValues ctx sub env l r m = .ok u m') : Evaluated sub env l ∧ Evaluated sub env r := by
  unfold matchValues at h
  dsimp only at h
  split at h
  · obtain ⟨v, m₁, hv, h⟩ := ok_of_bind h
    obtain ⟨w, m₂, hw, -⟩ := ok_of_bind h
    exact ⟨⟨m, v, m₁, hv⟩, m₁, w, m₂, hw⟩
  · cases h

theorem Eval.evaluated_of_unifyPosition {m m' : Machine}
    (h : unifyPosition ctx sub env l r m = .ok u m') (he : e = l ∨ e = r)
    (hvalue : e.placeholder? = none) : Evaluated sub env e := by
  unfold unifyPosition at h
  split at h
  · cases h
  · obtain rfl | rfl := he
    · cases hvalue
    · exact evaluated_of_bindPlaceholder h
  · obtain rfl | rfl := he
    · exact evaluated_of_bindPlaceholder h
    · cases hvalue
  · have hboth := evaluated_of_matchValues h
    obtain rfl | rfl := he
    · exact hboth.1
    · exact hboth.2

theorem Eval.evaluated_of_unifyAll {ls rs : List Expr} {m m' : Machine}
    (h : unifyAll ctx sub env ls rs m = .ok u m') (hlength : ls.length = rs.length)
    (he : e ∈ ls ∨ e ∈ rs) (hvalue : e.placeholder? = none) : Evaluated sub env e := by
  induction ls generalizing rs m with
  | nil =>
    cases rs with
    | nil => simp at he
    | cons r rs => cases hlength
  | cons l ls ih =>
    cases rs with
    | nil => cases hlength
    | cons r rs =>
      obtain ⟨u, m₁, hposition, hrest⟩ := ok_of_bind h
      by_cases hfirst : e = l ∨ e = r
      · exact evaluated_of_unifyPosition hposition hfirst hvalue
      · rw [not_or] at hfirst
        refine ih hrest (Nat.succ.inj hlength) ?_
        simpa [hfirst] using he

/-- A unification that succeeds has evaluated all its arguments but the placeholders. -/
theorem Eval.evaluated_of_unify {mark : Mark} {left right : PredicateCall} {m m' : Machine}
    (h : unify ctx sub env mark left right m = .ok u m')
    (he : e ∈ left.arguments ++ right.arguments) (hvalue : e.placeholder? = none) :
    Evaluated sub env e := by
  unfold unify at h
  split at h
  · cases h
  · split at h
    · cases h
    · exact evaluated_of_unifyAll h (not_not.mp ‹_›) (List.mem_append.mp he) hvalue

theorem Eval.not_evaluated {fuel : Nat} (h : e.unwrap.placeholder?.isSome) :
    ¬ Evaluated (evaluator ctx fuel) env e := by
  induction fuel generalizing e with
  | zero => rintro ⟨m, v, m', ⟨⟩⟩
  | succ fuel ih =>
    rintro ⟨m, v, m', hdone⟩
    change Eval.expression ctx (evaluator ctx fuel) env e m = _ at hdone
    cases e with
    | paren mark inner => exact ih (e := inner) h ⟨m, v, m', ok_of_attach hdone⟩
    | placeholder mark name type => cases ok_of_attach hdone
    | _ => cases h

theorem Stmt.not_ok_of_hidesPlaceholder {st : Stmt} (h : st.hidesPlaceholder = true)
    (fuel : Nat) (m : Machine) (done : Completion) (m' : Machine) :
    (evaluator ctx fuel).statement env st m ≠ .ok done m' := by
  intro hdone
  cases st with
  | unify mark left right =>
    obtain ⟨e, he, hhidden⟩ := List.any_eq_true.mp h
    rw [Expr.hidesPlaceholder, Bool.and_eq_true, Option.isNone_iff_eq_none] at hhidden
    cases fuel with
    | zero => cases hdone
    | succ fuel =>
      obtain ⟨u, m₁, hunify, -⟩ := ok_of_bind (ok_of_attach hdone)
      exact not_evaluated hhidden.2 (evaluated_of_unify hunify he hhidden.1)
  | _ => cases h

end Evaluated

section Wrapped

variable {ctx : Context} {env : Env} {e e' : Expr} {fuel fuel' : Nat}

theorem Expr.Strips.refines (h : e.Strips e') (hle : fuel ≤ fuel') :
    Refines ((evaluator ctx fuel).expression env e) ((evaluator ctx fuel').expression env e') := by
  induction h generalizing fuel with
  | refl e => exact refines_of_le hle e
  | paren m h ih =>
    cases fuel with
    | zero => exact fun _ hended => absurd rfl (hended _)
    | succ fuel => exact (ih (by omega)).attach_left

/-- With the parentheses an expression needs more fuel, one unit for each of them. -/
theorem Expr.Strips.refined (h : e.Strips e') (hle : fuel + e.wraps ≤ fuel') :
    Refines ((evaluator ctx fuel).expression env e') ((evaluator ctx fuel').expression env e) := by
  induction h generalizing fuel' with
  | refl e => exact refines_of_le (by omega) e
  | paren m h ih =>
    rw [Expr.wraps] at hle
    obtain ⟨n, rfl⟩ : ∃ n, fuel' = n + 1 := ⟨fuel' - 1, by omega⟩
    exact (ih (by omega)).attach_right

end Wrapped

/-- Whatever the first one ends with, the second one ends with, if it has enough fuel. -/
def Eval.Imitated (x y : Nat → Eval Completion) : Prop :=
  ∀ fuel, ∃ enough, ∀ fuel' ≥ enough, Refines (x fuel) (y fuel')

def Eval.SameEnds (x y : Nat → Eval Completion) : Prop := Imitated x y ∧ Imitated y x

namespace Program

variable {p : Program} {st st' : Stmt} {limit : Nat} {env : Env}

theorem typeOf_argument (hp : p.Numbered) (hst : .statement st ∈ p.nodes) {e e' : Expr}
    (he : e ∈ st.parts) (h : e.Strips e') :
    p.settled.table.typeOf e'.mark = p.settled.table.typeOf e.mark :=
  typeOf_strips hp h (nodes_inside hp hst rfl (Stmt.nodes_parts he (Expr.self_mem_nodes _)))

theorem refines_changed (hp : p.Numbered) (hst : .statement st ∈ p.nodes)
    (h : Stmt.Changes Expr.Loosens Expr.Strips st st') {fuel fuel' : Nat} (hle : fuel ≤ fuel') :
    Refines ((evaluator ⟨p.settled.table, limit⟩ fuel).statement env st)
      ((evaluator ⟨p.settled.table, limit⟩ fuel').statement env st') := by
  cases fuel with
  | zero => exact fun _ hended => absurd rfl (hended _)
  | succ fuel =>
    obtain ⟨n, rfl⟩ : ∃ n, fuel' = n + 1 := ⟨fuel' - 1, by omega⟩
    have hfuel : fuel ≤ n := by omega
    refine (h.imp (fun e he e' h => ?_) fun e he e' h => ?_).refines
    · exact ⟨typeOf_argument hp hst he h.strips, h.eq_of_placeholder,
        fun _ => h.strips.refines hfuel⟩
    · exact ⟨h.unwrap_eq, fun _ => h.refines hfuel⟩

/-- With the parentheses a statement needs more fuel, as much as there are around one argument. -/
theorem changed_refines (hp : p.Numbered) (hst : .statement st ∈ p.nodes)
    (h : Stmt.Changes Expr.Loosens Expr.Strips st st') {wraps fuel fuel' : Nat}
    (hwraps : ∀ e ∈ st.parts, e.wraps ≤ wraps) (hle : fuel + wraps ≤ fuel') :
    Refines ((evaluator ⟨p.settled.table, limit⟩ fuel).statement env st')
      ((evaluator ⟨p.settled.table, limit⟩ fuel').statement env st) := by
  cases fuel with
  | zero => exact fun _ hended => absurd rfl (hended _)
  | succ fuel =>
    obtain ⟨n, rfl⟩ : ∃ n, fuel' = n + 1 := ⟨fuel' - 1, by omega⟩
    have hfuel : ∀ e ∈ st.parts, fuel + e.wraps ≤ n := fun e he => by
      have := hwraps e he
      omega
    have hchanges : Stmt.Changes
        (fun e e' => Interchanges ⟨p.settled.table, limit⟩ (evaluator ⟨p.settled.table, limit⟩ fuel)
          (evaluator ⟨p.settled.table, limit⟩ n) e' e)
        (fun e e' => Replaces (evaluator ⟨p.settled.table, limit⟩ fuel)
          (evaluator ⟨p.settled.table, limit⟩ n) e' e) st st' := by
      refine h.imp (fun e he e' h => ?_) fun e he e' h => ?_
      · exact ⟨(typeOf_argument hp hst he h.strips).symm,
          fun hplaceholder => (h.eq_of_placeholder hplaceholder.symm).symm,
          fun _ => h.strips.refined (hfuel e he)⟩
      · exact ⟨h.unwrap_eq.symm, fun _ => h.refined (hfuel e he)⟩
    exact hchanges.flip.refines

/-- In every analysed program, every state and every frame, a unification or a fact has the same ends
(a success, or a fault of the same cause, and the same machine) if parentheses around its arguments are
taken away or put there; only for a placeholder of a unification it matters whether it is in
parentheses, and if it is, the unification never succeeds. -/
theorem argument_parentheses (hp : p.Numbered) (hst : .statement st ∈ p.nodes) (limit : Nat)
    (env : Env) :
    (∀ st', Stmt.Changes Expr.Loosens Expr.Strips st st' →
      SameEnds (fun fuel => (evaluator ⟨(analyze p).1, limit⟩ fuel).statement env st)
        fun fuel => (evaluator ⟨(analyze p).1, limit⟩ fuel).statement env st') ∧
    (st.hidesPlaceholder = true → ∀ fuel m done m',
      (evaluator ⟨(analyze p).1, limit⟩ fuel).statement env st m ≠ .ok done m') := by
  rw [analyze_eq]
  refine ⟨fun st' h => ⟨fun fuel => ⟨fuel, fun fuel' hle => ?_⟩, fun fuel => ?_⟩, ?_⟩
  · exact refines_changed hp hst h hle
  · have hwraps : ∀ e ∈ st.parts, e.wraps ≤ (st.parts.map Expr.wraps).max?.getD 0 := fun e he =>
      List.le_max?_getD_of_mem (List.mem_map_of_mem he)
    exact ⟨_, fun fuel' hle => changed_refines hp hst h hwraps hle⟩
  · exact fun h fuel m done m' => Stmt.not_ok_of_hidesPlaceholder h fuel m done m'

/-- `q((x: Int)) = q(1)` -/
def covered : Stmt :=
  .unify ⟨1, {}⟩ ⟨⟨2, {}⟩, "q", [.paren ⟨3, {}⟩ (.placeholder ⟨4, {}⟩ "x" (.simple ⟨5, {}⟩ "Int"))]⟩
    ⟨⟨6, {}⟩, "q", [.int ⟨7, {}⟩ 1]⟩

/-- `q(x: Int) = q(1)` -/
def uncovered : Stmt :=
  .unify ⟨1, {}⟩ ⟨⟨2, {}⟩, "q", [.placeholder ⟨4, {}⟩ "x" (.simple ⟨5, {}⟩ "Int")]⟩
    ⟨⟨6, {}⟩, "q", [.int ⟨7, {}⟩ 1]⟩

/-- `q((2)) = q(y: Int)` -/
def wrappedValue : Stmt :=
  .unify ⟨8, {}⟩ ⟨⟨9, {}⟩, "q", [.paren ⟨10, {}⟩ (.int ⟨11, {}⟩ 2)]⟩
    ⟨⟨12, {}⟩, "q", [.placeholder ⟨13, {}⟩ "y" (.simple ⟨14, {}⟩ "Int")]⟩

/-- `q(2) = q(y: Int)` -/
def unwrappedValue : Stmt :=
  .unify ⟨8, {}⟩ ⟨⟨9, {}⟩, "q", [.int ⟨11, {}⟩ 2]⟩
    ⟨⟨12, {}⟩, "q", [.placeholder ⟨13, {}⟩ "y" (.simple ⟨14, {}⟩ "Int")]⟩

def wrappedBoth : Program where
  mark := ⟨0, {}⟩
  statements := [wrappedValue, covered]

theorem wrappedBoth_ends :
    SameEnds
        (fun fuel => (evaluator ⟨(analyze wrappedBoth).1, 1⟩ fuel).statement [0] wrappedValue)
        (fun fuel => (evaluator ⟨(analyze wrappedBoth).1, 1⟩ fuel).statement [0] unwrappedValue) ∧
      ∀ fuel m done m',
        (evaluator ⟨(analyze wrappedBoth).1, 1⟩ fuel).statement [0] covered m ≠ .ok done m' := by
  have hnumbered : wrappedBoth.Numbered := by unfold Numbered Distinct; decide
  have hvalue : .statement wrappedValue ∈ wrappedBoth.nodes := by
    simp [wrappedBoth, nodes, Stmt.nodesOfList, Stmt.self_mem_nodes]
  have hcovered : .statement covered ∈ wrappedBoth.nodes := by
    simp [wrappedBoth, nodes, Stmt.nodesOfList, Stmt.self_mem_nodes]
  have hchanges : Stmt.Changes Expr.Loosens Expr.Strips wrappedValue unwrappedValue :=
    .unify _ _ _ _ _ (.cons ⟨.paren _ (.refl _), rfl⟩ .nil) (.cons ⟨.refl _, rfl⟩ .nil)
  exact ⟨(argument_parentheses hnumbered hvalue 1 [0]).1 _ hchanges,
    (argument_parentheses hnumbered hcovered 1 [0]).2 rfl⟩

def coveredOnly : Program := ⟨⟨0, {}⟩, [covered]⟩

def uncoveredOnly : Program := ⟨⟨0, {}⟩, [uncovered]⟩

/-- Two programs that are accepted differ by the parentheses around an argument of a unification; the
one ends with a fault and the other one succeeds. -/
theorem uncovered_succeeds :
    ¬ ∀ p q : Program, p.Numbered → q.Numbered → (analyze p).2 = [] → (analyze q).2 = [] →
      List.Forall₂ (Stmt.Changes Expr.Strips Expr.Strips) p.statements q.statements →
      ∀ limit fuel fuel', (p.run ⟨(analyze p).1, limit⟩ fuel).fault?.isSome = true →
        (q.run ⟨(analyze q).1, limit⟩ fuel').outcome.isOk = false := by
  intro h
  have hnumbered : coveredOnly.Numbered := by unfold Numbered Distinct; decide
  have hnumbered' : uncoveredOnly.Numbered := by unfold Numbered Distinct; decide
  have haccepted : (analyze coveredOnly).2 = [] := List.isEmpty_iff.mp (by decide +kernel)
  have haccepted' : (analyze uncoveredOnly).2 = [] := List.isEmpty_iff.mp (by decide +kernel)
  have hchanges : Stmt.Changes Expr.Strips Expr.Strips covered uncovered :=
    .unify _ _ _ _ _ (.cons (.paren _ (.refl _)) .nil) (.cons (.refl _) .nil)
  have hsucceeds : (uncoveredOnly.run ⟨(analyze uncoveredOnly).1, 1⟩ 9).outcome.isOk = true := by
    decide +kernel
  have hfaults : (coveredOnly.run ⟨(analyze coveredOnly).1, 1⟩ 9).fault?.isSome = true := by
    decide +kernel
  have hfails := h coveredOnly uncoveredOnly hnumbered hnumbered' haccepted haccepted'
    (.cons hchanges .nil) 1 9 9 hfaults
  rw [hsucceeds] at hfails
  cases hfails

end Program

end LogicScript
