import LogicScript.Proofs.Declarations
import LogicScript.Proofs.Literals

/-! What a unification of literals and placeholders does.

Its positions are matched from left to right, each one by itself. A placeholder takes the value
opposite to it, whatever stood opposite to a placeholder of that name before. -/
namespace LogicScript

open Eval

def Expr.isTerm : Expr → Bool
  | .placeholder _ _ _ => true
  | e => e.isLiteral

theorem Expr.isLiteral_of_isTerm {e : Expr} (h : e.isTerm = true)
    (hne : ∀ m name type, e ≠ .placeholder m name type) : e.isLiteral = true := by
  unfold isTerm at h
  split at h
  · exact absurd rfl (hne _ _ _)
  · exact h

/-- What the two sides of a unification have in one position. -/
inductive Position
  | unbound (mark : Mark) (left right : String)
  | binding (mark : Mark) (name : String) (opposite : Expr)
  | values (left right : Expr)

namespace Position

def of : Expr → Expr → Position
  | .placeholder m l _, .placeholder _ r _ => .unbound m l r
  | .placeholder m name _, e => .binding m name e
  | e, .placeholder m name _ => .binding m name e
  | l, r => .values l r

def evaluated : Position → List Expr
  | .unbound _ _ _ => []
  | .binding _ _ e => [e]
  | .values l r => [l, r]

/-- The kind of the fault that the position makes if it does not match. -/
def faultKind : Position → FaultKind
  | .unbound _ _ _ => .ambiguousUnification
  | .binding _ _ _ => .typeMismatch
  | .values _ _ => .unificationMismatch

/-- The position matches: a placeholder can take what stands opposite to it, or values of comparable
types are equal. -/
def Matches (ctx : Context) (m : Machine) : Position → Prop
  | .unbound _ _ _ => False
  | .binding mark _ e => (ctx.table.typeOf e.mark).assignable (ctx.table.typeOf mark) = true
  | .values l r => (ctx.table.typeOf l.mark).comparable (ctx.table.typeOf r.mark) = true ∧
    LiteralsEqual ctx m l r

instance (ctx : Context) (m : Machine) (q : Position) : Decidable (q.Matches ctx m) :=
  match q with
  | .unbound _ _ _ => inferInstanceAs (Decidable False)
  | .binding _ _ _ => inferInstanceAs (Decidable (_ = true))
  | .values _ _ => inferInstanceAs (Decidable (_ = true ∧ _))

/-- The name that is bound in the position, and the value that it gets. -/
def write? (ctx : Context) (m : Machine) : Position → Option (String × Value)
  | .binding mark name e => some (name, (literal ctx e m).1.widen (ctx.table.typeOf mark))
  | _ => none

/-- The placeholder belongs to the first scope, and what is evaluated is a literal. -/
def Plain (ctx : Context) (q : Position) : Prop :=
  (∀ e ∈ q.evaluated, e.isLiteral = true) ∧
    ∀ mark name e, q = .binding mark name e → (ctx.table.attributes mark.id).scope = some 0

end Position

/-- The positions of a unification, from left to right. -/
def positions (left right : PredicateCall) : List Position :=
  List.zipWith .of left.arguments right.arguments

namespace Machine

/-- A chain of frames ends in the root frame, which is the only one of the first scope there. -/
structure EndsInRoot (m : Machine) (env : Env) (root : FrameId) : Prop where
  last : env.getLast? = some root
  there : root < m.frames.size
  scope : ∀ f ∈ env, (m.frame f).scope = 0 ↔ f = root

/-- The placeholder of a position is bound in the root frame. -/
def bindPosition (ctx : Context) (root : FrameId) (m : Machine) : Position → Machine
  | .binding mark name e =>
    let (v, m₁) := literal ctx e m
    let m₂ := m₁.define root name (v.widen (ctx.table.typeOf mark))
    m₂.log (.bound name (m₂.display v))
  | _ => m

/-- The placeholders of some positions are bound in the root frame, one after the other. -/
def bindPositions (ctx : Context) (root : FrameId) (m : Machine) (qs : List Position) : Machine :=
  qs.foldl (bindPosition ctx root) m

variable {m m' : Machine} {env : Env} {root : FrameId}

theorem EndsInRoot.frameOf? (h : m.EndsInRoot env root) : m.frameOf? env 0 = some root := by
  have hmem := List.mem_of_getLast? h.last
  have hroot := (h.scope root hmem).mpr rfl
  unfold Machine.frameOf?
  cases hfind : env.find? fun f => (m.frame f).scope == 0 with
  | none => exact absurd hroot (by simpa using List.find?_eq_none.mp hfind root hmem)
  | some f =>
    have hscope : (m.frame f).scope = 0 := by simpa using List.find?_some hfind
    rw [(h.scope f (List.mem_of_find?_eq_some hfind)).mp hscope]

theorem EndsInRoot.mono (h : m.EndsInRoot env root) (hsize : m'.frames.size = m.frames.size)
    (hscope : ∀ f, (m'.frame f).scope = (m.frame f).scope) : m'.EndsInRoot env root where
  last := h.last
  there := hsize ▸ h.there
  scope f hf := by rw [hscope f]; exact h.scope f hf

theorem EndsInRoot.allocates (h : m.EndsInRoot env root) (hm : m.Allocates m') :
    m'.EndsInRoot env root :=
  h.mono (congrArg Array.size hm.frames) fun f => congrArg Frame.scope (hm.frame f)

theorem EndsInRoot.bindPosition (ctx : Context) (h : m.EndsInRoot env root) (q : Position) :
    (m.bindPosition ctx root q).EndsInRoot env root := by
  cases q with
  | binding mark name e =>
    exact (h.allocates (literal_allocates ctx e m)).mono (size_define ..) fun f => scope_define ..
  | _ => exact h

theorem EndsInRoot.bindPositions (ctx : Context) (h : m.EndsInRoot env root) (qs : List Position) :
    (m.bindPositions ctx root qs).EndsInRoot env root := by
  induction qs generalizing m with
  | nil => exact h
  | cons q qs ih => exact ih (h.bindPosition ctx q)

section Root

variable {ctx : Context} {q : Position} {name : String} {v : Value}

theorem bindings_bindPosition {mark : Mark} {other : String} {e : Expr}
    (hroot : root < m.frames.size) :
    ((m.bindPosition ctx root (.binding mark other e)).frame root).bindings =
      (m.frame root).bindings.set other ((literal ctx e m).1.widen (ctx.table.typeOf mark)) := by
  have hm := literal_allocates ctx e m
  show (((literal ctx e m).2.define root other
    ((literal ctx e m).1.widen (ctx.table.typeOf mark))).frame root).bindings = _
  rw [define, frame_updateFrame, if_pos ⟨rfl, hm.frames ▸ hroot⟩, hm.frame]

theorem get?_bindPosition (hroot : root < m.frames.size) (h : q.write? ctx m = some (name, v)) :
    ((m.bindPosition ctx root q).frame root).bindings.get? name = some v := by
  cases q with
  | binding mark other e =>
    cases h
    rw [bindings_bindPosition hroot, Bindings.get?_set_self]
  | _ => cases h

/-- A name keeps its value if each position that is for it gives it the same value again. -/
theorem get?_bindPositions {qs : List Position} (hm : m.EndsInRoot env root)
    (hv : (m.frame root).bindings.get? name = some v)
    (hsame : ∀ before r after w, qs = before ++ r :: after →
      r.write? ctx (m.bindPositions ctx root before) = some (name, w) → w = v) :
    ((m.bindPositions ctx root qs).frame root).bindings.get? name = some v := by
  induction qs generalizing m with
  | nil => exact hv
  | cons q qs ih =>
    refine ih (hm.bindPosition ctx q) ?_ fun before r after w heq hw =>
      hsame (q :: before) r after w (congrArg (q :: ·) heq) hw
    cases q with
    | binding mark other e =>
      by_cases hname : other = name
      · subst hname
        rw [bindings_bindPosition hm.there, Bindings.get?_set_self]
        exact congrArg some (hsame [] _ qs _ rfl rfl)
      · rw [bindings_bindPosition hm.there, Bindings.get?_set_ne _ _ (Ne.symm hname), hv]
    | _ => exact hv

end Root

end Machine

namespace Position

variable {ctx : Context} {l r : Expr}

/-- Whether a position matches does not depend on the machine. -/
theorem matches_iff {q : Position} (hq : ∀ e ∈ q.evaluated, e.isLiteral = true) (m m' : Machine) :
    q.Matches ctx m ↔ q.Matches ctx m' := by
  cases q with
  | unbound => exact Iff.rfl
  | binding => exact Iff.rfl
  | values l r =>
    exact and_congr_right fun _ => literalsEqual_iff (hq l (by simp [evaluated]))
      (hq r (by simp [evaluated])) m m'

end Position

namespace Eval

variable {ctx : Context} {m : Machine} {env : Env} {root : FrameId} {sub : Evaluator}
  {mark : Mark} {name : String} {e l r : Expr}

theorem unifyPosition_of (sub : Evaluator) (l r : Expr) : unifyPosition ctx sub env l r =
    match Position.of l r with
    | .unbound mark left right => raiseAt (.bothUnbound left right) ⟨.unboundParameter, mark⟩
    | .binding mark name e => bindPlaceholder ctx sub env mark name e
    | .values l r => matchValues ctx sub env l r := by
  unfold unifyPosition Position.of
  split <;> simp_all

theorem bindPlaceholder_ok (hm : m.EndsInRoot env root) (he : e.isLiteral = true)
    (hscope : (ctx.table.attributes mark.id).scope = some 0)
    (h : (ctx.table.typeOf e.mark).assignable (ctx.table.typeOf mark) = true) :
    Eventually ctx (fun sub => bindPlaceholder ctx sub env mark name e) m
      (.ok () (m.bindPosition ctx root (.binding mark name e))) := by
  have hstep : ∀ sub, bindPlaceholder ctx sub env mark name e = (sub.expression env e >>= fun v =>
      writeAt ctx env ⟨.unboundParameter, mark⟩ name v (ctx.table.typeOf mark) >>= fun _ =>
        display v >>= fun text => log (.bound name text)) := by
    intro sub
    simp only [bindPlaceholder, h]
    rfl
  simp only [hstep]
  refine (expression_literal e m he).bind_ok ?_
  have hframe := (hm.allocates (literal_allocates ctx e m)).frameOf?
  have hwrite : writeAt ctx env ⟨.unboundParameter, mark⟩ name (literal ctx e m).1
      (ctx.table.typeOf mark) (literal ctx e m).2 = .ok () ((literal ctx e m).2.define root name
        ((literal ctx e m).1.widen (ctx.table.typeOf mark))) := by
    have hfiled : scopeOf ctx ⟨.unboundParameter, mark⟩ (literal ctx e m).2 =
        .ok 0 (literal ctx e m).2 := by
      simp only [scopeOf, hscope]
      rfl
    refine (bind_of_ok hfiled).trans ?_
    rw [write_apply, Machine.write, Machine.slot, hframe]
    rfl
  have hdisplay : display (literal ctx e m).1 ((literal ctx e m).2.define root name
      ((literal ctx e m).1.widen (ctx.table.typeOf mark))) = .ok _ _ :=
    display_of_isSome (text?_literal ctx e m)
  exact .of_forall fun _ => (bind_of_ok hwrite).trans (bind_of_ok hdisplay)

theorem bindPlaceholder_fault
    (h : ¬ (ctx.table.typeOf e.mark).assignable (ctx.table.typeOf mark) = true) :
    bindPlaceholder ctx sub env mark name e m = .error (.fault ⟨.notBindable name
      (ctx.table.typeOf mark).name (ctx.table.typeOf e.mark).name,
      some ⟨.unboundParameter, mark⟩⟩) m := by
  simp only [bindPlaceholder, h]
  rfl

theorem matchValues_incomparable
    (h : ¬ (ctx.table.typeOf l.mark).comparable (ctx.table.typeOf r.mark) = true) :
    matchValues ctx sub env l r m = .error (.fault ⟨.incomparable (ctx.table.typeOf l.mark).name
      (ctx.table.typeOf r.mark).name, some r.ref⟩) m := by
  simp only [matchValues, h]
  rfl

theorem matchValues_of_comparable
    (h : (ctx.table.typeOf l.mark).comparable (ctx.table.typeOf r.mark) = true) :
    matchValues ctx sub env l r =
      (sub.expression env l >>= fun v => sub.expression env r >>= fun w =>
        if v.numericEqual w then pure () else display v >>= fun left => display w >>= fun right =>
          raiseAt (.valuesDiffer left right) r.ref) := by
  simp only [matchValues, h]
  rfl

/-- Two literals of comparable types are evaluated, and their values are compared. -/
theorem matchValues_literals (m : Machine) (env : Env) (hl : l.isLiteral = true)
    (hr : r.isLiteral = true)
    (h : (ctx.table.typeOf l.mark).comparable (ctx.table.typeOf r.mark) = true) :
    Eventually ctx (fun sub => matchValues ctx sub env l r) m
      (let (v, m₁) := literal ctx l m
      let (w, m₂) := literal ctx r m₁
      if v.numericEqual w then .ok () m₂
      else .error (.fault ⟨.valuesDiffer (m₂.display v) (m₂.display w), some r.ref⟩) m₂) := by
  simp only [matchValues_of_comparable h]
  refine (expression_literal l m hl).bind_ok ((expression_literal r _ hr).bind_ok ?_)
  refine .of_forall fun _ => ?_
  split
  · rfl
  · have hleft := text?_after_literal ctx r (text?_literal ctx l m)
    have hright := text?_literal ctx r (literal ctx l m).2
    exact (bind_of_ok (display_of_isSome hleft)).trans (bind_of_ok (display_of_isSome hright))

/-- A position that matches binds its placeholder, and does nothing else. -/
theorem unifyPosition_ok (hm : m.EndsInRoot env root) (hq : (Position.of l r).Plain ctx)
    (h : (Position.of l r).Matches ctx m) :
    Eventually ctx (fun sub => unifyPosition ctx sub env l r) m
      (.ok () (m.bindPosition ctx root (.of l r))) := by
  simp only [unifyPosition_of]
  obtain ⟨hliteral, hscope⟩ := hq
  cases hof : Position.of l r with
  | unbound mark left right => exact (hof ▸ h).elim
  | binding mark name e =>
    rw [hof] at h hliteral
    have he := hliteral e (by simp [Position.evaluated])
    exact bindPlaceholder_ok hm he (hscope mark name e hof) h
  | values left right =>
    rw [hof] at h hliteral
    have hleft := hliteral left (by simp [Position.evaluated])
    have hright := hliteral right (by simp [Position.evaluated])
    have hcompared := matchValues_literals m env hleft hright h.1
    have hequal := h.2
    unfold LiteralsEqual at hequal
    dsimp only at hcompared
    rwa [if_pos hequal, h.2.machine_eq hleft hright] at hcompared

/-- A position that does not match makes its fault, and binds nothing. -/
theorem unifyPosition_fault (env : Env) (hq : ∀ e ∈ (Position.of l r).evaluated, e.isLiteral = true)
    (h : ¬ (Position.of l r).Matches ctx m) :
    ∃ f m', Eventually ctx (fun sub => unifyPosition ctx sub env l r) m (.error (.fault f) m') ∧
      f.kind = (Position.of l r).faultKind ∧ m.Allocates m' := by
  simp only [unifyPosition_of]
  cases hof : Position.of l r with
  | unbound mark left right => exact ⟨_, m, .of_forall fun _ => rfl, rfl, .refl m⟩
  | binding mark name e =>
    rw [hof] at h
    exact ⟨_, m, .of_forall fun _ => bindPlaceholder_fault h, rfl, .refl m⟩
  | values left right =>
    rw [hof] at h hq
    by_cases hcomparable :
        (ctx.table.typeOf left.mark).comparable (ctx.table.typeOf right.mark) = true
    · have hdiffer : ¬ LiteralsEqual ctx m left right := fun hequal => h ⟨hcomparable, hequal⟩
      have hleft := hq left (by simp [Position.evaluated])
      have hright := hq right (by simp [Position.evaluated])
      have hcompared := matchValues_literals m env hleft hright hcomparable
      unfold LiteralsEqual at hdiffer
      dsimp only at hcompared
      rw [if_neg hdiffer] at hcompared
      exact ⟨_, _, hcompared, rfl,
        (literal_allocates ctx left m).trans (literal_allocates ctx right _)⟩
    · exact ⟨_, m, .of_forall fun _ => matchValues_incomparable hcomparable, rfl, .refl m⟩

theorem unifyAll_ok {ls rs : List Expr} (hm : m.EndsInRoot env root)
    (hplain : ∀ q ∈ List.zipWith Position.of ls rs, q.Plain ctx)
    (h : ∀ q ∈ List.zipWith Position.of ls rs, q.Matches ctx m) :
    Eventually ctx (fun sub => unifyAll ctx sub env ls rs) m
      (.ok () (m.bindPositions ctx root (List.zipWith .of ls rs))) := by
  induction ls generalizing rs m with
  | nil => exact .of_forall fun _ => rfl
  | cons l ls ih =>
    cases rs with
    | nil => exact .of_forall fun _ => rfl
    | cons r rs =>
      simp only [List.zipWith_cons_cons, List.mem_cons, forall_eq_or_imp] at hplain h
      refine (unifyPosition_ok hm hplain.1 h.1).bind_ok (ih (hm.bindPosition ctx _) hplain.2 ?_)
      exact fun q hq => (Position.matches_iff (hplain.2 q hq).1 m _).mp (h.2 q hq)

/-- The first position that does not match makes its fault, when the placeholders of the positions
before it are bound. -/
theorem unifyAll_fault {ls rs : List Expr} {before after : List Position} {q : Position}
    (hm : m.EndsInRoot env root)
    (hplain : ∀ q ∈ List.zipWith Position.of ls rs, q.Plain ctx)
    (heq : List.zipWith Position.of ls rs = before ++ q :: after)
    (hbefore : ∀ r ∈ before, r.Matches ctx m) (hq : ¬ q.Matches ctx m) :
    ∃ f m', Eventually ctx (fun sub => unifyAll ctx sub env ls rs) m (.error (.fault f) m') ∧
      f.kind = q.faultKind ∧ (m.bindPositions ctx root before).Allocates m' := by
  induction ls generalizing rs m before with
  | nil => simp at heq
  | cons l ls ih =>
    cases rs with
    | nil => simp at heq
    | cons r rs =>
      simp only [List.zipWith_cons_cons, List.mem_cons, forall_eq_or_imp] at hplain heq
      cases before with
      | nil =>
        -- It is the first position, so the loop stops here.
        cases heq
        obtain ⟨f, m', hfault, hkind, hm'⟩ := unifyPosition_fault env hplain.1.1 hq
        exact ⟨f, m', hfault.bind_error, hkind, hm'⟩
      | cons q' before =>
        obtain ⟨rfl, hrest⟩ := List.cons.inj (heq.trans (List.cons_append ..))
        simp only [List.mem_cons, forall_eq_or_imp] at hbefore
        have hplain' : ∀ q' ∈ before ++ q :: after, q'.Plain ctx := by
          rw [← hrest]
          exact hplain.2
        have hstep := unifyPosition_ok hm hplain.1 hbefore.1
        -- What the head binds decides nothing about the positions that follow.
        have hindependent : ∀ q' ∈ before ++ q :: after, q'.Matches ctx m ↔
            q'.Matches ctx (m.bindPosition ctx root (.of l r)) :=
          fun q' hq' => Position.matches_iff (hplain' q' hq').1 m _
        obtain ⟨f, m', hfault, hkind, hm'⟩ := ih (hm.bindPosition ctx _) hplain.2 hrest
          (fun r hr => (hindependent r (by simp [hr])).mp (hbefore.2 r hr))
          (mt (hindependent q (by simp)).mpr hq)
        exact ⟨f, m', hstep.bind_ok hfault, hkind, hm'⟩

section Sides

variable {left right : PredicateCall}

theorem Eventually.unify {result : EStateM.Result Halt Machine Unit}
    (h : Eventually ctx (fun sub => Eval.unify ctx sub env mark left right) m result) :
    (∀ m', result = .ok () m' → Eventually ctx
      (fun sub => sub.statement env (.unify mark left right)) m (.ok .normal m')) ∧
    (∀ f m', result = .error (.fault f) m' → Eventually ctx
      (fun sub => sub.statement env (.unify mark left right)) m
        (.error (.fault (f.attach ⟨.unification, mark⟩)) m')) ∧
    ∀ m', result = .error .outOfFuel m' → Eventually ctx
      (fun sub => sub.statement env (.unify mark left right)) m (.error .outOfFuel m') := by
  obtain ⟨n, hn⟩ := h
  have hstep : ∀ {done : EStateM.Result Halt Machine Completion},
      (∀ fuel, n ≤ fuel → Eval.statement ctx (evaluator ctx fuel) env (.unify mark left right) m =
        done) → Eventually ctx (fun sub => sub.statement env (.unify mark left right)) m done := by
    intro done hdone
    refine ⟨n + 1, fun fuel hfuel => ?_⟩
    obtain ⟨k, rfl⟩ : ∃ k, fuel = k + 1 := ⟨fuel - 1, by omega⟩
    exact hdone k (by omega)
  refine ⟨?_, ?_, ?_⟩
  · rintro m' rfl
    exact hstep fun fuel hfuel => attach_of_ok (bind_of_ok (hn fuel hfuel))
  · rintro f m' rfl
    exact hstep fun fuel hfuel => attach_of_fault (bind_of_error (hn fuel hfuel))
  · rintro m' rfl
    exact hstep fun fuel hfuel => attach_of_outOfFuel (bind_of_error (hn fuel hfuel))

theorem unify_functors (ctx : Context) (m : Machine) (env : Env) (mark : Mark)
    (h : left.functor ≠ right.functor) :
    Eventually ctx (fun sub => sub.statement env (.unify mark left right)) m (.error (.fault
      ⟨.functorsDiffer left.functor right.functor, some ⟨.unification, mark⟩⟩) m) :=
  (Eventually.unify (.of_forall fun _ => congrFun (if_pos h) m)).2.1 _ m rfl

theorem unify_arities (ctx : Context) (m : Machine) (env : Env) (mark : Mark)
    (hfunctor : left.functor = right.functor)
    (h : left.arguments.length ≠ right.arguments.length) :
    Eventually ctx (fun sub => sub.statement env (.unify mark left right)) m (.error (.fault
      ⟨.aritiesDiffer left.functor left.arguments.length right.arguments.length,
        some ⟨.unification, mark⟩⟩) m) :=
  (Eventually.unify (.of_forall fun _ =>
    congrFun ((if_neg (not_not_intro hfunctor)).trans (if_pos h)) m)).2.1 _ m rfl

theorem unify_alike (ctx : Context) (sub : Evaluator) (env : Env) (mark : Mark)
    (hfunctor : left.functor = right.functor)
    (h : left.arguments.length = right.arguments.length) :
    Eval.unify ctx sub env mark left right =
      unifyAll ctx sub env left.arguments right.arguments :=
  (if_neg (not_not_intro hfunctor)).trans (if_neg (not_not_intro h))

end Sides

end Eval

namespace Position

variable {ctx : Context} {m : Machine} {root : FrameId} {qs before after : List Position}
  {q : Position} {l r e : Expr} {mark : Mark} {name : String}

structure Decides (ctx : Context) (root : FrameId) (m : Machine) (qs : List Position)
    (result : EStateM.Result Halt Machine Completion) : Prop where
  ok_iff : (∃ done m', result = .ok done m') ↔ ∀ q ∈ qs, q.Matches ctx m
  ok : (∀ q ∈ qs, q.Matches ctx m) → result = .ok .normal (m.bindPositions ctx root qs)
  fault : ∀ before q after, qs = before ++ q :: after → (∀ r ∈ before, r.Matches ctx m) →
    ¬ q.Matches ctx m → ∃ f m', result = .error (.fault f) m' ∧ f.kind = q.faultKind ∧
      (m.bindPositions ctx root before).Allocates m'

theorem all_or_first (ctx : Context) (m : Machine) (qs : List Position) :
    (∀ q ∈ qs, q.Matches ctx m) ∨ ∃ before q after, qs = before ++ q :: after ∧
      (∀ r ∈ before, r.Matches ctx m) ∧ ¬ q.Matches ctx m := by
  cases hfind : qs.find? fun q => ¬ q.Matches ctx m with
  | none => exact .inl (by simpa using hfind)
  | some q =>
    obtain ⟨hq, before, after, heq, hbefore⟩ := List.find?_eq_some_iff_append.mp hfind
    exact .inr ⟨before, q, after, heq, by simpa using hbefore, by simpa using hq⟩

theorem of_evaluated (hl : l.isTerm = true) (hr : r.isTerm = true) :
    ∀ e ∈ (Position.of l r).evaluated, e.isLiteral = true := by
  unfold Position.of
  split
  · simp [evaluated]
  · rename_i hne
    simpa [evaluated] using Expr.isLiteral_of_isTerm hr fun m name type => hne m name type
  · rename_i hne
    simpa [evaluated] using Expr.isLiteral_of_isTerm hl fun m name type => hne m name type
  · rename_i hleft hright _
    simpa [evaluated] using ⟨Expr.isLiteral_of_isTerm hl fun m name type => hleft m name type,
      Expr.isLiteral_of_isTerm hr fun m name type => hright m name type⟩

theorem of_eq_binding (h : Position.of l r = .binding mark name e) :
    ∃ type, l = .placeholder mark name type ∨ r = .placeholder mark name type := by
  unfold Position.of at h
  split at h
  · cases h
  · cases h
    exact ⟨_, .inl rfl⟩
  · cases h
    exact ⟨_, .inr rfl⟩
  · cases h

end Position

open Position

namespace Program

variable {p : Program} {mark : Mark} {left right : PredicateCall} {limit : Nat} {m : Machine}
  {env : Env} {root : FrameId}

/-- The positions of a unification of literals and placeholders that is part of a program. -/
theorem positions_plain (hp : p.Numbered) (h : .statement (.unify mark left right) ∈ p.nodes)
    (hleft : ∀ e ∈ left.arguments, e.isTerm = true)
    (hright : ∀ e ∈ right.arguments, e.isTerm = true) (limit : Nat) :
    ∀ q ∈ positions left right, q.Plain ⟨(analyze p).1, limit⟩ := by
  intro q hq
  obtain ⟨l, hl, r, hr, rfl⟩ :
      ∃ l ∈ left.arguments, ∃ r ∈ right.arguments, Position.of l r = q := by
    unfold positions at hq
    rw [← List.map_uncurry_zip_eq_zipWith, List.mem_map] at hq
    obtain ⟨⟨l, r⟩, hmem, rfl⟩ := hq
    exact ⟨l, (List.of_mem_zip hmem).1, r, (List.of_mem_zip hmem).2, rfl⟩
  refine ⟨of_evaluated (hleft l hl) (hright r hr), fun mark name e hof => ?_⟩
  obtain ⟨type, hplaceholder⟩ := of_eq_binding hof
  have harguments : .placeholder mark name type ∈ left.arguments ++ right.arguments := by
    rcases hplaceholder with rfl | rfl
    · exact List.mem_append_left _ hl
    · exact List.mem_append_right _ hr
  rw [analyze_eq]
  exact placeholder_filed hp (nodes_inside hp h rfl (Stmt.nodes_parts harguments
    (Expr.self_mem_nodes _)))

theorem positions_decide {ctx : Context} (mark : Mark) (hm : m.EndsInRoot env root)
    (hplain : ∀ q ∈ positions left right, q.Plain ctx) (hfunctor : left.functor = right.functor)
    (harity : left.arguments.length = right.arguments.length) :
    ∃ result, Eventually ctx (fun sub => sub.statement env (.unify mark left right)) m result ∧
      Decides ctx root m (positions left right) result := by
  have hall : ∀ {result}, Eventually ctx (fun sub =>
      unifyAll ctx sub env left.arguments right.arguments) m result →
      Eventually ctx (fun sub => Eval.unify ctx sub env mark left right) m result := by
    intro result hresult
    simp only [fun sub => unify_alike ctx sub env mark hfunctor harity]
    exact hresult
  have hok : (∀ q ∈ positions left right, q.Matches ctx m) → Eventually ctx
      (fun sub => sub.statement env (.unify mark left right)) m
      (.ok .normal (m.bindPositions ctx root (positions left right))) :=
    fun hmatch => (Eventually.unify (hall (unifyAll_ok hm hplain hmatch))).1 _ rfl
  have hfault : ∀ before q after, positions left right = before ++ q :: after →
      (∀ r ∈ before, r.Matches ctx m) → ¬ q.Matches ctx m → ∃ f m', Eventually ctx
        (fun sub => sub.statement env (.unify mark left right)) m (.error (.fault f) m') ∧
        f.kind = q.faultKind ∧ (m.bindPositions ctx root before).Allocates m' := by
    intro before q after heq hbefore hq
    obtain ⟨f, m', hfault, hkind, hm'⟩ := unifyAll_fault hm hplain heq hbefore hq
    exact ⟨_, m', (Eventually.unify (hall hfault)).2.1 f m' rfl, hkind, hm'⟩
  rcases all_or_first ctx m (positions left right)
    with hmatch | ⟨before, q, after, heq, hbefore, hq⟩
  · refine ⟨_, hok hmatch, iff_of_true ⟨_, _, rfl⟩ hmatch, fun _ => rfl, ?_⟩
    intro before q after heq _ hq
    exact absurd (hmatch q (by simp [heq])) hq
  · obtain ⟨f, m', hresult, -, -⟩ := hfault before q after heq hbefore hq
    have hmatch : ¬ ∀ q ∈ positions left right, q.Matches ctx m :=
      fun hmatch => hq (hmatch q (by simp [heq]))
    refine ⟨_, hresult, iff_of_false (by simp) hmatch, fun h => absurd h hmatch, ?_⟩
    intro before' q' after' heq' hbefore' hq'
    obtain ⟨f', m'', hresult', hkind, hm'⟩ := hfault before' q' after' heq' hbefore' hq'
    exact ⟨f', m'', hresult.unique hresult', hkind, hm'⟩

/-- A unification of literals and placeholders faults without binding anything if the functors or
the numbers of arguments differ. Otherwise it comes to its end if and only if all positions match,
and has then bound the placeholders from left to right; or it faults as the first position does that
does not match, and has bound the placeholders of the positions before. -/
theorem unify_decides (hp : p.Numbered) (h : .statement (.unify mark left right) ∈ p.nodes)
    (hleft : ∀ e ∈ left.arguments, e.isTerm = true)
    (hright : ∀ e ∈ right.arguments, e.isTerm = true) (limit : Nat)
    (hm : m.EndsInRoot env root) :
    ∃ result, Eventually ⟨(analyze p).1, limit⟩
        (fun sub => sub.statement env (.unify mark left right)) m result ∧
      (left.functor ≠ right.functor →
        ∃ f, result = .error (.fault f) m ∧ f.kind = .unificationMismatch) ∧
      (left.functor = right.functor → left.arguments.length ≠ right.arguments.length →
        ∃ f, result = .error (.fault f) m ∧ f.kind = .arityMismatch) ∧
      (left.functor = right.functor → left.arguments.length = right.arguments.length →
        Decides ⟨(analyze p).1, limit⟩ root m (positions left right) result) := by
  have hplain := positions_plain hp h hleft hright limit
  generalize (⟨(analyze p).1, limit⟩ : Context) = ctx at hplain ⊢
  by_cases hfunctor : left.functor = right.functor
  · by_cases harity : left.arguments.length = right.arguments.length
    · obtain ⟨result, hresult, hdecides⟩ := positions_decide mark hm hplain hfunctor harity
      exact ⟨result, hresult, fun hne => absurd hfunctor hne, fun _ hne => absurd harity hne,
        fun _ _ => hdecides⟩
    · exact ⟨_, unify_arities ctx m env mark hfunctor harity, fun hne => absurd hfunctor hne,
        fun _ _ => ⟨_, rfl, rfl⟩, fun _ heq => absurd heq harity⟩
  · exact ⟨_, unify_functors ctx m env mark hfunctor, fun _ => ⟨_, rfl, rfl⟩,
      fun heq => absurd heq hfunctor, fun heq => absurd heq hfunctor⟩

/-- The two sides of `dog(a: Float, 1, b: Int) = dog(4, 2, 5)`. -/
def halfwayLeft : PredicateCall :=
  ⟨⟨3, {}⟩, "dog", [.placeholder ⟨4, {}⟩ "a" (.simple ⟨5, {}⟩ "Float"), .int ⟨6, {}⟩ 1,
    .placeholder ⟨7, {}⟩ "b" (.simple ⟨8, {}⟩ "Int")]⟩

def halfwayRight : PredicateCall :=
  ⟨⟨9, {}⟩, "dog", [.int ⟨10, {}⟩ 4, .int ⟨11, {}⟩ 2, .int ⟨12, {}⟩ 5]⟩

def halfway : Program where
  mark := ⟨0, {}⟩
  statements := [.block ⟨⟨1, {}⟩, [.unify ⟨2, {}⟩ halfwayLeft halfwayRight]⟩]

def halfwayMachine : Machine := ((({} : Machine).push 0).2.push 1).2

/-- The first placeholder is bound to a Float in the root frame, and the second one is not bound. -/
theorem halfway_decides : ∃ f m', Eventually ⟨(analyze halfway).1, 1⟩
    (fun sub => sub.statement [1, 0] (.unify ⟨2, {}⟩ halfwayLeft halfwayRight)) halfwayMachine
      (.error (.fault f) m') ∧ f.kind = .unificationMismatch ∧
    (m'.frame 0).bindings.names = ["a"] ∧
    ((m'.frame 0).bindings.get? "a").any (·.equal (.float (Binary64.ofInt 4))) = true := by
  have hnumbered : halfway.Numbered := by unfold Numbered Distinct; decide
  have hmem : .statement (.unify ⟨2, {}⟩ halfwayLeft halfwayRight) ∈ halfway.nodes := by
    simp [halfway, Program.nodes, Stmt.nodesOfList, Stmt.nodes]
  have hroot : halfwayMachine.EndsInRoot [1, 0] 0 := ⟨rfl, by decide, by decide⟩
  obtain ⟨result, hresult, -, -, hdecides⟩ :=
    unify_decides hnumbered hmem (by decide) (by decide) 1 hroot
  obtain ⟨f, m', rfl, hkind, hm'⟩ := (hdecides rfl rfl).fault [_] _ [_] rfl
    (by decide +kernel) (by decide +kernel)
  refine ⟨f, m', hresult, hkind, ?_⟩
  rw [hm'.frame]
  decide +kernel

/-- A unification that comes to its end has two sides with the same functor and as many
arguments. -/
theorem alike_of_ok {ctx : Context} {done : Completion} {m' : Machine}
    (h : Eventually ctx (fun sub => sub.statement env (.unify mark left right)) m (.ok done m')) :
    left.functor = right.functor ∧ left.arguments.length = right.arguments.length := by
  have hfunctor : left.functor = right.functor := by
    by_contra hne
    cases h.unique (unify_functors ctx m env mark hne)
  refine ⟨hfunctor, ?_⟩
  by_contra hne
  cases h.unique (unify_arities ctx m env mark hfunctor hne)

/-- If a unification of literals and placeholders comes to its end, the values are equal wherever
there is no placeholder, and a placeholder is bound to the value opposite to it, unless a later
position has given another value to that name. -/
theorem unify_binds (hp : p.Numbered) (h : .statement (.unify mark left right) ∈ p.nodes)
    (hleft : ∀ e ∈ left.arguments, e.isTerm = true)
    (hright : ∀ e ∈ right.arguments, e.isTerm = true) (limit : Nat)
    (hm : m.EndsInRoot env root) {fuel : Nat} {done : Completion} {m' : Machine}
    (hdone : (evaluator ⟨(analyze p).1, limit⟩ fuel).statement env (.unify mark left right) m =
      .ok done m') :
    let ctx : Context := ⟨(analyze p).1, limit⟩
    (∀ l r, .values l r ∈ positions left right → LiteralsEqual ctx m l r) ∧
    ∀ before q after name v, positions left right = before ++ q :: after →
      q.write? ctx (m.bindPositions ctx root before) = some (name, v) →
      (∀ between r rest w, after = between ++ r :: rest →
        r.write? ctx (m.bindPositions ctx root (before ++ q :: between)) = some (name, w) → w = v) →
      (m'.frame root).bindings.get? name = some v := by
  have hplain := positions_plain hp h hleft hright limit
  generalize (⟨(analyze p).1, limit⟩ : Context) = ctx at hplain hdone ⊢
  have hok : Eventually ctx (fun sub => sub.statement env (.unify mark left right)) m
      (.ok done m') := ⟨fuel, fun _ hle => statement_of_le hle hdone⟩
  obtain ⟨hfunctor, harity⟩ := alike_of_ok hok
  obtain ⟨result, hresult, hdecides⟩ := positions_decide mark hm hplain hfunctor harity
  obtain rfl := hok.unique hresult
  have hmatch := hdecides.ok_iff.mp ⟨done, m', rfl⟩
  cases hdecides.ok hmatch
  refine ⟨fun l r hmem => (hmatch _ hmem).2, fun before q after name v heq hv hsame => ?_⟩
  have hbefore := hm.bindPositions ctx before
  have hpositions : m.bindPositions ctx root (positions left right) =
      ((m.bindPositions ctx root before).bindPosition ctx root q).bindPositions ctx root after := by
    rw [heq, Machine.bindPositions, List.foldl_append]
    rfl
  rw [hpositions]
  refine Machine.get?_bindPositions (hbefore.bindPosition ctx q)
    (Machine.get?_bindPosition hbefore.there hv) fun between r rest w hafter hw => ?_
  refine hsame between r rest w hafter ?_
  rwa [Machine.bindPositions, List.foldl_append]

/-- The two sides of `q(x: Int, x: Int) = q(1, 2)`. -/
def rebindingLeft : PredicateCall :=
  ⟨⟨2, {}⟩, "q", [.placeholder ⟨3, {}⟩ "x" (.simple ⟨4, {}⟩ "Int"),
    .placeholder ⟨5, {}⟩ "x" (.simple ⟨6, {}⟩ "Int")]⟩

def rebindingRight : PredicateCall := ⟨⟨7, {}⟩, "q", [.int ⟨8, {}⟩ 1, .int ⟨9, {}⟩ 2]⟩

def rebinding : Program where
  mark := ⟨0, {}⟩
  statements := [.unify ⟨1, {}⟩ rebindingLeft rebindingRight]

theorem rebinding_numbered : rebinding.Numbered := by unfold Numbered Distinct; decide

theorem rebinding_mem :
    .statement (.unify ⟨1, {}⟩ rebindingLeft rebindingRight) ∈ rebinding.nodes := by
  simp [rebinding, Program.nodes, Stmt.nodesOfList, Stmt.nodes]

theorem write?_int (ctx : Context) (m : Machine) (mark mark' : Mark) (name : String) (i : Int64) :
    (Position.binding mark name (.int mark' i)).write? ctx m =
      some (name, (Value.int i).widen (ctx.table.typeOf mark)) := rfl

theorem rebinding_root : (({} : Machine).push 0).2.EndsInRoot [0] 0 := ⟨rfl, by decide, by decide⟩

theorem rebinding_done : ∃ fuel done m', (evaluator ⟨(analyze rebinding).1, 1⟩ fuel).statement [0]
    (.unify ⟨1, {}⟩ rebindingLeft rebindingRight) (({} : Machine).push 0).2 = .ok done m' ∧
    ((m'.frame 0).bindings.get? "x").any (·.equal (.int 2)) = true := by
  have hplain := positions_plain rebinding_numbered rebinding_mem (by decide) (by decide) 1
  obtain ⟨result, ⟨fuel, hfuel⟩, hdecides⟩ :=
    positions_decide ⟨1, {}⟩ rebinding_root hplain rfl rfl
  obtain rfl := hdecides.ok (by decide +kernel)
  exact ⟨fuel, _, _, hfuel fuel (Nat.le_refl fuel), by decide +kernel⟩

/-- The name is bound to what the last position gives it. -/
theorem rebinding_binds : ∃ fuel done m', (evaluator ⟨(analyze rebinding).1, 1⟩ fuel).statement [0]
    (.unify ⟨1, {}⟩ rebindingLeft rebindingRight) (({} : Machine).push 0).2 = .ok done m' ∧
    (m'.frame 0).bindings.get? "x" =
      some ((Value.int 2).widen ((analyze rebinding).1.typeOf ⟨5, {}⟩)) := by
  obtain ⟨fuel, done, m', hdone, -⟩ := rebinding_done
  have hbinds := (unify_binds rebinding_numbered rebinding_mem (by decide) (by decide) 1
    rebinding_root hdone).2
  refine ⟨fuel, done, m', hdone, ?_⟩
  generalize (analyze rebinding).1 = t at hbinds ⊢
  exact hbinds [_] _ [] "x" _ rfl (write?_int ..) (by simp)

/-- The value that the first position gives the name is lost. -/
theorem rebinding_overwrites : ¬ ∀ p : Program, p.Numbered → (analyze p).2.isEmpty = true →
    ∀ mark left right, .statement (.unify mark left right) ∈ p.nodes →
    (∀ e ∈ left.arguments, e.isTerm = true) → (∀ e ∈ right.arguments, e.isTerm = true) →
    ∀ limit m env root, m.EndsInRoot env root → ∀ fuel done m',
    (evaluator ⟨(analyze p).1, limit⟩ fuel).statement env (.unify mark left right) m = .ok done m' →
    ∀ before q after name v, positions left right = before ++ q :: after →
    q.write? ⟨(analyze p).1, limit⟩ (m.bindPositions ⟨(analyze p).1, limit⟩ root before) =
      some (name, v) → (m'.frame root).bindings.get? name = some v := by
  intro hsound
  obtain ⟨fuel, done, m', hdone, hlast⟩ := rebinding_done
  have hfirst := hsound rebinding rebinding_numbered (by decide +kernel) _ _ _ rebinding_mem
    (by decide) (by decide) 1 _ [0] 0 rebinding_root fuel done m' hdone [] _ [_] "x" _ rfl
    (write?_int ..)
  have hdiffers : ∀ t, ((Value.int 1).widen t).equal (.int 2) = false := by
    intro t
    unfold Value.widen
    split <;> rfl
  rw [hfirst, Option.any_some] at hlast
  exact absurd ((hdiffers _).symm.trans hlast) Bool.false_ne_true

end Program

end LogicScript
