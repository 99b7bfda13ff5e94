import LogicScript.Proofs.Export
import LogicScript.Proofs.Meaning

/-! The order in which facts were declared.

Facts are kept in the order of their declaration, but neither a resolution nor an export shows it.
Two machines that differ in this order only are evaluated side by side: whatever one of them is asked,
the other one answers the same, and they still differ in this order only. -/
namespace LogicScript

open Eval Datalog

/-- The same facts in any order, or the same rule. -/
inductive Entry.Permuted : Entry → Entry → Prop
  | facts {tuples tuples' : List (List Value)} (h : tuples.Perm tuples') :
    Permuted (.facts tuples) (.facts tuples')
  | rule (r : Rule) : Permuted (.rule r) (.rule r)

structure PredicateStore.Permuted (s s' : PredicateStore) : Prop where
  names : s.entries.names.Perm s'.entries.names
  entries : ∀ functor, Option.Rel Entry.Permuted (s.get? functor) (s'.get? functor)

structure Frame.Permuted (frame frame' : Frame) : Prop where
  scope : frame'.scope = frame.scope
  bindings : frame'.bindings = frame.bindings
  predicates : frame.predicates.Permuted frame'.predicates

/-- Two machines with the same frames, but for the order of facts. -/
structure Machine.Permuted (m m' : Machine) : Prop where
  size : m'.frames.size = m.frames.size
  frames : ∀ f, (m.frame f).Permuted (m'.frame f)

/-- All arguments in the bodies of the stored rules are literals or uses of names. -/
def Machine.PlainRules (m : Machine) : Prop := m.AllRules fun _ r => r.decl.body.isPlain = true

theorem Entry.Permuted.contains {e e' : Entry} (h : e.Permuted e') (args : List Value) :
    e'.contains args = e.contains args := by
  cases h with
  | rule r => rfl
  | facts hperm =>
    refine congrArg args.all (funext fun v => ?_)
    rw [Bool.eq_iff_iff]
    simp only [Entry.mentions, Entry.tuples, List.any_eq_true, hperm.mem_iff]

namespace Machine.Permuted

variable {m m' : Machine}

theorem frameOf? (h : m.Permuted m') (env : Env) (scope : ScopeId) :
    m'.frameOf? env scope = m.frameOf? env scope := by
  unfold Machine.frameOf?
  simp only [(h.frames _).scope]

theorem push (h : m.Permuted m') (scope : ScopeId) :
    (m.push scope).2.Permuted (m'.push scope).2 := by
  refine ⟨by simp [h.size], fun f => ?_⟩
  rw [frame_push, frame_push, h.size]
  split
  · exact ⟨rfl, rfl, ⟨.refl _, fun _ => .none⟩⟩
  · exact h.frames f

theorem define (h : m.Permuted m') (f : FrameId) (name : String) (v : Value) :
    (m.define f name v).Permuted (m'.define f name v) := by
  refine ⟨by simp [h.size], fun i => ?_⟩
  rw [Machine.define, Machine.define, frame_updateFrame, frame_updateFrame, h.size]
  split
  · exact ⟨(h.frames i).scope, by simp [(h.frames i).bindings], (h.frames i).predicates⟩
  · exact h.frames i

theorem bindAll (h : m.Permuted m') (t : Table) (f : FrameId) (ps : List Parameter)
    (vs : List Value) : (m.bindAll t f ps vs).Permuted (m'.bindAll t f ps vs) := by
  induction ps generalizing m m' vs with
  | nil => exact h
  | cons p ps ih =>
    cases vs with
    | nil => exact h
    | cons v vs => exact ih (h.define f p.name _) vs

end Machine.Permuted

theorem Machine.PlainRules.bindAll {m : Machine} (h : m.PlainRules) (t : Table) (f : FrameId)
    (ps : List Parameter) (vs : List Value) : (m.bindAll t f ps vs).PlainRules := by
  induction ps generalizing m vs with
  | nil => exact h
  | cons p ps ih =>
    cases vs with
    | nil => exact h
    | cons v vs => exact ih (h.of_eq fun i => by simp) vs

section SideBySide

variable {α β : Type}

/-- Two evaluations ended with the same value or the same halt, in machines that differ in the order
of facts only. -/
def EndAlike : EStateM.Result Halt Machine α → EStateM.Result Halt Machine α → Prop
  | .ok a m, .ok a' m' => a' = a ∧ m.Permuted m' ∧ m.PlainRules
  | .error h m, .error h' m' => h' = h ∧ m.Permuted m' ∧ m.PlainRules
  | _, _ => False

/-- Begun in machines that differ in the order of facts only, two evaluations end alike. -/
def InStep (m m' : Machine) (x y : Eval α) : Prop :=
  m.Permuted m' → m.PlainRules → EndAlike (x m) (y m')

namespace InStep

variable {m m' : Machine} {ctx : Context} {sub : Evaluator} {env : Env}

theorem pure (a : α) : InStep m m' (Pure.pure a) (Pure.pure a) := fun h hr => ⟨rfl, h, hr⟩

theorem throw (halt : Halt) :
    InStep m m' (MonadExcept.throw halt : Eval α) (MonadExcept.throw halt) :=
  fun h hr => ⟨rfl, h, hr⟩

theorem raise (c : Cause) : InStep m m' (Eval.raise c : Eval α) (Eval.raise c) := throw _

theorem bind {x y : Eval α} {f g : α → Eval β} (h : InStep m m' x y)
    (hf : ∀ m₁ m₁' a, InStep m₁ m₁' (f a) (g a)) : InStep m m' (x >>= f) (y >>= g) := by
  intro hm hr
  have hxy := h hm hr
  cases hx : x m with
  | ok a m₁ =>
    cases hy : y m' with
    | ok b m₁' =>
      rw [hx, hy] at hxy
      obtain ⟨rfl, hm₁, hr₁⟩ := hxy
      rw [bind_of_ok hx, bind_of_ok hy]
      exact hf m₁ m₁' b hm₁ hr₁
    | error e m₁' =>
      rw [hx, hy] at hxy
      exact hxy.elim
  | error e m₁ =>
    cases hy : y m' with
    | ok b m₁' =>
      rw [hx, hy] at hxy
      exact hxy.elim
    | error e' m₁' =>
      rw [hx, hy] at hxy
      rw [bind_of_error hx, bind_of_error hy]
      exact hxy

theorem attach {x y : Eval α} {node : NodeRef} (h : InStep m m' x y) :
    InStep m m' (Eval.attach node x) (Eval.attach node y) := by
  intro hm hr
  have hxy := h hm hr
  unfold Eval.attach
  revert hxy
  cases x m with
  | ok a m₁ =>
    cases y m' with
    | ok b m₁' => exact id
    | error e' m₁' => exact False.elim
  | error e m₁ =>
    cases y m' with
    | ok b m₁' => exact False.elim
    | error e' m₁' =>
      rintro ⟨rfl, hm₁, hr₁⟩
      cases e' <;> exact ⟨rfl, hm₁, hr₁⟩

theorem get_bind {f g : Machine → Eval α}
    (h : m.Permuted m' → m.PlainRules → InStep m m' (f m) (g m')) :
    InStep m m' (MonadState.get >>= f) (MonadState.get >>= g) := fun hm hr => h hm hr hm hr

theorem lift (e : Except Cause α) : InStep m m' (Eval.lift e) (Eval.lift e) := by
  cases e with
  | ok a => exact pure a
  | error c => exact raise c

theorem scopeOf (node : NodeRef) : InStep m m' (Eval.scopeOf ctx node) (Eval.scopeOf ctx node) := by
  unfold Eval.scopeOf
  split
  · exact pure _
  · exact raise _

theorem read (scope : ScopeId) (name : String) :
    InStep m m' (Eval.read ctx env scope name) (Eval.read ctx env scope name) := by
  refine get_bind fun hm _ => ?_
  have hread : m'.read ctx.table.scopes env scope name = m.read ctx.table.scopes env scope name := by
    unfold Machine.read
    simp only [hm.frameOf?, (hm.frames _).bindings]
  rw [hread]
  exact lift _

theorem reference (r : Reference) :
    InStep m m' (Eval.reference ctx env r) (Eval.reference ctx env r) := by
  unfold Eval.reference
  split
  · exact raise _
  · exact pure _
  · exact pure _
  · exact pure _
  · exact pure _
  · exact (scopeOf _).bind fun _ _ scope => read scope r.name

theorem expression {e : Expr} (he : e.isPlain = true) :
    InStep m m' (Eval.expression ctx sub env e) (Eval.expression ctx sub env e) := by
  refine attach ?_
  cases e with
  | reference r => exact reference r
  | logic goal =>
    cases goal with
    | atom mark name => exact pure _
    | _ => cases he
  | int _ _ | float _ _ | string _ _ | bool _ _ | null _ => exact pure _
  | _ => cases he

end InStep

/-- What an evaluator is asked for to resolve a plain logic expression ends alike. -/
structure StaysInStep (sub : Evaluator) : Prop where
  expression : ∀ m m' env e, e.isPlain = true →
    InStep m m' (sub.expression env e) (sub.expression env e)
  resolve : ∀ m m' env depth goal, goal.isPlain = true →
    InStep m m' (sub.resolve env depth goal) (sub.resolve env depth goal)

namespace StaysInStep

variable {m m' : Machine} {ctx : Context} {sub : Evaluator} {env : Env} {depth : Nat}

theorem exhausted : StaysInStep Eval.exhausted :=
  ⟨fun _ _ _ _ _ => .throw _, fun _ _ _ _ _ _ => .throw _⟩

theorem expressions (h : StaysInStep sub) {es : List Expr} (hes : es.all (·.isPlain) = true) :
    InStep m m' (Eval.expressions sub env es) (Eval.expressions sub env es) := by
  induction es generalizing m m' with
  | nil => exact .pure _
  | cons e es ih =>
    simp only [List.all_cons, Bool.and_eq_true] at hes
    refine (h.expression m m' env e hes.1).bind fun m₁ m₁' v => ?_
    exact (ih hes.2).bind fun _ _ vs => .pure _

theorem resolveRule (h : StaysInStep sub) {r : Rule} (hr : r.decl.body.isPlain = true)
    {arguments : List Expr} (hargs : arguments.all (·.isPlain) = true) :
    InStep m m' (Eval.resolveRule ctx sub env depth r arguments)
      (Eval.resolveRule ctx sub env depth r arguments) := by
  unfold Eval.resolveRule
  split
  · refine (h.expressions hargs).bind fun m₁ m₁' args hm hrules => ?_
    have hpushed : (m₁.push r.scope).2.PlainRules :=
      hrules.of_eq fun f => Machine.predicates_push ..
    have hbody := h.resolve _ _ (m₁.frames.size :: r.env) (depth + 1) r.decl.body hr
      ((hm.push r.scope).bindAll ctx.table m₁.frames.size r.decl.parameters args)
      (hpushed.bindAll ctx.table m₁.frames.size r.decl.parameters args)
    have hbind := bindParameters_apply ctx (Machine.entered_push m₁ r.scope).2 r.env
      r.decl.parameters args
    have hbind' := bindParameters_apply ctx (Machine.entered_push m₁' r.scope).2 r.env
      r.decl.parameters args
    have hpush : ∀ m₂ : Machine, Eval.push r.scope m₂ = .ok m₂.frames.size (m₂.push r.scope).2 :=
      fun _ => rfl
    rw [bind_of_ok (hpush m₁), bind_of_ok (hpush m₁'), bind_of_ok hbind, bind_of_ok hbind', hm.size]
    exact hbody
  · exact .pure _

theorem resolveCall (h : StaysInStep sub) {mark : Mark} {functor : String} {arguments : List Expr}
    (hargs : arguments.all (·.isPlain) = true) :
    InStep m m' (Eval.resolveCall ctx sub env depth mark functor arguments)
      (Eval.resolveCall ctx sub env depth mark functor arguments) := by
  unfold Eval.resolveCall
  dsimp only
  split
  · rename_i d scope _ _
    refine .get_bind fun hm hrules => ?_
    rw [hm.frameOf?]
    split
    · exact .pure _
    · rename_i f _
      have hentry := (hm.frames f).predicates.entries functor
      cases he : (m.frame f).predicates.get? functor with
      | none =>
        rw [he] at hentry
        generalize (m'.frame f).predicates.get? functor = e' at hentry
        cases hentry
        exact .pure _
      | some e =>
        rw [he] at hentry
        generalize (m'.frame f).predicates.get? functor = e' at hentry
        cases hentry with
        | some hentry =>
          cases hentry with
          | rule r => exact h.resolveRule (hrules f functor r he) hargs
          | facts _ =>
            refine (h.expressions hargs).bind fun m₁ m₁' args => .get_bind fun hm₁ _ => ?_
            have hany : (((m₁'.frame f).predicates.get? functor).any (·.contains args)) =
                ((m₁.frame f).predicates.get? functor).any (·.contains args) := by
              have hentry₁ := (hm₁.frames f).predicates.entries functor
              revert hentry₁
              generalize (m₁.frame f).predicates.get? functor = e₁
              generalize (m₁'.frame f).predicates.get? functor = e₁'
              rintro (hsame | -)
              · exact hsame.contains args
              · rfl
            rw [hany]
            exact .pure _
  · exact .pure _

theorem resolve_step (h : StaysInStep sub) {goal : Goal} (hgoal : goal.isPlain = true) :
    InStep m m' (Eval.resolve ctx sub env depth goal) (Eval.resolve ctx sub env depth goal) := by
  unfold Eval.resolve
  split
  · exact .throw _
  · cases goal with
    | atom mark name => exact .pure _
    | call mark functor arguments => exact h.resolveCall hgoal
    | paren mark inner => exact h.resolve m m' env depth inner hgoal
    | not mark operand =>
      exact (h.resolve m m' env depth operand hgoal).bind fun _ _ b => .pure _
    | binary mark op left right =>
      simp only [Goal.isPlain, Bool.and_eq_true] at hgoal
      refine (h.resolve m m' env depth left hgoal.1).bind fun m₁ m₁' l => ?_
      exact (h.resolve m₁ m₁' env depth right hgoal.2).bind fun _ _ r => .pure _

theorem evaluator (ctx : Context) (fuel : Nat) : StaysInStep (Eval.evaluator ctx fuel) := by
  induction fuel with
  | zero => exact exhausted
  | succ fuel ih =>
    exact ⟨fun _ _ _ _ he => InStep.expression he, fun _ _ _ _ _ hg => ih.resolve_step hg⟩

end StaysInStep

end SideBySide

/-- What an evaluation came to, whatever machine it left behind. -/
def Eval.outcome {α : Type} : EStateM.Result Halt Machine α → Except Halt α
  | .ok a _ => .ok a
  | .error h _ => .error h

theorem EndAlike.outcome {α : Type} {r r' : EStateM.Result Halt Machine α} (h : EndAlike r r') :
    Eval.outcome r' = Eval.outcome r := by
  cases r with
  | ok a m =>
    cases r' with
    | ok a' m' => exact congrArg Except.ok h.1
    | error e' m' => exact h.elim
  | error e m =>
    cases r' with
    | ok a' m' => exact h.elim
    | error e' m' => exact congrArg Except.error h.1

namespace PredicateStore.Permuted

variable {s s' : PredicateStore}

theorem functors (h : s.Permuted s') : s'.functors = s.functors :=
  Export.sorted_of_perm h.names.symm

theorem facts (h : s.Permuted s') : s'.facts.Perm s.facts := by
  unfold PredicateStore.facts
  rw [h.functors]
  refine List.Perm.flatMap_left _ fun functor _ => List.Perm.map _ ?_
  unfold PredicateStore.tuples
  have hentry := h.entries functor
  revert hentry
  generalize s.get? functor = e
  generalize s'.get? functor = e'
  rintro (hentry | -)
  · cases hentry with
    | facts hperm => exact hperm.symm
    | rule r => exact .refl _
  · exact .refl _

end PredicateStore.Permuted

/-- The order in which facts were declared is not observable. In two machines that differ in nothing
else, logic expressions with plain arguments have the same answers, in rules too; and the exports of
a frame have the same counts and the same lines, as many as were exported, in groups by functor and
arity. -/
theorem fact_order_unobservable {m m' : Machine} (h : m.Permuted m') (hrules : m.PlainRules) :
    (∀ ctx fuel env depth goal, goal.isPlain = true →
      outcome ((evaluator ctx fuel).resolve env depth goal m') =
        outcome ((evaluator ctx fuel).resolve env depth goal m)) ∧
    ∀ (S : FactStore) (f : FrameId), S.IsSet (· ∈ atomsOf (m.frame f).predicates.facts) →
      let x := Export.into S (m.frame f).predicates
      let x' := Export.into S (m'.frame f).predicates
      x'.exported = x.exported ∧ x'.skipped = x.skipped ∧ x'.lines = x.lines ∧
      x.lines.length = x.exported ∧
      Export.Grouped (atomsOf (m.frame f).predicates.facts) x.lines := by
  constructor
  · intro ctx fuel env depth goal hgoal
    exact ((StaysInStep.evaluator ctx fuel).resolve m m' env depth goal hgoal h hrules).outcome
  · intro S f hS x x'
    have hfacts := (h.frames f).predicates.facts
    have hatoms : (atomsOf (m'.frame f).predicates.facts).Perm
        (atomsOf (m.frame f).predicates.facts) := hfacts.filterMap _
    have hx := Export.tells_into hS
    have hx' := Export.tells_into (hS.mono fun a ha => hatoms.mem_iff.mp ha)
    refine ⟨?_, ?_, hx.lines_of_perm hx' hS hatoms, hx.length_lines hS, hx.grouped hS⟩
    · rw [hx'.exported, hx.exported, List.toFinset_eq_of_perm _ _ hatoms]
    · have hskipped := hx.skipped
      have hskipped' := hx'.skipped
      rw [hatoms.length_eq, hfacts.length_eq] at hskipped'
      exact Nat.add_right_cancel (hskipped'.trans hskipped.symm)

namespace Derivation.Sample

/-- The rule in the root frame, with some facts for its body. -/
def stating (tuples : List (List Value)) : Machine where
  frames := #[{ scope := 0, predicates := ⟨⟨[("q", .facts tuples), ("p", .rule rule)]⟩⟩ }]

theorem stating_permuted {tuples tuples' : List (List Value)} (h : tuples.Perm tuples') :
    (stating tuples).Permuted (stating tuples') := by
  refine ⟨rfl, fun f => ?_⟩
  cases f with
  | zero =>
    refine ⟨rfl, rfl, .refl _, fun functor => ?_⟩
    change Option.Rel _ (Bindings.find [("q", Entry.facts tuples), ("p", Entry.rule rule)] functor)
      (Bindings.find [("q", Entry.facts tuples'), ("p", Entry.rule rule)] functor)
    simp only [Bindings.find]
    split
    · exact .some (.facts h)
    · split
      · exact .some (.rule rule)
      · exact .none
  | succ f => exact ⟨rfl, rfl, .refl _, fun _ => .none⟩

theorem stating_plain (tuples : List (List Value)) : (stating tuples).PlainRules := by
  intro f functor r hr
  cases f with
  | zero =>
    change Bindings.find [("q", Entry.facts tuples), ("p", Entry.rule rule)] functor = _ at hr
    simp only [Bindings.find] at hr
    split at hr
    · cases hr
    · split at hr
      · cases hr
        rfl
      · cases hr
  | succ f => cases hr

theorem mem_stating_atoms {a : Atom} {tuples : List (List Value)}
    (ha : a ∈ atomsOf ((stating tuples).frame 0).predicates.facts) :
    ∃ t ∈ tuples, Atom.ofFact? "q" t = some a := by
  obtain ⟨⟨functor, t⟩, hfact, hatom⟩ := List.mem_filterMap.mp ha
  have ht := PredicateStore.mem_facts hfact
  have hentry := PredicateStore.get?_of_mem_tuples ht
  generalize PredicateStore.tuples _ functor = tuples' at ht hentry
  change Bindings.find [("q", Entry.facts tuples), ("p", Entry.rule rule)] functor = _ at hentry
  simp only [Bindings.find] at hentry
  split at hentry
  · subst functor
    cases hentry
    exact ⟨t, ht, hatom⟩
  · split at hentry <;> cases hentry

theorem stating_isSet : FactStore.hashed.IsSet
    (· ∈ atomsOf ((stating [[.int 1], [.int 2]]).frame 0).predicates.facts) := by
  have hatoms : ∀ a ∈ atomsOf ((stating [[.int 1], [.int 2]]).frame 0).predicates.facts,
      a = ⟨"q", [.number 1]⟩ ∨ a = ⟨"q", [.number 2]⟩ := by
    intro a ha
    obtain ⟨t, ht, hatom⟩ := mem_stating_atoms ha
    simp only [List.mem_cons, List.not_mem_nil, or_false] at ht
    rcases ht with rfl | rfl
    · exact .inl (Option.some.inj hatom).symm
    · exact .inr (Option.some.inj hatom).symm
  refine FactStore.hashed_isSet fun a b ha hb hclash => ?_
  rcases hatoms a ha with rfl | rfl <;> rcases hatoms b hb with rfl | rfl
  · rfl
  · exact absurd hclash (by decide +kernel)
  · exact absurd hclash (by decide +kernel)
  · rfl

theorem stating_unobservable :
    outcome ((evaluator ⟨table, 1⟩ 6).resolve [0] 0 goal (stating [[.int 2], [.int 1]])) =
      outcome ((evaluator ⟨table, 1⟩ 6).resolve [0] 0 goal (stating [[.int 1], [.int 2]])) ∧
    let x := Export.into .hashed ((stating [[.int 1], [.int 2]]).frame 0).predicates
    let x' := Export.into .hashed ((stating [[.int 2], [.int 1]]).frame 0).predicates
    x'.exported = x.exported ∧ x'.skipped = x.skipped ∧ x'.lines = x.lines ∧
    x.lines.length = x.exported ∧
    Export.Grouped (atomsOf ((stating [[.int 1], [.int 2]]).frame 0).predicates.facts) x.lines := by
  have hperm : [[Value.int 1], [.int 2]].Perm [[.int 2], [.int 1]] := .swap ..
  obtain ⟨hanswer, hexport⟩ := fact_order_unobservable (stating_permuted hperm) (stating_plain _)
  exact ⟨hanswer _ 6 [0] 0 goal rfl, hexport .hashed 0 stating_isSet⟩

end Derivation.Sample

end LogicScript
