import LogicScript.Proofs.Purity

/-! More facts never make a logic expression without negation false.

Two machines of which one has more facts than the other resolve such an expression in lockstep: the
same rule bodies are resolved in both, one inside the other, whatever the facts say, because both
sides of a connective are always resolved. Arguments are evaluated in both, or only where a functor
has got its first facts; so arguments must always have values, and an array that they make may be a
different one. -/
namespace LogicScript

open Eval

def Goal.isPositive : Goal → Bool
  | .atom _ _ | .call _ _ _ => true
  | .paren _ inner => inner.isPositive
  | .not _ _ => false
  | .binary _ _ left right => left.isPositive && right.isPositive

def Reference.isParameter (t : Table) (scope : ScopeId) (parameters : List Parameter)
    (r : Reference) : Bool :=
  match (t.attributes r.mark.id).decl, (t.attributes r.mark.id).scope with
  | some (.parameter _ _), some owner => owner == scope && parameters.any (·.name == r.name)
  | _, _ => false

mutual

/-- A literal, or a use of a parameter that belongs to the scope. -/
def Expr.isGiven (t : Table) (scope : ScopeId) (parameters : List Parameter) : Expr → Bool
  | .int _ _ | .float _ _ | .string _ _ | .bool _ _ | .null _ | .logic (.atom _ _) => true
  | .reference r => r.isParameter t scope parameters
  | .array _ elements => Expr.areGiven t scope parameters elements
  | _ => false

def Expr.areGiven (t : Table) (scope : ScopeId) (parameters : List Parameter) :
    List Expr → Bool
  | [] => true
  | e :: es => e.isGiven t scope parameters && Expr.areGiven t scope parameters es

end

/-- All arguments in a logic expression are literals or uses of such parameters. -/
def Goal.isGiven (t : Table) (scope : ScopeId) (parameters : List Parameter) : Goal → Bool
  | .atom _ _ => true
  | .call _ _ arguments => Expr.areGiven t scope parameters arguments
  | .paren _ inner => inner.isGiven t scope parameters
  | .not _ operand => operand.isGiven t scope parameters
  | .binary _ _ left right => left.isGiven t scope parameters && right.isGiven t scope parameters

/-- An entry that may have got more facts. A functor without any entry may have got its first
ones. -/
def Entry.Gains : Option Entry → Option Entry → Prop
  | none, none | none, some (.facts _) => True
  | some (.facts tuples), some (.facts tuples') => tuples ⊆ tuples'
  | some (.rule r), some (.rule r') => r' = r
  | _, _ => False

namespace Entry.Gains

variable {e e' e₁ e₂ e₃ : Option Entry} {r : Rule} {tuples : List (List Value)}

theorem refl (e : Option Entry) : Entry.Gains e e := by
  rcases e with _ | _ | _
  · trivial
  · exact List.Subset.refl _
  · rfl

theorem trans (h : Entry.Gains e₁ e₂) (h' : Entry.Gains e₂ e₃) : Entry.Gains e₁ e₃ := by
  rcases e₁ with _ | _ | _ <;> rcases e₂ with _ | _ | _ <;> rcases e₃ with _ | _ | _ <;>
    simp only [Entry.Gains] at h h' ⊢
  · exact List.Subset.trans h h'
  · exact h'.trans h

/-- A functor gets its first facts, or more of them, or it stands for the same as before. -/
theorem cases (h : Entry.Gains e e') :
    (e = none ∧ e' = none) ∨ (e = none ∧ ∃ tuples, e' = some (.facts tuples)) ∨
      (∃ tuples tuples', e = some (.facts tuples) ∧ e' = some (.facts tuples') ∧ tuples ⊆ tuples') ∨
      ∃ r, e = some (.rule r) ∧ e' = some (.rule r) := by
  unfold Entry.Gains at h
  split at h
  · exact .inl ⟨rfl, rfl⟩
  · exact .inr (.inl ⟨rfl, _, rfl⟩)
  · exact .inr (.inr (.inl ⟨_, _, rfl, rfl, h⟩))
  · subst h
    exact .inr (.inr (.inr ⟨_, rfl, rfl⟩))
  · exact h.elim

end Entry.Gains

namespace PredicateStore

variable {s s' : PredicateStore} {functor : String} {tuple : List Value}

/-- All entries of a store may have got more facts. -/
def Gains (s s' : PredicateStore) : Prop :=
  ∀ functor, Entry.Gains (s.get? functor) (s'.get? functor)

theorem Gains.of_addFact (h : s.addFact functor tuple = .ok s') : s.Gains s' := by
  have hset : ∀ e : Entry, Entry.Gains (s.get? functor) (some e) →
      s.Gains ⟨s.entries.set functor e⟩ := by
    intro e he name
    by_cases hn : name = functor
    · subst hn
      simpa only [get?, Bindings.get?_set_self] using he
    · simpa only [get?, Bindings.get?_set_ne _ _ hn] using Entry.Gains.refl _
  unfold addFact at h
  split at h
  · rename_i hnone
    cases h
    exact hset _ (by rw [hnone]; trivial)
  · cases h
  · rename_i tuples hfacts
    split at h
    · cases h
    · cases h
      exact hset _ (by rw [hfacts]; exact List.subset_append_left ..)

end PredicateStore

namespace Machine

/-- The second machine is the first one after some facts were added to the stores of its frames. -/
inductive Gains : Machine → Machine → Prop
  | refl (m : Machine) : Gains m m
  | addFact {m m' : Machine} {f : FrameId} {functor : String} {tuple : List Value}
      {store : PredicateStore} (h : Gains m m')
      (hadd : (m'.frame f).predicates.addFact functor tuple = .ok store) :
      Gains m (m'.setStore f store)

/-- All that facts hold are objects of the machine. -/
def FactsWithin (m : Machine) : Prop :=
  ∀ f functor tuples, (m.frame f).predicates.get? functor = some (.facts tuples) →
    ∀ tuple ∈ tuples, ∀ v ∈ tuple, v.Within m.objects.size

/-- A logic expression is resolved for the chain inside a rule with such parameters: they are bound
in the first frame. Outside of all rules there are none. -/
def Encloses (m : Machine) (env : Env) (scope : ScopeId) (parameters : List Parameter) : Prop :=
  parameters = [] ∨ ∃ f rest, env = f :: rest ∧ f < m.frames.size ∧ (m.frame f).scope = scope ∧
    ∀ p ∈ parameters, ∃ v, (m.frame f).bindings.get? p.name = some v

theorem Encloses.mono {m m' : Machine} {env : Env} {scope : ScopeId} {parameters : List Parameter}
    (h : m.Encloses env scope parameters) (hm : m.Retained m') :
    m'.Encloses env scope parameters := by
  rcases h with rfl | ⟨f, rest, rfl, hf, hscope, hbound⟩
  · exact .inl rfl
  · refine .inr ⟨f, rest, rfl, Nat.lt_of_lt_of_le hf hm.1, ?_, ?_⟩
    · rw [hm.2 f hf, hscope]
    · rw [hm.2 f hf]
      exact hbound

end Machine

/-- What a given argument may come to: its value, or a new array. -/
def Expr.Means (t : Table) (m : Machine) (env : Env) (e : Expr) (v : Value) : Prop :=
  match e with
  | .array _ _ => ∃ o, v = .array o ∧ m.objects.size ≤ o
  | e => e.value? t (env.map m.frame) = some v

theorem Expr.Means.mono {t : Table} {m m' : Machine} {env : Env} {e : Expr} {v : Value}
    (h : e.Means t m' env v) (hframes : m'.frames = m.frames)
    (hobjects : m.objects.size ≤ m'.objects.size) : e.Means t m env v := by
  have hframe : m'.frame = m.frame := by
    funext f
    unfold Machine.frame
    rw [hframes]
  cases e with
  | array mark elements =>
    obtain ⟨o, rfl, ho⟩ := h
    exact ⟨o, rfl, Nat.le_trans hobjects ho⟩
  | _ =>
    simp only [Expr.Means, hframe] at h ⊢
    exact h

namespace Eval

variable {ctx : Context} {env : Env} {m : Machine} {scope : ScopeId} {parameters : List Parameter}

theorem value?_parameter {r : Reference} (hm : m.Encloses env scope parameters)
    (hr : r.isParameter ctx.table scope parameters = true) :
    ∃ v, r.value? ctx.table (env.map m.frame) = some v := by
  unfold Reference.isParameter at hr
  split at hr
  · rename_i mark name owner hdecl howner
    simp only [Bool.and_eq_true, beq_iff_eq, List.any_eq_true] at hr
    obtain ⟨rfl, p, hp, hname⟩ := hr
    rcases hm with rfl | ⟨f, rest, rfl, -, hscope, hbound⟩
    · simp at hp
    · obtain ⟨v, hv⟩ := hbound p hp
      refine ⟨v, ?_⟩
      rw [hname] at hv
      simp [Reference.value?, hdecl, howner, List.find?, hscope, hv]
  · cases hr

/-- What a step comes to for an expression, the evaluator comes to with fuel for one more step. -/
theorem Eventually.expression {e : Expr} {r : EStateM.Result Halt Machine Value}
    (h : Eventually ctx (fun sub => Eval.expression ctx sub env e) m r) :
    Eventually ctx (fun sub => sub.expression env e) m r := by
  obtain ⟨n, hn⟩ := h
  refine ⟨n + 1, fun fuel hfuel => ?_⟩
  obtain ⟨k, rfl⟩ : ∃ k, fuel = k + 1 := ⟨fuel - 1, by omega⟩
  exact hn k (by omega)

theorem Eventually.array {mark : Mark} {elements : List Expr} {vs : List Value} {m₁ : Machine}
    (h : Eventually ctx (fun sub => expressions sub env elements) m (.ok vs m₁)) :
    Eventually ctx (fun sub => sub.expression env (.array mark elements)) m
      (.ok (.array m₁.objects.size)
        (m₁.alloc (.array (vs.map (·.widen (elementTypeOf ctx mark))).toArray)).2) := by
  obtain ⟨n, hn⟩ := h
  exact .expression ⟨n, fun fuel hfuel => attach_of_ok (bind_of_ok (hn fuel hfuel))⟩

/-- Nothing but new objects came with the values of arguments. -/
structure Valued (m m₁ : Machine) : Prop where
  intact : m.Intact m₁
  frames : m₁.frames = m.frames

theorem Valued.trans {m₁ m₂ : Machine} (h : Valued m m₁) (h' : Valued m₁ m₂) : Valued m m₂ :=
  ⟨h.intact.trans h'.intact, h'.frames.trans h.frames⟩

theorem expression_plain {e : Expr} {v : Value} (he : e.isPlain = true)
    (hv : e.value? ctx.table (env.map m.frame) = some v) :
    Eventually ctx (fun sub => sub.expression env e) m (.ok v m) := by
  refine Eventually.expression (.of_forall fun fuel => ?_)
  have hgives : Gives (expression ctx (evaluator ctx (fuel + 1)) env e) m _ := gives_expression he
  rw [hv] at hgives
  exact hgives

mutual

theorem expression_given (e : Expr) (m : Machine) (he : e.isGiven ctx.table scope parameters = true)
    (hm : m.Encloses env scope parameters) :
    ∃ v m₁, Eventually ctx (fun sub => sub.expression env e) m (.ok v m₁) ∧ Valued m m₁ ∧
      e.Means ctx.table m env v := by
  have plain : ∀ v, e.isPlain = true → e.value? ctx.table (env.map m.frame) = some v →
      (e.Means ctx.table m env v) → ∃ v m₁,
      Eventually ctx (fun sub => sub.expression env e) m (.ok v m₁) ∧ Valued m m₁ ∧
      e.Means ctx.table m env v := fun v hplain hv hmeans =>
    ⟨v, m, expression_plain hplain hv, ⟨.refl m, rfl⟩, hmeans⟩
  match e, he, plain with
  | .int mark i, _, plain => exact plain _ rfl rfl rfl
  | .float mark x, _, plain => exact plain _ rfl rfl rfl
  | .string mark s, _, plain => exact plain _ rfl rfl rfl
  | .bool mark b, _, plain => exact plain _ rfl rfl rfl
  | .null mark, _, plain => exact plain _ rfl rfl rfl
  | .logic (.atom mark name), _, plain => exact plain _ rfl rfl rfl
  | .reference r, he, plain =>
    obtain ⟨v, hv⟩ := value?_parameter hm (by simpa only [Expr.isGiven] using he)
    exact plain v rfl hv hv
  | .array mark elements, he, _ =>
    obtain ⟨vs, m₁, hvs, hvalued, -⟩ := expressions_given elements m
      (by simpa only [Expr.isGiven] using he) hm
    exact ⟨_, _, hvs.array, hvalued.trans ⟨.alloc m₁ _, rfl⟩, _, rfl, hvalued.intact.objects.1⟩

theorem expressions_given (es : List Expr) (m : Machine)
    (hes : Expr.areGiven ctx.table scope parameters es = true)
    (hm : m.Encloses env scope parameters) :
    ∃ vs m₁, Eventually ctx (fun sub => expressions sub env es) m (.ok vs m₁) ∧ Valued m m₁ ∧
      List.Forall₂ (fun e v => e.Means ctx.table m env v) es vs := by
  match es with
  | [] => exact ⟨[], m, .of_forall fun _ => rfl, ⟨.refl m, rfl⟩, .nil⟩
  | e :: es =>
    simp only [Expr.areGiven, Bool.and_eq_true] at hes
    obtain ⟨v, m₁, hv, hvalued, hmeans⟩ := expression_given e m hes.1 hm
    obtain ⟨vs, m₂, hvs, hvalued', hmeans'⟩ := expressions_given es m₁ hes.2
      (hm.mono hvalued.intact.frames)
    refine ⟨v :: vs, m₂, ?_, hvalued.trans hvalued', .cons hmeans ?_⟩
    · exact hv.bind_ok (hvs.bind_ok (.of_forall fun _ => rfl))
    · exact hmeans'.imp fun _ _ h => h.mono hvalued.frames hvalued.intact.objects.1

end

end Eval

/-- The same value, or two arrays of which the first one is not among so many first objects. -/
def Value.Tracks (n : Nat) (v v' : Value) : Prop :=
  v' = v ∨ ∃ o o', v = .array o ∧ v' = .array o' ∧ n ≤ o

theorem Value.Tracks.widen {n : Nat} {v v' : Value} (h : v.Tracks n v') (t : Ty) :
    (v.widen t).Tracks n (v'.widen t) := by
  rcases h with rfl | ⟨o, o', rfl, rfl, ho⟩
  · exact .inl rfl
  · exact .inr ⟨o, o', rfl, rfl, ho⟩

/-- More facts mention all that fewer facts mention. An array that is not among the objects of the
facts is not mentioned. -/
theorem Entry.mentions_of_tracks {n : Nat} {tuples tuples' : List (List Value)} {v v' : Value}
    (hsub : tuples ⊆ tuples') (hwithin : ∀ tuple ∈ tuples, ∀ v ∈ tuple, v.Within n)
    (hv : v.Tracks n v') (h : (Entry.facts tuples).mentions v = true) :
    (Entry.facts tuples').mentions v' = true := by
  simp only [mentions, Entry.tuples, List.any_eq_true] at h ⊢
  obtain ⟨tuple, htuple, w, hw, hequal⟩ := h
  rcases hv with rfl | ⟨o, o', rfl, rfl, ho⟩
  · exact ⟨tuple, hsub htuple, w, hw, hequal⟩
  · cases w with
    | array o₁ =>
      have hlt := hwithin tuple htuple _ hw o₁ (.inl rfl)
      have ho₁ : o₁ = o := beq_iff_eq.mp hequal
      exact absurd (ho₁ ▸ hlt) (Nat.not_lt.mpr ho)
    | _ => cases hequal

theorem Entry.contains_of_tracks {n : Nat} {tuples tuples' : List (List Value)}
    {args args' : List Value} (hsub : tuples ⊆ tuples')
    (hwithin : ∀ tuple ∈ tuples, ∀ v ∈ tuple, v.Within n)
    (hargs : List.Forall₂ (Value.Tracks n) args args')
    (h : (Entry.facts tuples).contains args = true) :
    (Entry.facts tuples').contains args' = true := by
  unfold contains at h ⊢
  induction hargs with
  | nil => rfl
  | cons hv _ ih =>
    simp only [List.all_cons, Bool.and_eq_true] at h ⊢
    exact ⟨mentions_of_tracks hsub hwithin hv h.1, ih h.2⟩

namespace Machine

/-- Two machines with the same frames, apart from arrays that are new since two machines before,
and from the facts of those. -/
structure Tracks (base base' m m' : Machine) : Prop where
  left : base.Intact m
  right : base'.Intact m'
  size : m'.frames.size = m.frames.size
  scope : ∀ f, (m'.frame f).scope = (m.frame f).scope
  bound : ∀ f name v, (m.frame f).bindings.get? name = some v →
    ∃ v', (m'.frame f).bindings.get? name = some v' ∧ v.Tracks base.objects.size v'

namespace Gains

variable {m m' : Machine}

theorem stores (h : m.Gains m') (f : FrameId) :
    (m.frame f).predicates.Gains (m'.frame f).predicates := by
  induction h with
  | refl => exact fun _ => .refl _
  | addFact h hadd ih =>
    rw [setStore, frame_updateFrame]
    split
    · rename_i hf
      obtain ⟨rfl, -⟩ := hf
      exact fun functor => (ih functor).trans (PredicateStore.Gains.of_addFact hadd functor)
    · exact ih

theorem tracks (h : m.Gains m') : Tracks m m' m m' := by
  have hsame : m'.frames.size = m.frames.size ∧ ∀ f, (m'.frame f).scope = (m.frame f).scope ∧
      (m'.frame f).bindings = (m.frame f).bindings := by
    induction h with
    | refl => exact ⟨rfl, fun _ => ⟨rfl, rfl⟩⟩
    | addFact h hadd ih => exact ⟨by simpa using ih.1, fun f => by simpa using ih.2 f⟩
  refine ⟨.refl m, .refl m', hsame.1, fun f => (hsame.2 f).1, fun f name v hv => ?_⟩
  exact ⟨v, by rw [(hsame.2 f).2, hv], .inl rfl⟩

end Gains

namespace Tracks

variable {base base' m m' : Machine} {env : Env} {scope : ScopeId} {parameters : List Parameter}
  {t : Table}

theorem frameOf? (h : Tracks base base' m m') (env : Env) (scope : ScopeId) :
    m'.frameOf? env scope = m.frameOf? env scope := by
  simp only [Machine.frameOf?, h.scope]

theorem encloses (h : Tracks base base' m m') (hm : m.Encloses env scope parameters) :
    m'.Encloses env scope parameters := by
  rcases hm with rfl | ⟨f, rest, rfl, hf, hscope, hbound⟩
  · exact .inl rfl
  · refine .inr ⟨f, rest, rfl, by rwa [h.size], by rw [h.scope, hscope], fun p hp => ?_⟩
    obtain ⟨v, hv⟩ := hbound p hp
    obtain ⟨v', hv', -⟩ := h.bound f p.name v hv
    exact ⟨v', hv'⟩

theorem valued {m₁ m₁' : Machine} (h : Tracks base base' m m') (hm : Eval.Valued m m₁)
    (hm' : Eval.Valued m' m₁') : Tracks base base' m₁ m₁' := by
  have hframe : m₁.frame = m.frame := by funext f; unfold Machine.frame; rw [hm.frames]
  have hframe' : m₁'.frame = m'.frame := by funext f; unfold Machine.frame; rw [hm'.frames]
  refine ⟨h.left.trans hm.intact, h.right.trans hm'.intact, ?_, ?_, ?_⟩
  · rw [hm.frames, hm'.frames, h.size]
  · rw [hframe, hframe']
    exact h.scope
  · rw [hframe, hframe']
    exact h.bound

theorem value?_reference {r : Reference} {v v' : Value} (h : Tracks base base' m m')
    (hv : r.value? t (env.map m.frame) = some v) (hv' : r.value? t (env.map m'.frame) = some v') :
    v.Tracks base.objects.size v' := by
  have hread : ((t.attributes r.mark.id).scope.bind fun scope =>
        ((env.map m.frame).find? (·.scope == scope)).bind (·.bindings.get? r.name)) = some v →
      ((t.attributes r.mark.id).scope.bind fun scope =>
        ((env.map m'.frame).find? (·.scope == scope)).bind (·.bindings.get? r.name)) = some v' →
      v.Tracks base.objects.size v' := by
    intro hv hv'
    simp only [find?_map_frame, h.frameOf?, Option.bind_eq_some_iff, Option.map_eq_some_iff]
      at hv hv'
    obtain ⟨scope, hscope, _, ⟨f, hf, rfl⟩, hv⟩ := hv
    obtain ⟨scope', hscope', _, ⟨f', hf', rfl⟩, hv'⟩ := hv'
    rw [hscope] at hscope'
    cases hscope'
    rw [hf] at hf'
    cases hf'
    obtain ⟨w, hw, htracks⟩ := h.bound f r.name v hv
    rw [hw] at hv'
    cases hv'
    exact htracks
  unfold Reference.value? at hv hv'
  cases hd : (t.attributes r.mark.id).decl with
  | none => simp [hd] at hv
  | some d =>
    simp only [hd] at hv hv'
    cases d with
    | builtinType p | builtinFunction name | function d | struct d =>
      cases hv
      cases hv'
      exact .inl rfl
    | _ => exact hread hv hv'

theorem means {e : Expr} {v v' : Value} (h : Tracks base base' m m') (hv : e.Means t m env v)
    (hv' : e.Means t m' env v') : v.Tracks base.objects.size v' := by
  cases e with
  | array mark elements =>
    obtain ⟨o, rfl, ho⟩ := hv
    obtain ⟨o', rfl, ho'⟩ := hv'
    exact .inr ⟨o, o', rfl, rfl, Nat.le_trans h.left.objects.1 ho⟩
  | reference r => exact h.value?_reference hv hv'
  | logic goal =>
    cases goal with
    | atom mark name =>
      cases hv
      cases hv'
      exact .inl rfl
    | _ => cases hv
  | int | float | string | bool | null =>
    cases hv
    cases hv'
    exact .inl rfl
  | _ => cases hv

theorem means_all {es : List Expr} {vs vs' : List Value} (h : Tracks base base' m m')
    (hvs : List.Forall₂ (fun e v => e.Means t m env v) es vs)
    (hvs' : List.Forall₂ (fun e v => e.Means t m' env v) es vs') :
    List.Forall₂ (Value.Tracks base.objects.size) vs vs' := by
  induction hvs generalizing vs' with
  | nil =>
    cases hvs'
    exact .nil
  | cons hv _ ih =>
    cases hvs' with
    | cons hv' hrest => exact .cons (h.means hv hv') (ih hrest)

end Tracks

end Machine

theorem parameterBindings_bound (t : Table) {parameters : List Parameter} {args : List Value}
    (hlength : args.length = parameters.length) (bound : Bindings Value) (name : String)
    (h : (∃ p ∈ parameters, p.name = name) ∨ ∃ v, bound.get? name = some v) :
    ∃ v, (parameterBindings t parameters args bound).get? name = some v := by
  induction parameters generalizing args bound with
  | nil =>
    rcases h with ⟨p, hp, -⟩ | h
    · cases hp
    · exact h
  | cons p parameters ih =>
    cases args with
    | nil => cases hlength
    | cons v args =>
      refine ih (by simpa using hlength) _ ?_
      by_cases hname : name = p.name
      · subst hname
        exact .inr ⟨_, Bindings.get?_set_self ..⟩
      · rw [Bindings.get?_set_ne _ _ hname]
        rcases h with ⟨p', hp', rfl⟩ | h
        · rcases List.mem_cons.mp hp' with rfl | hp'
          · exact absurd rfl hname
          · exact .inl ⟨p', hp', rfl⟩
        · exact .inr h

theorem parameterBindings_tracks (t : Table) {n : Nat} (parameters : List Parameter)
    {args args' : List Value} (hargs : List.Forall₂ (Value.Tracks n) args args')
    {bound bound' : Bindings Value}
    (h : ∀ name v, bound.get? name = some v → ∃ v', bound'.get? name = some v' ∧ v.Tracks n v')
    (name : String) (v : Value) (hv : (parameterBindings t parameters args bound).get? name = some v) :
    ∃ v', (parameterBindings t parameters args' bound').get? name = some v' ∧ v.Tracks n v' := by
  induction parameters generalizing args args' bound bound' with
  | nil => exact h name v hv
  | cons p parameters ih =>
    cases hargs with
    | nil => exact h name v hv
    | cons hhead htail =>
      refine ih htail (fun other w hw => ?_) hv
      by_cases hname : other = p.name
      · subst hname
        rw [Bindings.get?_set_self] at hw ⊢
        cases hw
        exact ⟨_, rfl, hhead.widen _⟩
      · rw [Bindings.get?_set_ne _ _ hname] at hw ⊢
        exact h other w hw

namespace Eval

variable {ctx : Context} {base base' m m' : Machine} {env : Env} {scope : ScopeId}
  {parameters : List Parameter} {depth : Nat} {r : Rule} {args args' : List Value}

theorem encloses_body (hlength : args.length = r.decl.parameters.length) :
    (bodyMachine ctx m r args).Encloses (m.frames.size :: r.env) r.scope r.decl.parameters := by
  refine .inr ⟨_, _, rfl, ?_, ?_, fun p hp => ?_⟩
  · simp [bodyMachine, Machine.size_bindAll]
  · rw [frame_bodyMachine, if_pos rfl]
    rfl
  · rw [frame_bodyMachine, if_pos rfl]
    exact parameterBindings_bound _ hlength ∅ _ (.inl ⟨p, hp, rfl⟩)

theorem tracks_body (h : Machine.Tracks base base' m m')
    (hargs : List.Forall₂ (Value.Tracks base.objects.size) args args') :
    Machine.Tracks base base' (bodyMachine ctx m r args) (bodyMachine ctx m' r args') where
  left := h.left.trans (.bodyMachine ctx m r args)
  right := h.right.trans (.bodyMachine ctx m' r args')
  size := by simp [bodyMachine, Machine.size_bindAll, h.size]
  scope f := by
    rw [frame_bodyMachine, frame_bodyMachine, h.size]
    split
    · rfl
    · exact h.scope f
  bound f := by
    rw [frame_bodyMachine, frame_bodyMachine, h.size]
    split
    · exact parameterBindings_tracks _ _ hargs (by simp)
    · exact h.bound f

/-- A resolution answers no less in the second machine, or the limit is exceeded at the same logic
expression in both. -/
def Agrees (base base' m : Machine) :
    EStateM.Result Halt Machine Bool → EStateM.Result Halt Machine Bool → Prop
  | .ok b m₁, .ok b' m₁' =>
    (b = true → b' = true) ∧ m.Intact m₁ ∧ Machine.Tracks base base' m₁ m₁'
  | .error (.fault f) _, .error (.fault f') _ => f.cause = .depthExceeded ∧ f' = f
  | _, _ => False

def Agree (ctx : Context) (base base' m m' : Machine) (x y : Evaluator → Eval Bool) : Prop :=
  ∃ result result', Eventually ctx x m result ∧ Eventually ctx y m' result' ∧
    Agrees base base' m result result'

theorem Agrees.of_intact {m₁ : Machine} {result result' : EStateM.Result Halt Machine Bool}
    (hm : m.Intact m₁) (h : Agrees base base' m₁ result result') :
    Agrees base base' m result result' := by
  unfold Agrees at h ⊢
  split at h
  · exact ⟨h.1, hm.trans h.2.1, h.2.2⟩
  · exact h
  · exact h

theorem Agree.pure {b b' : Bool} (hb : b = true → b' = true)
    (h : Machine.Tracks base base' m m') :
    Agree ctx base base' m m' (fun _ => Pure.pure b) (fun _ => Pure.pure b') :=
  ⟨_, _, .of_forall fun _ => rfl, .of_forall fun _ => rfl, hb, .refl m, h⟩

theorem Agree.bind {x y : Evaluator → Eval Bool} {f g : Evaluator → Bool → Eval Bool}
    (hx : Agree ctx base base' m m' x y)
    (hf : ∀ b b' m₁ m₁', (b = true → b' = true) → m.Intact m₁ →
      Machine.Tracks base base' m₁ m₁' → Agree ctx base base' m₁ m₁' (f · b) (g · b')) :
    Agree ctx base base' m m' (fun sub => x sub >>= f sub) (fun sub => y sub >>= g sub) := by
  obtain ⟨result, result', hresult, hresult', hagrees⟩ := hx
  unfold Agrees at hagrees
  split at hagrees
  · obtain ⟨hb, hm, htracks⟩ := hagrees
    obtain ⟨rest, rest', hrest, hrest', hagrees⟩ := hf _ _ _ _ hb hm htracks
    exact ⟨rest, rest', hresult.bind_ok hrest, hresult'.bind_ok hrest', hagrees.of_intact hm⟩
  · exact ⟨_, _, hresult.bind_error, hresult'.bind_error, hagrees⟩
  · exact hagrees.elim

theorem found?_gains (hgains : base.Gains base') (h : Machine.Tracks base base' m m') (mark : Mark)
    (functor : String) :
    Entry.Gains (found? ctx.table (env.map m.frame) mark functor)
      (found? ctx.table (env.map m'.frame) mark functor) := by
  unfold found?
  simp only [Machine.find?_map_frame, h.frameOf?]
  cases (ctx.table.attributes mark.id).decl with
  | none => exact .refl _
  | some d =>
    cases (ctx.table.attributes mark.id).scope with
    | none => exact .refl _
    | some scope =>
      simp only [Option.bind_some]
      cases m.frameOf? env scope with
      | none => exact .refl _
      | some f =>
        simp only [Option.map_some, Option.bind_some, h.left.stores, h.right.stores]
        exact hgains.stores f functor

section Call

variable {mark : Mark} {functor : String} {arguments : List Expr}

theorem facts_eventually {tuples : List (List Value)}
    (hentry : found? ctx.table (env.map m.frame) mark functor = some (.facts tuples))
    {m₁ : Machine} (hargs : Eventually ctx (fun sub => expressions sub env arguments) m (.ok args m₁))
    (hm : Valued m m₁) :
    Eventually ctx (fun sub => resolveCall ctx sub env depth mark functor arguments) m
      (.ok ((Entry.facts tuples).contains args) m₁) := by
  obtain ⟨d, scope, f, hd, hs, hf, he⟩ := found?_eq_some hentry
  obtain ⟨n, hn⟩ := hargs
  refine ⟨n, fun fuel hfuel => ?_⟩
  have hany : ((m₁.frame f).predicates.get? functor).any (·.contains args) =
      (Entry.facts tuples).contains args := by
    rw [hm.intact.stores, he, Option.any_some]
  dsimp only
  rw [resolveCall_apply hd hs]
  simp only [hf, he]
  rw [bind_of_ok (hn fuel hfuel), ← hany]
  rfl

theorem rule_eventually {result : EStateM.Result Halt Machine Bool}
    (hentry : found? ctx.table (env.map m.frame) mark functor = some (.rule r))
    (hfits : Fits ctx.table arguments r.decl.parameters) {m₁ : Machine}
    (hargs : Eventually ctx (fun sub => expressions sub env arguments) m (.ok args m₁))
    (hbody : Eventually ctx
      (fun sub => sub.resolve (m₁.frames.size :: r.env) (depth + 1) r.decl.body)
      (bodyMachine ctx m₁ r args) result) :
    Eventually ctx (fun sub => resolveCall ctx sub env depth mark functor arguments) m result := by
  obtain ⟨n, hn⟩ := hargs
  obtain ⟨n', hn'⟩ := hbody
  refine ⟨max n n', fun fuel hfuel => ?_⟩
  dsimp only
  rw [resolveCall_of_rule hentry, (resolveRule_of_fits hfits).1 args (hn fuel (by omega))]
  exact hn' fuel (by omega)

theorem rule_agrees (htracks : Machine.Tracks base base' m m') {vs vs' : List Value}
    {m₁ m₁' : Machine}
    (hfound : found? ctx.table (env.map m.frame) mark functor = some (.rule r))
    (hfound' : found? ctx.table (env.map m'.frame) mark functor = some (.rule r))
    (hvs : Eventually ctx (fun sub => expressions sub env arguments) m (.ok vs m₁))
    (hvs' : Eventually ctx (fun sub => expressions sub env arguments) m' (.ok vs' m₁'))
    (hvalued : Valued m m₁) (hvaluedTracks : Machine.Tracks base base' m₁ m₁')
    (hlength : vs.length = arguments.length)
    (hargs : List.Forall₂ (Value.Tracks base.objects.size) vs vs')
    (hbody : ∀ m₁ m₁' env', Machine.Tracks base base' m₁ m₁' →
      m₁.Encloses env' r.scope r.decl.parameters →
      Agree ctx base base' m₁ m₁' (fun sub => sub.resolve env' (depth + 1) r.decl.body)
        (fun sub => sub.resolve env' (depth + 1) r.decl.body)) :
    Agree ctx base base' m m'
      (fun sub => resolveCall ctx sub env depth mark functor arguments)
      (fun sub => resolveCall ctx sub env depth mark functor arguments) := by
  by_cases hfits : Fits ctx.table arguments r.decl.parameters
  · have hbodies : Machine.Tracks base base' (bodyMachine ctx m₁ r vs)
        (bodyMachine ctx m₁' r vs') := tracks_body hvaluedTracks hargs
    obtain ⟨result, result', hresult, hresult', hagrees⟩ := hbody _ _ _ hbodies
      (encloses_body (hlength.trans hfits.1))
    refine ⟨result, result', rule_eventually hfound hfits hvs hresult,
      rule_eventually hfound' hfits hvs' ?_,
      hagrees.of_intact (hvalued.intact.trans (.bodyMachine ctx m₁ r vs))⟩
    rw [hvaluedTracks.size]
    exact hresult'
  · refine ⟨.ok false m, .ok false m', .of_forall fun fuel => ?_, .of_forall fun fuel => ?_, id,
      .refl m, htracks⟩
    · rw [resolveCall_of_rule hfound]
      exact resolveRule_of_unfit hfits
    · rw [resolveCall_of_rule hfound']
      exact resolveRule_of_unfit hfits

/-- Calls agree if the bodies of rules do, one body deeper. -/
theorem call_agrees (hgains : base.Gains base') (hfacts : base.FactsWithin)
    (htracks : Machine.Tracks base base' m m') (hm : m.Encloses env scope parameters)
    (hgiven : Expr.areGiven ctx.table scope parameters arguments = true)
    (hbody : ∀ r, found? ctx.table (env.map m.frame) mark functor = some (.rule r) →
      ∀ m₁ m₁' env', Machine.Tracks base base' m₁ m₁' →
        m₁.Encloses env' r.scope r.decl.parameters →
        Agree ctx base base' m₁ m₁' (fun sub => sub.resolve env' (depth + 1) r.decl.body)
          (fun sub => sub.resolve env' (depth + 1) r.decl.body)) :
    Agree ctx base base' m m'
      (fun sub => resolveCall ctx sub env depth mark functor arguments)
      (fun sub => resolveCall ctx sub env depth mark functor arguments) := by
  have harguments : ∀ m, m.Encloses env scope parameters → ∃ vs m₁,
      Eventually ctx (fun sub => expressions sub env arguments) m (.ok vs m₁) ∧ Valued m m₁ ∧
        List.Forall₂ (fun e v => e.Means ctx.table m env v) arguments vs := fun m hm =>
    expressions_given arguments m hgiven hm
  obtain ⟨vs, m₁, hvs, hvalued, hmeans⟩ := harguments m hm
  obtain ⟨vs', m₁', hvs', hvalued', hmeans'⟩ := harguments m' (htracks.encloses hm)
  have hargs := htracks.means_all hmeans hmeans'
  have hvaluedTracks := htracks.valued hvalued hvalued'
  have hentry : Entry.Gains (found? ctx.table (env.map m.frame) mark functor)
      (found? ctx.table (env.map m'.frame) mark functor) := found?_gains hgains htracks mark functor
  rcases hentry.cases with ⟨hfound, hfound'⟩ | ⟨hfound, tuples', hfound'⟩ |
    ⟨tuples, tuples', hfound, hfound', hsub⟩ | ⟨r, hfound, hfound'⟩
  · exact ⟨_, _, .of_forall fun _ => resolveCall_of_none hfound,
      .of_forall fun _ => resolveCall_of_none hfound', id, .refl m, htracks⟩
  · exact ⟨_, _, .of_forall fun _ => resolveCall_of_none hfound,
      facts_eventually hfound' hvs' hvalued', nofun, .refl m, htracks.valued ⟨.refl m, rfl⟩ hvalued'⟩
  · obtain ⟨d, owner, f, -, -, -, hget⟩ := found?_eq_some hfound
    rw [htracks.left.stores] at hget
    exact ⟨_, _, facts_eventually hfound hvs hvalued, facts_eventually hfound' hvs' hvalued',
      Entry.contains_of_tracks hsub (hfacts f functor tuples hget) hargs, hvalued.intact,
      hvaluedTracks⟩
  · exact rule_agrees htracks hfound hfound' hvs hvs' hvalued hvaluedTracks
      hmeans.length_eq.symm hargs (hbody r hfound)

end Call

/-- Resolutions in two such machines agree. The induction is on how many rule bodies the limit
leaves, and for each on the logic expression. -/
theorem resolve_agrees (hgains : base.Gains base') (hfacts : base.FactsWithin)
    (hrules : base.AllRules fun _ r => r.decl.body.isPositive = true ∧
      r.decl.body.isGiven ctx.table r.scope r.decl.parameters = true)
    (depth : Nat) {goal : Goal} (hpositive : goal.isPositive = true)
    (hgiven : goal.isGiven ctx.table scope parameters = true)
    (htracks : Machine.Tracks base base' m m') (hm : m.Encloses env scope parameters) :
    Agree ctx base base' m m' (fun sub => sub.resolve env depth goal)
      (fun sub => sub.resolve env depth goal) := by
  induction hk : ctx.maxDepth + 1 - depth
    generalizing depth goal env m m' scope parameters with
  | zero =>
    have hover : ctx.maxDepth < depth := by omega
    have hstop : ∀ m, Eventually ctx (fun sub => sub.resolve env depth goal) m
        (.error (.fault ⟨.depthExceeded, some goal.ref⟩) m) := fun _ =>
      .of_step (fun _ => if_pos hover) (.of_forall fun _ => rfl)
    exact ⟨_, _, hstop m, hstop m', rfl, rfl⟩
  | succ k ih =>
    have hnot : ¬ ctx.maxDepth < depth := by omega
    have hstep : ∀ {goal : Goal} {form : Evaluator → Eval Bool} {m m'},
        (∀ sub, resolve ctx sub env depth goal = form sub) →
        Agree ctx base base' m m' form form →
        Agree ctx base base' m m' (fun sub => sub.resolve env depth goal)
          (fun sub => sub.resolve env depth goal) := by
      rintro goal form m m' hform ⟨result, result', hresult, hresult', hagrees⟩
      exact ⟨result, result', .of_step hform hresult, .of_step hform hresult', hagrees⟩
    induction goal generalizing m m' with
    | atom mark name =>
      refine hstep (fun _ => if_neg hnot) ⟨_, _, .of_forall fun _ => rfl, .of_forall fun _ => rfl, ?_⟩
      exact ⟨id, .refl m, htracks⟩
    | call mark functor arguments =>
      refine hstep (fun _ => if_neg hnot) (call_agrees hgains hfacts htracks hm hgiven ?_)
      intro r hfound m₁ m₁' env' htracks' hm'
      obtain ⟨d, owner, f, -, -, -, hget⟩ := found?_eq_some hfound
      rw [htracks.left.stores] at hget
      have hr := hrules f functor r hget
      exact ih (depth + 1) hr.1 hr.2 htracks' hm' (by omega)
    | paren mark inner ihinner =>
      exact hstep (fun _ => if_neg hnot) (ihinner hpositive hgiven htracks hm)
    | not mark operand ihoperand => cases hpositive
    | binary mark op left right ihleft ihright =>
      simp only [Goal.isPositive, Goal.isGiven, Bool.and_eq_true] at hpositive hgiven
      refine hstep (fun _ => if_neg hnot) ?_
      refine (ihleft hpositive.1 hgiven.1 htracks hm).bind fun a a' m₁ m₁' ha hm₁ htracks₁ => ?_
      refine (ihright hpositive.2 hgiven.2 htracks₁ (hm.mono hm₁.frames)).bind
        fun b b' m₂ m₂' hb _ htracks₂ => .pure (fun hop => ?_) htracks₂
      cases op with
      | and =>
        simp only [LogicOp.apply, Bool.and_eq_true] at hop ⊢
        exact ⟨ha hop.1, hb hop.2⟩
      | or =>
        simp only [LogicOp.apply, Bool.or_eq_true] at hop ⊢
        exact hop.imp ha hb

end Eval

/-- Whether a resolution ended with this answer. -/
def Eval.Answers (result : EStateM.Result Halt Machine Bool) (b : Bool) : Prop :=
  ∃ m, result = .ok b m

/-- Whether a resolution was given up at a node because too many rule bodies were nested in one
another. -/
def Eval.Exceeds (result : EStateM.Result Halt Machine Bool) (node : Option NodeRef) : Prop :=
  ∃ m, result = .error (.fault ⟨.depthExceeded, node⟩) m

/-- Logic expressions without negation are monotone in the facts. If facts are added to the stores
of a machine, such an expression that was true is still true, and whether the limit is exceeded, and
where, does not depend on the facts. It is enough that the arguments are literals or parameters, in
the expression and in the bodies of all rules. -/
theorem resolve_monotone {ctx : Context} {m m' : Machine} {env : Env} {scope : ScopeId}
    {parameters : List Parameter} {goal : Goal} (hgains : m.Gains m') (hfacts : m.FactsWithin)
    (hrules : m.AllRules fun _ r => r.decl.body.isPositive = true ∧
      r.decl.body.isGiven ctx.table r.scope r.decl.parameters = true)
    (hpositive : goal.isPositive = true)
    (hgiven : goal.isGiven ctx.table scope parameters = true)
    (hencloses : m.Encloses env scope parameters) :
    ∃ n result result', (∀ fuel, n ≤ fuel →
        (evaluator ctx fuel).resolve env 0 goal m = result ∧
        (evaluator ctx fuel).resolve env 0 goal m' = result') ∧
      (Answers result true → Answers result' true) ∧
      (∀ node, Exceeds result node ↔ Exceeds result' node) ∧
      ((∃ b, Answers result b) ∨ ∃ node, Exceeds result node) := by
  obtain ⟨result, result', ⟨n, hn⟩, ⟨n', hn'⟩, hagrees⟩ :=
    resolve_agrees hgains hfacts hrules 0 hpositive hgiven hgains.tracks hencloses
  refine ⟨max n n', result, result', fun fuel hfuel =>
    ⟨hn fuel (by omega), hn' fuel (by omega)⟩, ?_⟩
  unfold Agrees at hagrees
  split at hagrees
  · rename_i b m₁ b' m₁'
    refine ⟨?_, fun node => ⟨nofun, nofun⟩, .inl ⟨b, m₁, rfl⟩⟩
    rintro ⟨_, ⟨⟩⟩
    exact ⟨m₁', by rw [hagrees.1 rfl]⟩
  · rename_i f m₁ f' m₁'
    obtain ⟨hcause, rfl⟩ := hagrees
    obtain ⟨cause, place⟩ := f'
    cases hcause
    refine ⟨nofun, fun node => ⟨?_, ?_⟩, .inr ⟨place, m₁, rfl⟩⟩
    · rintro ⟨_, ⟨⟩⟩
      exact ⟨m₁', rfl⟩
    · rintro ⟨_, ⟨⟩⟩
      exact ⟨m₁, rfl⟩
  · exact hagrees.elim

open Derivation.Sample in
/-- The call of the rule is true with one fact, and so it is with one more. -/
theorem resolve_with_more_facts :
    ∃ store, (machine.frame 0).predicates.addFact "q" [.int 2] = .ok store ∧
      ∃ n m₁, ∀ fuel, n ≤ fuel →
        (evaluator ⟨table, 1⟩ fuel).resolve [0] 0 goal (machine.setStore 0 store) = .ok true m₁ := by
  obtain ⟨store, hstore⟩ : ∃ store,
      (machine.frame 0).predicates.addFact "q" [.int 2] = .ok store := ⟨_, rfl⟩
  have hfacts : machine.FactsWithin := fun f functor _ h => complete.filed f functor _ h
  have hrules : machine.AllRules fun _ r => r.decl.body.isPositive = true ∧
      r.decl.body.isGiven table r.scope r.decl.parameters = true := by
    intro f functor r hr
    rw [eq_rule hr]
    exact ⟨rfl, rfl⟩
  obtain ⟨n, result, result', hn, hmonotone, -⟩ :=
    @resolve_monotone ⟨table, 1⟩ machine _ [0] 0 [] goal (.addFact (.refl machine) hstore) hfacts
      hrules rfl rfl (.inl rfl)
  have htrue : ∃ m₁, (evaluator ⟨table, 1⟩ (n + 4)).resolve [0] 0 goal machine = .ok true m₁ :=
    ⟨_, rfl⟩
  rw [(hn (n + 4) (by omega)).1] at htrue
  obtain ⟨m₁, hm₁⟩ := hmonotone htrue
  exact ⟨store, hstore, n, m₁, fun fuel hfuel => (hn fuel hfuel).2.trans hm₁⟩

end LogicScript
