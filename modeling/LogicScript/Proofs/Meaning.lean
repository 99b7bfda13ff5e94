import LogicScript.Proofs.Operations

/-! The meaning of logic expressions, and how far a resolution with a limit reaches.

A logic expression has its meaning in a chain of frames. The frames do not change while it is
resolved, so they stand for themselves here and not for their positions in a machine; a machine is
at hand only for the frames that a rule was declared in. -/
namespace LogicScript

open Eval

def Expr.isPlain : Expr → Bool
  | .int _ _ | .float _ _ | .string _ _ | .bool _ _ | .null _ | .logic (.atom _ _)
  | .reference _ => true
  | _ => false

/-- All arguments in a logic expression are literals or uses of names. -/
def Goal.isPlain : Goal → Bool
  | .atom _ _ => true
  | .call _ _ arguments => arguments.all (·.isPlain)
  | .paren _ inner => inner.isPlain
  | .not _ operand => operand.isPlain
  | .binary _ _ left right => left.isPlain && right.isPlain

/-- The value that a name stands for in a chain of frames. -/
def Reference.value? (table : Table) (chain : List Frame) (r : Reference) : Option Value :=
  match (table.attributes r.mark.id).decl with
  | none => none
  | some (.builtinFunction name) => some (.native name)
  | some (.builtinType p) => some (.type p.name none)
  | some (.function d) => some (.function d)
  | some (.struct d) => some (.type d.name (some d))
  | some _ =>
    (table.attributes r.mark.id).scope.bind fun scope =>
      (chain.find? (·.scope == scope)).bind fun frame => frame.bindings.get? r.name

/-- The value of a literal or of a name. -/
def Expr.value? (table : Table) (chain : List Frame) : Expr → Option Value
  | .int _ i => some (.int i)
  | .float _ x => some (.float x)
  | .string _ s => some (.string s)
  | .bool _ b => some (.bool b)
  | .null _ => some .null
  | .logic (.atom _ name) => some (.atom name)
  | .reference r => r.value? table chain
  | _ => none

def argumentValues? (table : Table) (chain : List Frame) : List Expr → Option (List Value)
  | [] => some []
  | e :: es => (e.value? table chain).bind fun v => (argumentValues? table chain es).map (v :: ·)

/-- What the chain holds for the functor of a predicate call. -/
def found? (table : Table) (chain : List Frame) (mark : Mark) (functor : String) : Option Entry :=
  (table.attributes mark.id).decl.bind fun _ =>
    (table.attributes mark.id).scope.bind fun scope =>
      (chain.find? (·.scope == scope)).bind fun frame => frame.predicates.get? functor

/-- There are as many arguments as parameters, and each can be stored in its parameter. -/
def Fits (table : Table) (arguments : List Expr) (parameters : List Parameter) : Prop :=
  arguments.length = parameters.length ∧ ∀ e p, (e, p) ∈ arguments.zip parameters →
    (table.typeOf e.mark).assignable (table.typeOf p.mark) = true

/-- The values of parameters, widened to their types. -/
def parameterBindings (table : Table) :
    List Parameter → List Value → Bindings Value → Bindings Value
  | p :: ps, v :: vs, bound =>
    parameterBindings table ps vs (bound.set p.name (v.widen (table.typeOf p.mark)))
  | _, _, bound => bound

def Rule.frame (table : Table) (r : Rule) (args : List Value) : Frame where
  scope := r.scope
  bindings := parameterBindings table r.decl.parameters args ∅

/-- Why a logic expression is true or false, without any limit. -/
inductive Derivation (table : Table) (m : Machine) : List Frame → Goal → Bool → Type
  | atom {chain : List Frame} {mark : Mark} {name : String} {b : Bool}
      (hb : b = true ↔ ∃ node name, (table.attributes mark.id).decl = some (.atom node name)) :
      Derivation table m chain (.atom mark name) b
  | absent {chain : List Frame} {mark : Mark} {functor : String} {arguments : List Expr}
      (hentry : found? table chain mark functor = none) :
      Derivation table m chain (.call mark functor arguments) false
  /-- Facts are asked for each argument by itself. -/
  | facts {chain : List Frame} {mark : Mark} {functor : String} {arguments : List Expr}
      {tuples : List (List Value)} {args : List Value} {b : Bool}
      (hentry : found? table chain mark functor = some (.facts tuples))
      (hargs : argumentValues? table chain arguments = some args)
      (hb : b = true ↔ ∀ v ∈ args, ∃ tuple ∈ tuples, ∃ w ∈ tuple, w.equal v = true) :
      Derivation table m chain (.call mark functor arguments) b
  | unfit {chain : List Frame} {mark : Mark} {functor : String} {arguments : List Expr} {r : Rule}
      (hentry : found? table chain mark functor = some (.rule r))
      (hunfit : ¬ Fits table arguments r.decl.parameters) :
      Derivation table m chain (.call mark functor arguments) false
  /-- The body of a rule has a new frame under those that the rule was declared in. -/
  | rule {chain : List Frame} {mark : Mark} {functor : String} {arguments : List Expr} {r : Rule}
      {args : List Value} {b : Bool}
      (hentry : found? table chain mark functor = some (.rule r))
      (hfits : Fits table arguments r.decl.parameters)
      (hargs : argumentValues? table chain arguments = some args)
      (body : Derivation table m (r.frame table args :: r.env.map m.frame) r.decl.body b) :
      Derivation table m chain (.call mark functor arguments) b
  | paren {chain : List Frame} {mark : Mark} {inner : Goal} {b : Bool}
      (h : Derivation table m chain inner b) : Derivation table m chain (.paren mark inner) b
  | not {chain : List Frame} {mark : Mark} {operand : Goal} {b : Bool}
      (h : Derivation table m chain operand b) : Derivation table m chain (.not mark operand) !b
  | and {chain : List Frame} {mark : Mark} {left right : Goal} {a b : Bool}
      (hl : Derivation table m chain left a) (hr : Derivation table m chain right b) :
      Derivation table m chain (.binary mark .and left right) (a && b)
  | or {chain : List Frame} {mark : Mark} {left right : Goal} {a b : Bool}
      (hl : Derivation table m chain left a) (hr : Derivation table m chain right b) :
      Derivation table m chain (.binary mark .or left right) (a || b)

namespace Derivation

variable {table : Table} {m : Machine} {chain : List Frame} {goal : Goal} {b b' : Bool}

/-- How many rule bodies are nested in one another. -/
def nesting {chain : List Frame} {goal : Goal} {b : Bool} :
    Derivation table m chain goal b → Nat
  | .atom _ | .absent _ | .facts _ _ _ | .unfit _ _ => 0
  | .rule _ _ _ body => body.nesting + 1
  | .paren h | .not h => h.nesting
  | .and hl hr | .or hl hr => max hl.nesting hr.nesting

theorem unique (d : Derivation table m chain goal b) (d' : Derivation table m chain goal b') :
    b = b' := by
  induction d generalizing b' with
  | atom hb =>
    cases d' with
    | atom hb' => exact Bool.eq_iff_iff.mpr (hb.trans hb'.symm)
  | absent hentry => cases d' <;> simp_all
  | facts hentry hargs hb =>
    cases d' with
    | facts hentry' hargs' hb' =>
      simp only [hentry, hargs, Option.some.injEq, Entry.facts.injEq] at hentry' hargs'
      subst hentry' hargs'
      exact Bool.eq_iff_iff.mpr (hb.trans hb'.symm)
    | _ => simp_all
  | unfit hentry hunfit => cases d' <;> simp_all
  | rule hentry hfits hargs body ih =>
    cases d' with
    | rule hentry' hfits' hargs' body' =>
      simp only [hentry, hargs, Option.some.injEq, Entry.rule.injEq] at hentry' hargs'
      subst hentry' hargs'
      exact ih body'
    | _ => simp_all
  | paren h ih =>
    cases d' with
    | paren h' => exact ih h'
  | not h ih =>
    cases d' with
    | not h' => rw [ih h']
  | and hl hr ihl ihr =>
    cases d' with
    | and hl' hr' => rw [ihl hl', ihr hr']
  | or hl hr ihl ihr =>
    cases d' with
    | or hl' hr' => rw [ihl hl', ihr hr']

/-- A call of a rule that fits is derived from the body of the rule only. -/
theorem of_rule {mark : Mark} {functor : String} {arguments : List Expr} {r : Rule}
    (d : Derivation table m chain (.call mark functor arguments) b)
    (hentry : found? table chain mark functor = some (.rule r))
    (hfits : Fits table arguments r.decl.parameters) :
    ∃ args, argumentValues? table chain arguments = some args ∧
      ∃ body : Derivation table m (r.frame table args :: r.env.map m.frame) r.decl.body b,
        d.nesting = body.nesting + 1 := by
  cases d with
  | absent hentry' => simp [hentry] at hentry'
  | facts hentry' => simp [hentry] at hentry'
  | unfit hentry' hunfit =>
    simp only [hentry, Option.some.injEq, Entry.rule.injEq] at hentry'
    subst hentry'
    exact absurd hfits hunfit
  | rule hentry' hfits' hargs body =>
    simp only [hentry, Option.some.injEq, Entry.rule.injEq] at hentry'
    subst hentry'
    exact ⟨_, hargs, body, rfl⟩

end Derivation

theorem any_isAtom_iff (decl : Option Decl) :
    decl.any (·.isAtom) = true ↔ ∃ mark name, decl = some (.atom mark name) := by
  cases decl with
  | none => simp
  | some d => cases d <;> simp [Decl.isAtom]

theorem Eval.fits_iff (table : Table) (arguments : List Expr) (parameters : List Parameter) :
    fits table arguments parameters = true ↔ Fits table arguments parameters := by
  unfold Fits
  induction arguments generalizing parameters with
  | nil => cases parameters <;> simp [fits]
  | cons e es ih =>
    cases parameters with
    | nil => simp [fits]
    | cons p ps =>
      simp only [fits, Bool.and_eq_true, ih, List.length_cons, Nat.add_right_cancel_iff,
        List.zip_cons_cons, List.mem_cons, Prod.mk.injEq]
      constructor
      · rintro ⟨hp, hlength, hrest⟩
        refine ⟨hlength, ?_⟩
        rintro e' p' (⟨rfl, rfl⟩ | h)
        · exact hp
        · exact hrest e' p' h
      · rintro ⟨hlength, h⟩
        exact ⟨h e p (.inl ⟨rfl, rfl⟩), hlength, fun e' p' hmem => h e' p' (.inr hmem)⟩

theorem Entry.contains_facts_iff (tuples : List (List Value)) (args : List Value) :
    (Entry.facts tuples).contains args = true ↔
      ∀ v ∈ args, ∃ tuple ∈ tuples, ∃ w ∈ tuple, w.equal v = true := by
  simp only [contains, mentions, Entry.tuples, List.all_eq_true, List.any_eq_true]

namespace Machine

theorem find?_map_frame (m : Machine) (env : Env) (scope : ScopeId) :
    (env.map m.frame).find? (·.scope == scope) = (m.frameOf? env scope).map m.frame :=
  List.find?_map ..

/-- The frames of a machine are still the same in another one, which may have more. -/
def Retained (m m' : Machine) : Prop :=
  m.frames.size ≤ m'.frames.size ∧ ∀ f < m.frames.size, m'.frame f = m.frame f

theorem Retained.refl (m : Machine) : m.Retained m := ⟨Nat.le_refl _, fun _ _ => rfl⟩

theorem Retained.trans {m₁ m₂ m₃ : Machine} (h : m₁.Retained m₂) (h' : m₂.Retained m₃) :
    m₁.Retained m₃ :=
  ⟨Nat.le_trans h.1 h'.1, fun f hf => by rw [h'.2 f (by have := h.1; omega), h.2 f hf]⟩

theorem Retained.map_frame {m m' : Machine} (h : m.Retained m') {env : Env}
    (henv : ∀ f ∈ env, f < m.frames.size) : env.map m'.frame = env.map m.frame :=
  List.map_congr_left fun f hf => h.2 f (henv f hf)

theorem frame_bindAll (t : Table) (f i : FrameId) (ps : List Parameter) (vs : List Value)
    {m : Machine} (hf : f < m.frames.size) :
    (m.bindAll t f ps vs).frame i =
      if i = f then { m.frame f with bindings := parameterBindings t ps vs (m.frame f).bindings }
      else m.frame i := by
  induction ps generalizing m vs with
  | nil =>
    simp only [bindAll, parameterBindings]
    split <;> simp_all
  | cons p ps ih =>
    cases vs with
    | nil =>
      simp only [bindAll, parameterBindings]
      split <;> simp_all
    | cons v vs =>
      rw [bindAll, ih vs (by simpa using hf)]
      simp only [define, frame_updateFrame]
      by_cases hi : i = f
      · subst hi
        simp [hf, parameterBindings]
      · simp [hi, Ne.symm hi]

theorem size_bindAll (t : Table) (f : FrameId) (ps : List Parameter) (vs : List Value)
    (m : Machine) : (m.bindAll t f ps vs).frames.size = m.frames.size := by
  induction ps generalizing m vs with
  | nil => rfl
  | cons p ps ih =>
    cases vs with
    | nil => rfl
    | cons v vs => rw [bindAll, ih, size_define]

end Machine

namespace Eval

variable {α β : Type} {ctx : Context} {sub : Evaluator} {env : Env} {m : Machine}

/-- An evaluation leaves the machine as it was and gives a value, or a fault if there is none. -/
def Gives (x : Eval α) (m : Machine) : Option α → Prop
  | some a => x m = .ok a m
  | none => ∃ f, x m = .error (.fault f) m

theorem Gives.attach {x : Eval α} {a : Option α} {node : NodeRef} (h : Gives x m a) :
    Gives (attach node x) m a := by
  cases a with
  | some a => exact attach_of_ok h
  | none =>
    obtain ⟨f, hf⟩ := h
    exact ⟨_, attach_of_fault hf⟩

theorem Gives.bind {x : Eval α} {f : α → Eval β} {a : Option α} {g : α → Option β}
    (h : Gives x m a) (hf : ∀ v, Gives (f v) m (g v)) : Gives (x >>= f) m (a.bind g) := by
  cases a with
  | some a =>
    have hx : (x >>= f) m = f a m := bind_of_ok h
    have hfa := hf a
    unfold Gives at hfa ⊢
    rw [hx]
    exact hfa
  | none =>
    obtain ⟨e, he⟩ := h
    exact ⟨e, bind_of_error he⟩

theorem gives_scopeOf (ctx : Context) (m : Machine) (node : NodeRef) :
    Gives (scopeOf ctx node) m (ctx.table.attributes node.mark.id).scope := by
  unfold scopeOf
  cases (ctx.table.attributes node.mark.id).scope with
  | none => exact ⟨_, rfl⟩
  | some scope => rfl

theorem gives_read (ctx : Context) (env : Env) (m : Machine) (scope : ScopeId) (name : String) :
    Gives (read ctx env scope name) m
      (((env.map m.frame).find? (·.scope == scope)).bind (·.bindings.get? name)) := by
  have hread : read ctx env scope name m = lift (m.read ctx.table.scopes env scope name) m := rfl
  rw [Machine.find?_map_frame]
  unfold Gives
  rw [hread]
  unfold Machine.read
  cases m.frameOf? env scope with
  | none => exact ⟨_, rfl⟩
  | some f =>
    dsimp only [Option.map_some, Option.bind_some]
    cases (m.frame f).bindings.get? name with
    | none => exact ⟨_, rfl⟩
    | some v => rfl

theorem gives_reference (r : Reference) :
    Gives (reference ctx env r) m (r.value? ctx.table (env.map m.frame)) := by
  unfold reference Reference.value?
  cases (ctx.table.attributes r.mark.id).decl with
  | none => exact ⟨_, rfl⟩
  | some d =>
    have hread := (gives_scopeOf ctx m ⟨.reference, r.mark⟩).bind fun scope =>
      gives_read ctx env m scope r.name
    cases d with
    | builtinType p => rfl
    | builtinFunction name => rfl
    | function d => rfl
    | struct d => rfl
    | _ => exact hread

theorem gives_expression {e : Expr} (he : e.isPlain = true) :
    Gives (expression ctx sub env e) m (e.value? ctx.table (env.map m.frame)) := by
  refine Gives.attach ?_
  cases e with
  | int mark i => rfl
  | float mark x => rfl
  | string mark s => rfl
  | bool mark b => rfl
  | null mark => rfl
  | reference r => exact gives_reference r
  | logic goal =>
    cases goal with
    | atom mark name => rfl
    | _ => cases he
  | _ => cases he

theorem gives_expressions {es : List Expr} (hes : es.all (·.isPlain) = true) (fuel : Nat) :
    Gives (expressions (evaluator ctx (fuel + 1)) env es) m
      (argumentValues? ctx.table (env.map m.frame) es) := by
  induction es with
  | nil => rfl
  | cons e es ih =>
    simp only [List.all_cons, Bool.and_eq_true] at hes
    refine (gives_expression hes.1).bind fun v => ?_
    have hrest := (ih hes.2).bind (f := fun vs => pure (v :: vs)) (g := fun vs => some (v :: vs))
      fun vs => rfl
    simpa [Option.map_eq_bind, Function.comp_def] using hrest

theorem expressions_plain {es : List Expr} (hes : es.all (·.isPlain) = true) (fuel : Nat) :
    expressions (evaluator ctx (fuel + 1)) env es = expressions (evaluator ctx 1) env es := by
  induction es with
  | nil => rfl
  | cons e es ih =>
    simp only [List.all_cons, Bool.and_eq_true] at hes
    have he : (evaluator ctx (fuel + 1)).expression env e = (evaluator ctx 1).expression env e := by
      cases e with
      | logic goal => cases goal <;> first | rfl | cases hes.1
      | _ => first | rfl | cases hes.1
    rw [expressions, expressions, he, ih hes.2]

theorem expressions_cases (ctx : Context) (env : Env) (m : Machine) {es : List Expr}
    (hes : es.all (·.isPlain) = true) :
    (∃ args, argumentValues? ctx.table (env.map m.frame) es = some args ∧
      ∀ fuel, expressions (evaluator ctx (fuel + 1)) env es m = .ok args m) ∨
    (argumentValues? ctx.table (env.map m.frame) es = none ∧
      ∃ f, ∀ fuel, expressions (evaluator ctx (fuel + 1)) env es m = .error (.fault f) m) := by
  have hgives : Gives (expressions (evaluator ctx 1) env es) m _ := gives_expressions hes 0
  simp only [expressions_plain hes]
  cases hargs : argumentValues? ctx.table (env.map m.frame) es with
  | some args =>
    rw [hargs] at hgives
    exact .inl ⟨args, rfl, fun _ => hgives⟩
  | none =>
    rw [hargs] at hgives
    obtain ⟨f, hf⟩ := hgives
    exact .inr ⟨rfl, f, fun _ => hf⟩

/-- With enough fuel an evaluation always comes to the same result. -/
def Eventually (ctx : Context) (x : Evaluator → Eval α) (m : Machine)
    (r : EStateM.Result Halt Machine α) : Prop :=
  ∃ n, ∀ fuel, n ≤ fuel → x (evaluator ctx fuel) m = r

namespace Eventually

theorem of_forall {x : Evaluator → Eval α} {r : EStateM.Result Halt Machine α}
    (h : ∀ fuel, x (evaluator ctx (fuel + 1)) m = r) : Eventually ctx x m r := by
  refine ⟨1, fun fuel hfuel => ?_⟩
  obtain ⟨n, rfl⟩ : ∃ n, fuel = n + 1 := ⟨fuel - 1, by omega⟩
  exact h n

theorem bind_ok {x : Evaluator → Eval α} {f : Evaluator → α → Eval β} {a : α} {m₁ : Machine}
    {r : EStateM.Result Halt Machine β} (hx : Eventually ctx x m (.ok a m₁))
    (hf : Eventually ctx (f · a) m₁ r) : Eventually ctx (fun sub => x sub >>= f sub) m r := by
  obtain ⟨n, hn⟩ := hx
  obtain ⟨n', hn'⟩ := hf
  refine ⟨max n n', fun fuel hfuel => ?_⟩
  exact (bind_of_ok (hn fuel (by omega))).trans (hn' fuel (by omega))

theorem bind_error {x : Evaluator → Eval α} {f : Evaluator → α → Eval β} {e : Halt} {m₁ : Machine}
    (hx : Eventually ctx x m (.error e m₁)) :
    Eventually ctx (fun sub => x sub >>= f sub) m (.error e m₁) := by
  obtain ⟨n, hn⟩ := hx
  exact ⟨n, fun fuel hfuel => bind_of_error (hn fuel hfuel)⟩

theorem unique {x : Evaluator → Eval α} {r r' : EStateM.Result Halt Machine α}
    (h : Eventually ctx x m r) (h' : Eventually ctx x m r') : r = r' := by
  obtain ⟨n, hn⟩ := h
  obtain ⟨n', hn'⟩ := h'
  exact (hn (max n n') (by omega)).symm.trans (hn' (max n n') (by omega))

/-- What a step comes to, the evaluator comes to with fuel for one more step. -/
theorem of_step {depth : Nat} {goal : Goal} {form : Evaluator → Eval Bool}
    {r : EStateM.Result Halt Machine Bool}
    (hform : ∀ sub, resolve ctx sub env depth goal = form sub) (h : Eventually ctx form m r) :
    Eventually ctx (fun sub => sub.resolve env depth goal) m r := by
  obtain ⟨n, hn⟩ := h
  refine ⟨n + 1, fun fuel hfuel => ?_⟩
  obtain ⟨k, rfl⟩ : ∃ k, fuel = k + 1 := ⟨fuel - 1, by omega⟩
  exact (congrFun (hform (evaluator ctx k)) m).trans (hn k (by omega))

end Eventually

section Call

variable {depth : Nat} {mark : Mark} {functor : String} {arguments : List Expr}

theorem found?_eq_some {e : Entry} (h : found? ctx.table (env.map m.frame) mark functor = some e) :
    ∃ d scope f, (ctx.table.attributes mark.id).decl = some d ∧
      (ctx.table.attributes mark.id).scope = some scope ∧ m.frameOf? env scope = some f ∧
      (m.frame f).predicates.get? functor = some e := by
  simp only [found?, Machine.find?_map_frame, Option.bind_eq_some_iff, Option.map_eq_some_iff] at h
  obtain ⟨d, hd, scope, hs, frame, ⟨f, hf, rfl⟩, he⟩ := h
  exact ⟨d, scope, f, hd, hs, hf, he⟩

/-- A call with a declaration and a scope is decided by the store of the frame of that scope. -/
theorem resolveCall_apply {d : Decl} {scope : ScopeId}
    (hd : (ctx.table.attributes mark.id).decl = some d)
    (hs : (ctx.table.attributes mark.id).scope = some scope) :
    resolveCall ctx sub env depth mark functor arguments m =
      (match m.frameOf? env scope with
      | none => pure false
      | some f =>
        match (m.frame f).predicates.get? functor with
        | none => pure false
        | some (.facts _) => do
          let args ← expressions sub env arguments
          return (((← get).frame f).predicates.get? functor).any (·.contains args)
        | some (.rule r) => resolveRule ctx sub env depth r arguments : Eval Bool) m := by
  simp only [resolveCall, hd, hs]
  rfl

theorem resolveCall_of_none (h : found? ctx.table (env.map m.frame) mark functor = none) :
    resolveCall ctx sub env depth mark functor arguments m = .ok false m := by
  cases hd : (ctx.table.attributes mark.id).decl with
  | none =>
    simp only [resolveCall, hd]
    rfl
  | some d =>
    cases hs : (ctx.table.attributes mark.id).scope with
    | none =>
      simp only [resolveCall, hd, hs]
      rfl
    | some scope =>
      rw [resolveCall_apply hd hs]
      simp only [found?, Machine.find?_map_frame, hd, hs, Option.bind_some] at h
      cases hf : m.frameOf? env scope with
      | none => rfl
      | some f =>
        simp only [hf, Option.map_some, Option.bind_some] at h
        simp only [h]
        rfl

theorem resolveCall_of_facts {tuples : List (List Value)}
    (h : found? ctx.table (env.map m.frame) mark functor = some (.facts tuples)) :
    (∀ args, expressions sub env arguments m = .ok args m →
      resolveCall ctx sub env depth mark functor arguments m =
        .ok ((Entry.facts tuples).contains args) m) ∧
    ∀ halt, expressions sub env arguments m = .error halt m →
      resolveCall ctx sub env depth mark functor arguments m = .error halt m := by
  obtain ⟨d, scope, f, hd, hs, hf, he⟩ := found?_eq_some h
  rw [resolveCall_apply hd hs]
  simp only [hf, he]
  constructor
  · intro args hargs
    have hany : ((m.frame f).predicates.get? functor).any (·.contains args) =
        (Entry.facts tuples).contains args := by rw [he, Option.any_some]
    rw [bind_of_ok hargs, ← hany]
    rfl
  · intro halt hargs
    exact bind_of_error hargs

theorem resolveCall_of_rule {r : Rule}
    (h : found? ctx.table (env.map m.frame) mark functor = some (.rule r)) :
    resolveCall ctx sub env depth mark functor arguments m =
      resolveRule ctx sub env depth r arguments m := by
  obtain ⟨d, scope, f, hd, hs, hf, he⟩ := found?_eq_some h
  rw [resolveCall_apply hd hs]
  simp only [hf, he]

theorem resolveRule_of_fits {r : Rule} (hfits : Fits ctx.table arguments r.decl.parameters) :
    (∀ args {m₁ : Machine}, expressions sub env arguments m = .ok args m₁ →
      resolveRule ctx sub env depth r arguments m =
        sub.resolve (m₁.frames.size :: r.env) (depth + 1) r.decl.body
          ((m₁.push r.scope).2.bindAll ctx.table m₁.frames.size r.decl.parameters args)) ∧
    ∀ halt m', expressions sub env arguments m = .error halt m' →
      resolveRule ctx sub env depth r arguments m = .error halt m' := by
  simp only [resolveRule, (fits_iff ctx.table arguments r.decl.parameters).mpr hfits, if_true]
  constructor
  · intro args m₁ hargs
    have hbind := bindParameters_apply ctx (Machine.entered_push m₁ r.scope).2 r.env
      r.decl.parameters args
    rw [bind_of_ok hargs]
    exact bind_of_ok hbind
  · intro halt m' hargs
    exact bind_of_error hargs

theorem resolveRule_of_unfit {r : Rule} (hunfit : ¬ Fits ctx.table arguments r.decl.parameters) :
    resolveRule ctx sub env depth r arguments m = .ok false m := by
  rw [← fits_iff, Bool.not_eq_true] at hunfit
  simp only [resolveRule, hunfit]
  rfl

end Call

end Eval

/-- The rules of a frame refer to the first frames of a machine only, and have plain bodies. -/
def Frame.RulesWithin (n : Nat) (frame : Frame) : Prop :=
  ∀ functor r, frame.predicates.get? functor = some (.rule r) →
    (∀ f ∈ r.env, f < n) ∧ r.decl.body.isPlain = true

namespace Eval

variable {ctx : Context} {base m : Machine} {env : Env} {depth : Nat}

/-- What the result of a resolution inside so many rule bodies says about derivations. -/
def Settles (ctx : Context) (base : Machine) (env : Env) (depth : Nat) (goal : Goal)
    (m : Machine) : EStateM.Result Halt Machine Bool → Prop
  | .ok b m' => m.Retained m' ∧ ∃ d : Derivation ctx.table base (env.map m.frame) goal b,
    d.nesting + depth ≤ ctx.maxDepth
  | .error (.fault _) _ => ∀ b (d : Derivation ctx.table base (env.map m.frame) goal b),
    ctx.maxDepth < d.nesting + depth
  | .error .outOfFuel _ => False

/-- The frames that a resolution works in: those of the base are still there, and all rules in the
chain refer to them. -/
structure Above (base : Machine) (m : Machine) (env : Env) : Prop where
  retained : base.Retained m
  within : ∀ f ∈ env, f < m.frames.size
  rules : ∀ f ∈ env, (m.frame f).RulesWithin base.frames.size

theorem Above.mono {m' : Machine} (h : Above base m env) (hm : m.Retained m') :
    Above base m' env where
  retained := h.retained.trans hm
  within f hf := Nat.lt_of_lt_of_le (h.within f hf) hm.1
  rules f hf := by rw [hm.2 f (h.within f hf)]; exact h.rules f hf

section Body

variable {r : Rule} {args : List Value}

def bodyMachine (ctx : Context) (m : Machine) (r : Rule) (args : List Value) : Machine :=
  (m.push r.scope).2.bindAll ctx.table m.frames.size r.decl.parameters args

theorem frame_bodyMachine (f : FrameId) : (bodyMachine ctx m r args).frame f =
    if f = m.frames.size then r.frame ctx.table args else m.frame f := by
  rw [bodyMachine, Machine.frame_bindAll _ _ _ _ _ (by simp)]
  simp only [Machine.frame_push, if_true]
  split <;> simp_all [Rule.frame]

theorem retained_bodyMachine : m.Retained (bodyMachine ctx m r args) := by
  refine ⟨by simp [bodyMachine, Machine.size_bindAll], fun f hf => ?_⟩
  rw [frame_bodyMachine, if_neg (Nat.ne_of_lt hf)]

/-- The chain of the body: the parameters, and the frames the rule was declared in. -/
theorem Above.chain_body (h : Above base m env) (hr : ∀ f ∈ r.env, f < base.frames.size) :
    (m.frames.size :: r.env).map (bodyMachine ctx m r args).frame =
      r.frame ctx.table args :: r.env.map base.frame := by
  rw [List.map_cons, frame_bodyMachine, if_pos rfl]
  rw [(h.retained.trans retained_bodyMachine).map_frame hr]

theorem Above.body (h : Above base m env) (hr : ∀ f ∈ r.env, f < base.frames.size)
    (hbase : ∀ f, (base.frame f).RulesWithin base.frames.size) :
    Above base (bodyMachine ctx m r args) (m.frames.size :: r.env) where
  retained := h.retained.trans retained_bodyMachine
  within := by
    have hsize : (bodyMachine ctx m r args).frames.size = m.frames.size + 1 := by
      simp [bodyMachine, Machine.size_bindAll]
    simp only [List.mem_cons, forall_eq_or_imp, hsize]
    exact ⟨Nat.lt_succ_self _, fun f hf =>
      Nat.lt_succ_of_lt (Nat.lt_of_lt_of_le (hr f hf) h.retained.1)⟩
  rules := by
    simp only [List.mem_cons, forall_eq_or_imp]
    constructor
    · rw [frame_bodyMachine, if_pos rfl]
      intro functor r' hr'
      cases hr'
    · intro f hf
      rw [(h.retained.trans retained_bodyMachine).2 f (hr f hf)]
      exact hbase f

end Body

theorem Settles.rule {mark : Mark} {functor : String} {arguments : List Expr} {r : Rule}
    {args : List Value} {result : EStateM.Result Halt Machine Bool}
    (hentry : found? ctx.table (env.map m.frame) mark functor = some (.rule r))
    (hfits : Fits ctx.table arguments r.decl.parameters)
    (hargs : argumentValues? ctx.table (env.map m.frame) arguments = some args)
    (hchain : (m.frames.size :: r.env).map (bodyMachine ctx m r args).frame =
      r.frame ctx.table args :: r.env.map base.frame)
    (h : Settles ctx base (m.frames.size :: r.env) (depth + 1) r.decl.body
      (bodyMachine ctx m r args) result) :
    Settles ctx base env depth (.call mark functor arguments) m result := by
  unfold Settles at h ⊢
  rw [hchain] at h
  split at h
  · obtain ⟨hretained, d, hd⟩ := h
    refine ⟨retained_bodyMachine.trans hretained, .rule hentry hfits hargs d, ?_⟩
    simp only [Derivation.nesting]
    omega
  · intro b d
    obtain ⟨args', hargs', body, hnesting⟩ := d.of_rule hentry hfits
    rw [hargs] at hargs'
    cases hargs'
    have := h b body
    omega
  · exact h

theorem Settles.of_retained {m₁ : Machine} {goal : Goal}
    {result : EStateM.Result Halt Machine Bool} (hwithin : ∀ f ∈ env, f < m.frames.size)
    (hm : m.Retained m₁) (h : Settles ctx base env depth goal m₁ result) :
    Settles ctx base env depth goal m result := by
  unfold Settles at h ⊢
  rw [hm.map_frame hwithin] at h
  split at h
  · exact ⟨hm.trans h.1, h.2⟩
  · exact h
  · exact h

/-- A failure inside a logic expression settles it if nothing is derived without what failed. -/
theorem Settles.error {goal inner : Goal} {halt : Halt} {m' : Machine}
    (hinner : ∀ b (d : Derivation ctx.table base (env.map m.frame) goal b),
      ∃ b' , ∃ d' : Derivation ctx.table base (env.map m.frame) inner b', d'.nesting ≤ d.nesting)
    (h : Settles ctx base env depth inner m (.error halt m')) :
    Settles ctx base env depth goal m (.error halt m') := by
  cases halt with
  | fault f =>
    intro b d
    obtain ⟨b', d', hle⟩ := hinner b d
    have := h b' d'
    omega
  | outOfFuel => exact h

section Call

variable {mark : Mark} {functor : String} {arguments : List Expr}

theorem facts_settle {tuples : List (List Value)} (hdepth : depth ≤ ctx.maxDepth)
    (hplain : arguments.all (·.isPlain) = true)
    (hentry : found? ctx.table (env.map m.frame) mark functor = some (.facts tuples)) :
    ∃ result, Eventually ctx
      (fun sub => resolveCall ctx sub env depth mark functor arguments) m result ∧
      Settles ctx base env depth (.call mark functor arguments) m result := by
  rcases expressions_cases ctx env m hplain with ⟨args, hargs, hvalues⟩ | ⟨hargs, fault, hvalues⟩
  · refine ⟨_, .of_forall fun fuel => (resolveCall_of_facts hentry).1 args (hvalues fuel),
      .refl m, .facts hentry hargs (Entry.contains_facts_iff tuples args), ?_⟩
    simpa [Derivation.nesting] using hdepth
  · refine ⟨_, .of_forall fun fuel => (resolveCall_of_facts hentry).2 _ (hvalues fuel), ?_⟩
    intro b d
    cases d <;> simp_all

theorem rule_settles {r : Rule} (hdepth : depth ≤ ctx.maxDepth)
    (hplain : arguments.all (·.isPlain) = true)
    (hentry : found? ctx.table (env.map m.frame) mark functor = some (.rule r))
    (hchain : ∀ args, (m.frames.size :: r.env).map (bodyMachine ctx m r args).frame =
      r.frame ctx.table args :: r.env.map base.frame)
    (hbody : ∀ args, ∃ result, Eventually ctx
      (fun sub => sub.resolve (m.frames.size :: r.env) (depth + 1) r.decl.body)
      (bodyMachine ctx m r args) result ∧
      Settles ctx base (m.frames.size :: r.env) (depth + 1) r.decl.body
        (bodyMachine ctx m r args) result) :
    ∃ result, Eventually ctx
      (fun sub => resolveCall ctx sub env depth mark functor arguments) m result ∧
      Settles ctx base env depth (.call mark functor arguments) m result := by
  by_cases hfits : Fits ctx.table arguments r.decl.parameters
  · rcases expressions_cases ctx env m hplain with
      ⟨args, hargs, hvalues⟩ | ⟨hargs, fault, hvalues⟩
    · obtain ⟨result, ⟨n, hn⟩, hsettles⟩ := hbody args
      refine ⟨result, ⟨n + 1, fun fuel hfuel => ?_⟩, hsettles.rule hentry hfits hargs (hchain args)⟩
      obtain ⟨k, rfl⟩ : ∃ k, fuel = k + 1 := ⟨fuel - 1, by omega⟩
      dsimp only
      rw [resolveCall_of_rule hentry, (resolveRule_of_fits hfits).1 args (hvalues k)]
      exact hn (k + 1) (by omega)
    · refine ⟨.error (.fault fault) m, .of_forall fun fuel => ?_, ?_⟩
      · rw [resolveCall_of_rule hentry, (resolveRule_of_fits hfits).2 _ _ (hvalues fuel)]
      · intro b d
        obtain ⟨args, hargs', -⟩ := d.of_rule hentry hfits
        simp [hargs] at hargs'
  · refine ⟨.ok false m, .of_forall fun fuel => ?_, .refl m, .unfit hentry hfits, ?_⟩
    · rw [resolveCall_of_rule hentry]
      exact resolveRule_of_unfit hfits
    · simpa [Derivation.nesting] using hdepth

end Call

section Connectives

variable {mark : Mark} {op : LogicOp} {operand left right : Goal}
  {result : EStateM.Result Halt Machine Bool}

theorem Settles.paren (h : Settles ctx base env depth operand m result) :
    Settles ctx base env depth (.paren mark operand) m result := by
  cases result with
  | ok b m' =>
    obtain ⟨hm, d, hd⟩ := h
    exact ⟨hm, .paren d, hd⟩
  | error halt m' =>
    refine h.error fun b d => ?_
    cases d with
    | paren d => exact ⟨b, d, Nat.le_refl _⟩

theorem not_settles (hnot : ¬ ctx.maxDepth < depth)
    (hresult : Eventually ctx (fun sub => sub.resolve env depth operand) m result)
    (h : Settles ctx base env depth operand m result) :
    ∃ result, Eventually ctx (fun sub => sub.resolve env depth (.not mark operand)) m result ∧
      Settles ctx base env depth (.not mark operand) m result := by
  cases result with
  | ok b m' =>
    obtain ⟨hm, d, hd⟩ := h
    refine ⟨.ok (!b) m', .of_step (fun _ => if_neg hnot) ?_, hm, .not d, hd⟩
    exact hresult.bind_ok (.of_forall fun fuel => rfl)
  | error halt m' =>
    refine ⟨.error halt m', .of_step (fun _ => if_neg hnot) hresult.bind_error, h.error fun b d => ?_⟩
    cases d with
    | not d => exact ⟨_, d, Nat.le_refl _⟩

/-- A failure on one side of a connective settles it, as nothing is derived without both sides. -/
theorem Settles.side {halt : Halt} {m' : Machine} {side : Goal} (hside : side = left ∨ side = right)
    (h : Settles ctx base env depth side m (.error halt m')) :
    Settles ctx base env depth (.binary mark op left right) m (.error halt m') := by
  refine h.error fun b d => ?_
  rcases hside with rfl | rfl
  · cases d with
    | and d d' => exact ⟨_, d, Nat.le_max_left ..⟩
    | or d d' => exact ⟨_, d, Nat.le_max_left ..⟩
  · cases d with
    | and d d' => exact ⟨_, d', Nat.le_max_right ..⟩
    | or d d' => exact ⟨_, d', Nat.le_max_right ..⟩

/-- Both sides of a connective are settled, the right one after the left one. -/
theorem binary_settles (hnot : ¬ ctx.maxDepth < depth) (hwithin : ∀ f ∈ env, f < m.frames.size)
    (hresult : Eventually ctx (fun sub => sub.resolve env depth left) m result)
    (h : Settles ctx base env depth left m result)
    (hright : ∀ m₁, m.Retained m₁ → ∃ result,
      Eventually ctx (fun sub => sub.resolve env depth right) m₁ result ∧
      Settles ctx base env depth right m₁ result) :
    ∃ result, Eventually ctx (fun sub => sub.resolve env depth (.binary mark op left right)) m result ∧
      Settles ctx base env depth (.binary mark op left right) m result := by
  cases result with
  | error halt m' =>
    exact ⟨.error halt m', .of_step (fun _ => if_neg hnot) hresult.bind_error, h.side (.inl rfl)⟩
  | ok a m₁ =>
    obtain ⟨hm₁, dl, hdl⟩ := h
    obtain ⟨result, hnext, hsettles⟩ := hright m₁ hm₁
    have hsettles := hsettles.of_retained hwithin hm₁
    cases result with
    | error halt m' =>
      exact ⟨.error halt m', .of_step (fun _ => if_neg hnot) (hresult.bind_ok hnext.bind_error),
        hsettles.side (.inr rfl)⟩
    | ok b m₂ =>
      obtain ⟨hm₂, dr, hdr⟩ := hsettles
      refine ⟨.ok (op.apply a b) m₂, .of_step (fun _ => if_neg hnot)
        (hresult.bind_ok (hnext.bind_ok (.of_forall fun fuel => rfl))), hm₂, ?_⟩
      cases op with
      | and =>
        refine ⟨.and dl dr, ?_⟩
        simp only [Derivation.nesting]
        omega
      | or =>
        refine ⟨.or dl dr, ?_⟩
        simp only [Derivation.nesting]
        omega

end Connectives

/-- With enough fuel a resolution settles what it is asked. The induction is on how many rule
bodies the limit leaves, and for each on the logic expression. -/
theorem resolve_settles (depth : Nat) (hbase : ∀ f, (base.frame f).RulesWithin base.frames.size)
    {goal : Goal} (hplain : goal.isPlain = true) (h : Above base m env) :
    ∃ result, Eventually ctx (fun sub => sub.resolve env depth goal) m result ∧
      Settles ctx base env depth goal m result := by
  induction hk : ctx.maxDepth + 1 - depth generalizing depth goal env m with
  | zero =>
    have hover : ctx.maxDepth < depth := by omega
    refine ⟨.error (.fault ⟨.depthExceeded, some goal.ref⟩) m, ?_, fun b d => by omega⟩
    exact .of_step (fun _ => if_pos hover) (.of_forall fun fuel => rfl)
  | succ k ih =>
    have hdepth : depth ≤ ctx.maxDepth := by omega
    have hnot : ¬ ctx.maxDepth < depth := by omega
    induction goal generalizing m with
    | atom mark name =>
      have hb := any_isAtom_iff (ctx.table.attributes mark.id).decl
      refine ⟨_, .of_step (fun _ => if_neg hnot) (.of_forall fun fuel => rfl), .refl m, .atom hb,
        ?_⟩
      simpa [Derivation.nesting] using hdepth
    | call mark functor arguments =>
      have hcall : ∃ result, Eventually ctx
          (fun sub => resolveCall ctx sub env depth mark functor arguments) m result ∧
          Settles ctx base env depth (.call mark functor arguments) m result := by
        cases hentry : found? ctx.table (env.map m.frame) mark functor with
        | none =>
          refine ⟨_, .of_forall fun fuel => resolveCall_of_none hentry, .refl m,
            .absent hentry, ?_⟩
          simpa [Derivation.nesting] using hdepth
        | some e =>
          cases e with
          | facts tuples => exact facts_settle hdepth hplain hentry
          | rule r =>
            obtain ⟨d, scope, f, -, -, hf, he⟩ := found?_eq_some hentry
            have hr := h.rules f (List.mem_of_find?_eq_some hf) functor r he
            exact rule_settles hdepth hplain hentry (fun args => h.chain_body hr.1)
              fun args => ih (depth + 1) hr.2 (h.body hr.1 hbase) (by omega)
      obtain ⟨result, hresult, hsettles⟩ := hcall
      exact ⟨result, .of_step (fun _ => if_neg hnot) hresult, hsettles⟩
    | paren mark inner ihinner =>
      obtain ⟨result, hresult, hsettles⟩ := ihinner hplain h
      exact ⟨result, .of_step (fun _ => if_neg hnot) hresult, hsettles.paren⟩
    | not mark operand ihoperand =>
      obtain ⟨result, hresult, hsettles⟩ := ihoperand hplain h
      exact not_settles hnot hresult hsettles
    | binary mark op left right ihleft ihright =>
      simp only [Goal.isPlain, Bool.and_eq_true] at hplain
      obtain ⟨result, hresult, hsettles⟩ := ihleft hplain.1 h
      exact binary_settles hnot h.within hresult hsettles fun m₁ hm₁ => ihright hplain.2 (h.mono hm₁)

end Eval

/-- The frames that a chain and the rules of a machine refer to are there. -/
structure Machine.Closed (m : Machine) (env : Env) : Prop where
  chain : ∀ f ∈ env, f < m.frames.size
  rules : ∀ f functor r, (m.frame f).predicates.get? functor = some (.rule r) →
    ∀ i ∈ r.env, i < m.frames.size

/-- A resolution always ends, and it gives the answer for which there is a derivation with no more
rule bodies inside one another than the limit says, if there is one. -/
theorem resolve_iff_derivation {ctx : Context} {m : Machine} {env : Env} {goal : Goal}
    (hclosed : m.Closed env) (hgoal : goal.isPlain = true)
    (hrules : ∀ f functor r, (m.frame f).predicates.get? functor = some (.rule r) →
      r.decl.body.isPlain = true) :
    ∃ n result, (∀ fuel, n ≤ fuel → (evaluator ctx fuel).resolve env 0 goal m = result) ∧
      (∀ m', result ≠ .error .outOfFuel m') ∧
      ∀ b, (∃ m', result = .ok b m') ↔
        ∃ d : Derivation ctx.table m (env.map m.frame) goal b, d.nesting ≤ ctx.maxDepth := by
  have hbase : ∀ f, (m.frame f).RulesWithin m.frames.size := fun f functor r hr =>
    ⟨hclosed.rules f functor r hr, hrules f functor r hr⟩
  have habove : Above m m env := ⟨.refl m, hclosed.chain, fun f _ => hbase f⟩
  obtain ⟨result, ⟨n, hn⟩, hsettles⟩ := resolve_settles 0 hbase hgoal habove
  refine ⟨n, result, hn, ?_, fun b => ⟨?_, ?_⟩⟩
  · rintro m' rfl
    exact hsettles
  · rintro ⟨m', rfl⟩
    exact hsettles.2
  · rintro ⟨d, hd⟩
    cases result with
    | ok b' m' =>
      obtain ⟨-, d', -⟩ := hsettles
      exact ⟨m', by rw [d.unique d']⟩
    | error halt m' =>
      cases halt with
      | fault f =>
        have := hsettles b d
        omega
      | outOfFuel => exact hsettles.elim

namespace Derivation.Sample

/-- What an analysis would file for a rule `p` of one parameter `x` that asks `q(x)`, and for a
call of it with a literal. -/
def table : Table where
  nodes := #[{},
    { scope := some 0, decl := some (.rule ⟨6, {}⟩ "p") },
    { type := some .int },
    { scope := some 0, decl := some (.fact ⟨7, {}⟩ "q") },
    { scope := some 1, decl := some (.parameter ⟨5, {}⟩ "x"), type := some .int },
    { type := some .int }]

def rule : Rule where
  decl := ⟨⟨6, {}⟩, "p", [⟨⟨5, {}⟩, "x", .simple ⟨8, {}⟩ "Int"⟩],
    .call ⟨3, {}⟩ "q" [.reference ⟨⟨4, {}⟩, "x"⟩]⟩
  scope := 1
  env := [0]

/-- The rule and the fact `q(1)` in the root frame. -/
def machine : Machine where
  frames := #[{ scope := 0, predicates := ⟨⟨[("q", .facts [[.int 1]]), ("p", .rule rule)]⟩⟩ }]

theorem eq_rule {f : FrameId} {functor : String} {r : Rule}
    (h : (machine.frame f).predicates.get? functor = some (.rule r)) : r = rule := by
  cases f with
  | zero =>
    change Bindings.find [("q", Entry.facts [[.int 1]]), ("p", Entry.rule rule)] functor = _ at h
    simp only [Bindings.find] at h
    split at h
    · cases h
    · split at h
      · cases h
        rfl
      · cases h
  | succ f =>
    have hempty : (machine.frame (f + 1)).predicates.get? functor = none := rfl
    rw [hempty] at h
    cases h

def goal : Goal := .call ⟨1, {}⟩ "p" [.int ⟨2, {}⟩ 1]

theorem fits : Fits table [.int ⟨2, {}⟩ 1] rule.decl.parameters :=
  (Eval.fits_iff ..).mp (by decide)

def derivation : Derivation table machine ([0].map machine.frame) goal true :=
  have hbody : Derivation table machine
      (rule.frame table [.int 1] :: rule.env.map machine.frame) rule.decl.body true :=
    .facts rfl rfl (by decide)
  .rule rfl fits rfl hbody

end Derivation.Sample

open Derivation.Sample in
/-- The fact is found in the body of the rule, with no other rule inside. -/
theorem resolve_fact_in_rule :
    ∃ n m', ∀ fuel, n ≤ fuel → (evaluator ⟨table, 1⟩ fuel).resolve [0] 0 goal machine =
      .ok true m' := by
  have hclosed : machine.Closed [0] := by
    refine ⟨by simp [machine], fun f functor r hr i hi => ?_⟩
    rw [eq_rule hr] at hi
    rw [List.mem_singleton.mp hi]
    decide
  have hrules : ∀ f functor r, (machine.frame f).predicates.get? functor = some (.rule r) →
      r.decl.body.isPlain = true := by
    intro f functor r hr
    rw [eq_rule hr]
    rfl
  obtain ⟨n, result, hn, -, hiff⟩ :=
    @resolve_iff_derivation ⟨table, 1⟩ machine [0] goal hclosed rfl hrules
  obtain ⟨m', hm'⟩ := (hiff true).mpr ⟨derivation, Nat.le_refl 1⟩
  exact ⟨n, m', fun fuel hle => (hn fuel hle).trans hm'⟩

end LogicScript
