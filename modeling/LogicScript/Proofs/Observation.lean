import LogicScript.Proofs.Evaluation

/-! Runs that are watched.

An observer looks at every request of a run, when it begins and when it has its answer, and may
stop the run there. So each state that a run passes through is what an observer gets to see who
stops the run in it, and of two states the later one is where the more patient observer stops. -/
namespace LogicScript

open Eval

/-- A request of a run, with its answer if it is already there. -/
inductive Moment
  | expression (env : Env) (e : Expr) (value : Option Value)
  | statement (env : Env) (s : Stmt) (done : Option Completion)
  | rounds (env : Env) (condition : Expr) (body : LoopBody) (done : Option Completion)
  | goal (env : Env) (depth : Nat) (goal : Goal) (answer : Option Bool)

/-- What an observer objects to. It sees inside how many requests a request lies. -/
abbrev Observer := Nat → Moment → Machine → Option Fault

namespace Observer

def silent : Observer := fun _ _ _ => none

/-- Whatever the second observer objects to, the first one objects to as well. -/
def Stricter (o o' : Observer) : Prop :=
  ∀ level moment m, o level moment m = none → o' level moment m = none

theorem Stricter.refl (o : Observer) : o.Stricter o := fun _ _ _ h => h

end Observer

namespace Eval

variable {α : Type}

def check (objection : Machine → Option Fault) : Eval Unit := fun m =>
  match objection m with
  | none => .ok () m
  | some f => .error (.fault f) m

/-- An evaluation that is looked at before and after. -/
def watched (o : Option α → Machine → Option Fault) (x : Eval α) : Eval α := do
  check (o none)
  let a ← x
  check (o (some a))
  return a

theorem watched_silent (x : Eval α) : watched (fun _ _ => none) x = x := by
  funext m
  have hfirst : watched (fun _ _ => none) x m =
      (x >>= fun a => check (fun _ => none) >>= fun _ => pure a) m := rfl
  rw [hfirst]
  cases h : x m with
  | ok a m' => exact bind_of_ok h
  | error e m' => exact bind_of_error h

namespace Evaluator

def watch (o : Moment → Machine → Option Fault) (sub : Evaluator) : Evaluator where
  expression env e := watched (fun v => o (.expression env e v)) (sub.expression env e)
  statement env s := watched (fun done => o (.statement env s done)) (sub.statement env s)
  rounds env condition body :=
    watched (fun done => o (.rounds env condition body done)) (sub.rounds env condition body)
  resolve env depth goal :=
    watched (fun answer => o (.goal env depth goal answer)) (sub.resolve env depth goal)

theorem watch_silent (sub : Evaluator) : sub.watch (fun _ _ => none) = sub := by
  simp only [watch, watched_silent]

end Evaluator

/-- The evaluator with an observer at each of its steps. -/
def observed (ctx : Context) (o : Observer) : Nat → Nat → Evaluator
  | 0, _ => exhausted
  | fuel + 1, level => (step ctx (observed ctx o fuel (level + 1))).watch (o level)

theorem observed_silent (ctx : Context) (fuel level : Nat) :
    observed ctx .silent fuel level = evaluator ctx fuel := by
  induction fuel generalizing level with
  | zero => rfl
  | succ fuel ih =>
    rw [observed, ih, evaluator_succ]
    exact Evaluator.watch_silent _

end Eval

namespace Program

def watchedRun (p : Program) (ctx : Context) (o : Observer) (fuel : Nat) : Run :=
  p.runBy ctx (observed ctx o fuel 0)

theorem watchedRun_silent (p : Program) (ctx : Context) (fuel : Nat) :
    p.watchedRun ctx .silent fuel = p.run ctx fuel := by
  rw [watchedRun, observed_silent, run]

/-- The runs of a program pass through a machine. -/
def Reaches (p : Program) (ctx : Context) (m : Machine) : Prop :=
  ∃ o fuel, m = (p.watchedRun ctx o fuel).machine

/-- The runs of a program pass through a machine, and then or later through another one. -/
def Passes (p : Program) (ctx : Context) (m m' : Machine) : Prop :=
  ∃ o o' fuel fuel', o.Stricter o' ∧ fuel ≤ fuel' ∧ m = (p.watchedRun ctx o fuel).machine ∧
    m' = (p.watchedRun ctx o' fuel').machine

/-- At every moment of a run it is as told: an observer with no other objections never stops it. -/
def Always (p : Program) (ctx : Context) (P : Moment → Machine → Prop) : Prop :=
  ∀ o : Observer, (∀ level moment m, P moment m → o level moment m = none) →
    ∀ fuel, p.watchedRun ctx o fuel = p.run ctx fuel

theorem reaches_run (p : Program) (ctx : Context) (fuel : Nat) :
    p.Reaches ctx (p.run ctx fuel).machine :=
  ⟨.silent, fuel, by rw [watchedRun_silent]⟩

/-- A run with less fuel stops in a state that the run with more fuel passes through. -/
theorem passes_run (p : Program) (ctx : Context) {fuel fuel' : Nat} (h : fuel ≤ fuel') :
    p.Passes ctx (p.run ctx fuel).machine (p.run ctx fuel').machine :=
  ⟨.silent, .silent, fuel, fuel', .refl _, h, by rw [watchedRun_silent], by rw [watchedRun_silent]⟩

end Program

namespace Contract

variable {α : Type} {c : Contract} {V W : Value → Prop} {sub sub' : Evaluator} {m : Machine}
  {ctx : Context}

/-- All requests are met within the contract, whatever they ask for. -/
structure Keeps (c : Contract) (V : Value → Prop) (sub sub' : Evaluator) : Prop where
  expression : ∀ m env e,
    c.Honours m (sub.expression env e) (sub'.expression env e) fun _ v => V v
  statement : ∀ m env s,
    c.Honours m (sub.statement env s) (sub'.statement env s) fun _ done => done.All V
  rounds : ∀ m env condition body,
    c.Honours m (sub.rounds env condition body) (sub'.rounds env condition body)
      fun _ done => done.All V
  resolve : ∀ m env depth goal,
    c.Honours m (sub.resolve env depth goal) (sub'.resolve env depth goal) fun _ _ => True

/-- The contract can be kept without any regard to the program and its attributes. -/
structure Permits (c : Contract) : Prop where
  admits : c.Admits fun _ => True
  blames : ∀ h, c.Blame h
  owns : ∀ f, c.Own f := by exact fun _ => True.intro
  setRule : ∀ {m f d scope env store}, c.Inv m →
    (m.frame f).predicates.setRule d.functor ⟨d, scope, env⟩ = .ok store →
    c.Inv (m.setStore f store) ∧ c.Leads m (m.setStore f store)

/-- A contract about frames asks nothing where the frames stay as they are. -/
theorem Permits.of_frames (blames : ∀ h, c.Blame h)
    (stuck : ∀ {m : Machine} {v}, m.text? v = none → c.Endless m) (owns : ∀ f, c.Own f)
    (same : ∀ {m m' : Machine}, c.Inv m → m'.frames = m.frames → c.Inv m' ∧ c.Leads m m')
    (define : ∀ {m f name v}, c.Inv m →
      c.Inv (m.define f name v) ∧ c.Leads m (m.define f name v))
    (push : ∀ {m scope}, c.Inv m → c.Inv (m.push scope).2 ∧ c.Leads m (m.push scope).2)
    (addFact : ∀ {m f functor tuple store}, c.Inv m → (∀ v ∈ tuple, v.kind ≠ .void) →
      (m.frame f).predicates.addFact functor tuple = .ok store →
      c.Inv (m.setStore f store) ∧ c.Leads m (m.setStore f store))
    (setRule : ∀ {m f d scope env store}, c.Inv m →
      (m.frame f).predicates.setRule d.functor ⟨d, scope, env⟩ = .ok store →
      c.Inv (m.setStore f store) ∧ c.Leads m (m.setStore f store)) : c.Permits where
  admits := {
    faults := fun _ _ _ => blames _
    endless := blames _
    stuck := stuck
    plain := fun _ _ => trivial
    bound := fun _ _ => trivial
    held := fun {_ _ object} _ _ => by cases object <;> simp [Object.All]
    fresh := fun _ => owns _
    define := fun _ hm _ => define hm
    push := push
    alloc := fun hm _ => same hm rfl
    setElement := fun hm _ => same hm rfl
    setField := fun hm _ _ => same hm rfl
    print := fun hm => same hm rfl
    log := fun hm => same hm rfl
    addFact := fun _ => addFact }
  blames := blames
  owns := owns
  setRule := setRule

theorem Permits.sees (hc : c.Permits) (m : Machine) (env : Env) (node : NodeRef) :
    c.Sees m env ctx node := by
  intro m' _
  unfold Locates
  split
  · exact hc.blames _
  · exact ⟨fun _ => ⟨hc.blames _, fun _ => ⟨hc.blames _, hc.blames _⟩⟩, fun f _ => hc.owns f⟩

/-- Nothing is asked for, but the first of two evaluations may stop with some halts only. -/
def stopping (stop : Halt → Prop)
    (hattach : ∀ {f node}, stop (.fault f) → stop (.fault (f.attach node))) : Contract where
  Inv _ := True
  Leads _ _ := True
  Blame _ := True
  Stop := stop
  refl _ := trivial
  trans _ _ := trivial
  blame_attach _ := trivial
  stop_attach := hattach

theorem stopping_permits (stop : Halt → Prop)
    (hattach : ∀ {f node}, stop (.fault f) → stop (.fault (f.attach node))) :
    (stopping stop hattach).Permits :=
  .of_frames (fun _ => trivial) (fun _ => trivial) (fun _ => trivial)
    (fun _ _ => ⟨trivial, trivial⟩) (fun _ => ⟨trivial, trivial⟩) (fun _ => ⟨trivial, trivial⟩)
    (fun _ _ _ => ⟨trivial, trivial⟩) fun _ _ => ⟨trivial, trivial⟩

namespace Honours

/-- A watched evaluation keeps what it keeps unwatched; if it has an answer, the observer of the
second one had no objection to it. -/
theorem watched {x y : Eval α} {o o' : Option α → Machine → Option Fault}
    {Q : Machine → α → Prop} (h : c.Honours m x y Q)
    (hstrict : ∀ a m, o a m = none → o' a m = none)
    (hblame : ∀ a m f, o' a m = some f → c.Blame (.fault f))
    (hstop : ∀ a m f, o a m = some f → o' a m ≠ some f → c.Stop (.fault f)) :
    c.Honours m (watched o x) (Eval.watched o' y) fun m' a => Q m' a ∧ o' (some a) m' = none := by
  have hcheck : ∀ a m, c.Honours m (check (o a)) (check (o' a)) fun m' _ =>
      m' = m ∧ o' a m = none := by
    intro a m hm
    unfold check
    cases ho : o a m with
    | none =>
      rw [hstrict a m ho]
      exact ⟨⟨hm, c.refl m, rfl, rfl⟩, .inl rfl⟩
    | some f =>
      cases ho' : o' a m with
      | none =>
        have hf : c.Stop (.fault f) := hstop a m f ho (by simp [ho'])
        exact ⟨⟨hm, c.refl m, rfl, rfl⟩, .inr ⟨_, m, rfl, hf, hm, c.refl m, c.refl m⟩⟩
      | some f' =>
        refine ⟨⟨hm, c.refl m, hblame a m f' ho', nofun⟩, ?_⟩
        by_cases hf : f' = f
        · subst hf
          exact .inl rfl
        · have hf : c.Stop (.fault f) := hstop a m f ho (by simp [ho', hf])
          exact .inr ⟨_, m, rfl, hf, hm, c.refl m, c.refl m⟩
  refine (hcheck none m).bind ?_
  rintro m₁ - - ⟨rfl, -⟩
  refine h.bind fun m₂ a _ hQ => (hcheck (some a) m₂).bind ?_
  rintro m₃ - - ⟨rfl, ha⟩
  exact pure ⟨hQ, ha⟩

theorem watched_self {x : Eval α} {o : Option α → Machine → Option Fault} {Q : Machine → α → Prop}
    (h : c.Honours m x x Q) (hblame : ∀ a m f, o a m = some f → c.Blame (.fault f)) :
    c.Honours m (Eval.watched o x) (Eval.watched o x) fun m' a => Q m' a ∧ o (some a) m' = none :=
  h.watched (fun _ _ h => h) hblame fun _ _ _ h hne => absurd h hne

/-- An observer who never has an objection is not noticed. -/
theorem unnoticed {x y : Eval α} {o : Option α → Machine → Option Fault} {Q : Machine → α → Prop}
    (h : c.Honours m x y Q) (ho : ∀ a m', c.Leads m m' → o a m' = none) :
    c.Honours m (Eval.watched o x) y Q := by
  have hcheck : ∀ a m', c.Leads m m' → check (o a) m' = .ok () m' := by
    intro a m' hl
    unfold check
    rw [ho a m' hl]
  intro hm
  obtain ⟨hends, hxy⟩ := h hm
  refine ⟨hends, ?_⟩
  have hbegin :
      Eval.watched o x m = (x >>= fun a => check (o (some a)) >>= fun _ => Pure.pure a) m :=
    bind_of_ok (hcheck none m (c.refl m))
  rcases hxy with hxy | ⟨halt, m₁, hx, hstop⟩
  · refine .inl (hbegin.trans ?_)
    cases hy : y m with
    | error halt m' => exact bind_of_error (hxy.trans hy)
    | ok a m' =>
      rw [hy] at hends
      rw [bind_of_ok (hxy.trans hy)]
      exact bind_of_ok (hcheck (some a) m' hends.2.1)
  · exact .inr ⟨halt, m₁, hbegin.trans (bind_of_error hx), hstop⟩

end Honours

namespace Keeps

theorem exhausted (hstop : c.Stop .outOfFuel) (h : c.Keeps V sub' sub') :
    c.Keeps V Eval.exhausted sub' :=
  ⟨fun m env e => (h.expression m env e).stopped hstop,
    fun m env s => (h.statement m env s).stopped hstop,
    fun m env condition body => (h.rounds m env condition body).stopped hstop,
    fun m env depth goal => (h.resolve m env depth goal).stopped hstop⟩

theorem exhausted_self (hblame : c.Blame .outOfFuel) (hends : ∀ m, c.Endless m) :
    c.Keeps V Eval.exhausted Eval.exhausted :=
  ⟨fun m _ _ => .exhaust hblame (hends m), fun m _ _ => .exhaust hblame (hends m),
    fun m _ _ _ => .exhaust hblame (hends m), fun m _ _ _ => .exhaust hblame (hends m)⟩

theorem watch {o o' : Moment → Machine → Option Fault} (h : c.Keeps V sub sub')
    (hstrict : ∀ moment m, o moment m = none → o' moment m = none)
    (hblame : ∀ moment m f, o' moment m = some f → c.Blame (.fault f))
    (hstop : ∀ moment m f, o moment m = some f → o' moment m ≠ some f → c.Stop (.fault f)) :
    c.Keeps V (sub.watch o) (sub'.watch o') where
  expression m env e := ((h.expression m env e).watched (fun _ => hstrict _) (fun _ => hblame _)
    fun _ => hstop _).weaken fun _ _ _ h => h.1
  statement m env s := ((h.statement m env s).watched (fun _ => hstrict _) (fun _ => hblame _)
    fun _ => hstop _).weaken fun _ _ _ h => h.1
  rounds m env condition body := ((h.rounds m env condition body).watched (fun _ => hstrict _)
    (fun _ => hblame _) fun _ => hstop _).weaken fun _ _ _ h => h.1
  resolve m env depth goal := ((h.resolve m env depth goal).watched (fun _ => hstrict _)
    (fun _ => hblame _) fun _ => hstop _).weaken fun _ _ _ h => h.1

theorem step (hc : c.Permits) (h : c.Keeps (fun _ => True) sub sub') :
    c.Keeps (fun _ => True) (step ctx sub) (Eval.step ctx sub') := by
  have ha := hc.admits
  have hexpression : ∀ m env e, c.Evaluates (fun _ => True) sub sub' m env e :=
    fun m env e m' _ => h.expression m' env e
  have hstatement : ∀ m env s, c.Executes (fun _ => True) sub sub' m env s :=
    fun m env s m' _ => h.statement m' env s
  have hrounds : ∀ m env condition body,
      c.Repeats (fun _ => True) sub sub' m env condition body :=
    fun m env condition body m' _ => h.rounds m' env condition body
  have hresolve : ∀ m env depth goal, c.Resolves sub sub' m env depth goal :=
    fun m env depth goal m' _ => h.resolve m' env depth goal
  refine ⟨fun m env e => ?_, fun m env s => ?_, fun m env condition body => ?_,
    fun m env depth goal => ?_⟩
  · refine Honours.expression ha (.same trivial) (fun e' _ => hexpression m env e')
      (fun e' _ _ => hexpression m env e') (fun goal _ => hresolve m env 0 goal)
      (fun r _ => hc.sees m env _)
      (fun r _ => ⟨fun _ => hc.blames _, fun _ _ => trivial⟩) (fun _ _ _ _ => hc.blames _) ?_
    intro _ d _ m' args _ hargs
    exact Honours.callFunction ha (.same trivial) hargs (fun _ => hc.blames _) fun scope m₁ _ _ _ =>
      h.statement m₁ _ _
  · refine Honours.statement ha (.same trivial) (fun e _ => hexpression m env e)
      (fun e _ _ => hexpression m env e) (fun node _ => hc.sees m env node)
      (fun s' _ => hstatement m env s') (fun _ _ => trivial)
      (fun d _ => ?_) (fun _ _ _ => hc.blames _) (fun b _ scope _ m' _ _ s' _ => hstatement m' _ s')
      (fun mark condition b _ scope _ m' _ _ => hrounds m' env condition _)
      (fun mark condition body _ _ => hrounds m env condition _)
    exact Honours.declareRule ha (fun _ => hc.blames _) (hc.sees m env _).now
      fun scope f store _ _ hs hm => hc.setRule hm hs
  · refine Honours.rounds ha (hexpression m env condition) (fun m' _ => ?_)
      (hrounds m env condition body)
    exact Honours.round (fun inner b _ s _ => hstatement m' inner s)
      fun s _ => hstatement m' env s
  · refine Honours.resolve ha (fun g _ => hresolve m env depth g) ?_
    intro _ mark functor arguments _
    refine Honours.resolveCall (fun e _ => hexpression m env e) fun scope f r _ _ _ => ?_
    exact Honours.resolveRule ha (fun e _ => hexpression m env e) fun m₁ m₂ _ _ _ =>
      h.resolve m₂ _ _ _

end Keeps

theorem Permits.observed_self (hc : c.Permits) (hends : ∀ m, c.Endless m) (o : Observer)
    (fuel level : Nat) :
    c.Keeps (fun _ => True) (observed ctx o fuel level) (observed ctx o fuel level) := by
  induction fuel generalizing level with
  | zero => exact Keeps.exhausted_self (hc.blames _) hends
  | succ fuel ih =>
    exact (Keeps.step hc (ih (level + 1))).watch (fun _ _ h => h) (fun _ _ _ _ => hc.blames _)
      fun _ _ _ h hne => absurd h hne

theorem Permits.keeps_evaluator (hc : c.Permits) (hends : ∀ m, c.Endless m) (ctx : Context)
    (fuel : Nat) : c.Keeps (fun _ => True) (evaluator ctx fuel) (evaluator ctx fuel) := by
  have hkeeps : c.Keeps (fun _ => True) (Eval.observed ctx .silent fuel 0)
      (Eval.observed ctx .silent fuel 0) := hc.observed_self hends .silent fuel 0
  rwa [observed_silent] at hkeeps

/-- Of two observed evaluations within one contract, the one with the stricter observer and less
fuel does what the other one does as long as it is not stopped. -/
theorem Permits.observed (hc : c.Permits) (hends : ∀ m, c.Endless m) {o o' : Observer}
    (ho : o.Stricter o') (hfuel : c.Stop .outOfFuel)
    (hstop : ∀ level moment m f, o level moment m = some f → c.Stop (.fault f))
    {fuel fuel' : Nat} (hle : fuel ≤ fuel') (level : Nat) :
    c.Keeps (fun _ => True) (observed ctx o fuel level) (Eval.observed ctx o' fuel' level) := by
  induction fuel generalizing fuel' level with
  | zero => exact (hc.observed_self hends o' fuel' level).exhausted hfuel
  | succ fuel ih =>
    obtain ⟨n, rfl⟩ : ∃ n, fuel' = n + 1 := ⟨fuel' - 1, by omega⟩
    exact (Keeps.step hc (ih (by omega) (level + 1))).watch (ho level)
      (fun _ _ _ _ => hc.blames _) fun moment m f h _ => hstop level moment m f h

theorem Honours.execute {p : Program} {root : FrameId} (ha : c.Admits V)
    (h : ∀ s ∈ p.statements, c.Executes W sub sub' m [root] s) :
    c.Honours m (p.execute sub root) (p.execute sub' root) fun _ _ => True := by
  refine (statements h).bind fun m₁ done _ _ => (display ha).bind fun m₂ text _ _ => ?_
  exact (log ha).bind fun m₃ _ _ _ => pure trivial

/-- What a contract says about two runs of a program. -/
structure Compares (c : Contract) (r r' : Run) : Prop where
  inv : c.Inv r'.machine
  blame : ∀ halt, r'.outcome = .error halt → c.Blame halt
  endless : r'.outcome = .error .outOfFuel → c.Endless r'.machine
  stopped : r = r' ∨ c.Inv r.machine ∧ c.Leads r.machine r'.machine ∧
    ∃ halt, r.outcome = .error halt ∧ c.Stop halt

theorem Compares.of_statements {p : Program} (ha : c.Admits V) (hempty : c.Inv {})
    (hroot : (ctx.table.attributes p.mark.id).scope = none →
      c.Blame (.fault ⟨.rootWithoutScope, none⟩))
    (h : ∀ scope, (ctx.table.attributes p.mark.id).scope = some scope → ∀ s ∈ p.statements,
      c.Executes W sub sub' (({} : Machine).push scope).2 [0] s) :
    c.Compares (p.runBy ctx sub) (p.runBy ctx sub') := by
  unfold Program.runBy
  cases hs : (ctx.table.attributes p.mark.id).scope with
  | none => exact ⟨hempty, by rintro halt ⟨⟩; exact hroot hs, nofun, .inl rfl⟩
  | some scope =>
    have hrun := Honours.execute ha (h scope hs) (ha.push hempty).1
    dsimp only [Machine.push, Array.size_empty] at hrun ⊢
    obtain ⟨hends, hsame | ⟨halt, m₁, hx, hstop, hi, -, hl⟩⟩ := hrun
    · rw [hsame]
      cases hy : p.execute sub' 0 _ with
      | ok done m' =>
        rw [hy] at hends
        exact ⟨hends.1, by simp, by simp, .inl rfl⟩
      | error halt m' =>
        rw [hy] at hends
        exact ⟨hends.1, by rintro _ ⟨⟩; exact hends.2.2.1,
          fun h => hends.2.2.2 (Except.error.inj h), .inl rfl⟩
    · rw [hx]
      cases hy : p.execute sub' 0 _ with
      | ok done m' =>
        rw [hy] at hends hl
        exact ⟨hends.1, by simp, by simp, .inr ⟨hi, hl, halt, rfl, hstop⟩⟩
      | error halt' m' =>
        rw [hy] at hends hl
        exact ⟨hends.1, by rintro _ ⟨⟩; exact hends.2.2.1,
          fun h => hends.2.2.2 (Except.error.inj h), .inr ⟨hi, hl, halt, rfl, hstop⟩⟩

theorem Keeps.runBy (h : c.Keeps (fun _ => True) sub sub') (hc : c.Permits) (hempty : c.Inv {})
    (p : Program) : c.Compares (p.runBy ctx sub) (p.runBy ctx sub') :=
  .of_statements hc.admits hempty (fun _ => hc.blames _) fun _ _ s _ m _ => h.statement m [0] s

theorem Permits.compares {p : Program} (hc : c.Permits) (hends : ∀ m, c.Endless m)
    (hempty : c.Inv {}) {o o' : Observer} (ho : o.Stricter o') (hfuel : c.Stop .outOfFuel)
    (hstop : ∀ level moment m f, o level moment m = some f → c.Stop (.fault f))
    {fuel fuel' : Nat} (hle : fuel ≤ fuel') :
    c.Compares (p.watchedRun ctx o fuel) (p.watchedRun ctx o' fuel') :=
  (hc.observed hends ho hfuel hstop hle 0).runBy hc hempty p

/-- If every halt may stop a run, then a contract that leads from machine to machine leads from each
state of a run to the later ones. -/
theorem Permits.leads_of_passes {p : Program} {m m' : Machine} (hc : c.Permits)
    (hends : ∀ m, c.Endless m) (hempty : c.Inv {}) (hstop : ∀ h, c.Stop h)
    (h : p.Passes ctx m m') : c.Leads m m' := by
  obtain ⟨o, o', fuel, fuel', ho, hle, rfl, rfl⟩ := h
  have hcompares : c.Compares (p.watchedRun ctx o fuel) (p.watchedRun ctx o' fuel') :=
    hc.compares hends hempty ho (hstop _) (fun _ _ _ _ _ => hstop _) hle
  rcases hcompares.stopped with heq | ⟨-, hleads, -⟩
  · rw [heq]
    exact c.refl _
  · exact hleads

end Contract

end LogicScript
