import LogicScript.Proofs.Observation

/-! The predicate stores of a run. -/
namespace LogicScript

open Eval

theorem Binary64.equal_comm (x y : Binary64) : x.equal y = y.equal x := by
  unfold Binary64.equal
  rw [Bool.and_comm (!x.isNaN), Bool.beq_comm]

theorem Value.equal_comm (v w : Value) : v.equal w = w.equal v := by
  cases v <;> cases w <;> simp only [Value.equal]
  case float.float x y => exact Binary64.equal_comm x y
  case type.type a d b e => rw [Bool.beq_comm (b := b), Bool.beq_comm (b := e.map _)]
  all_goals exact Bool.beq_comm

/-- Whether the value is no number. -/
def Value.isNaN : Value → Bool
  | .float x => x.isNaN
  | _ => false

theorem Value.equal_self {v : Value} (h : v.isNaN = false) : v.equal v = true := by
  cases v with
  | float x =>
    have hx : x.isNaN = false := h
    simp [equal, Binary64.equal, hx]
  | _ => simp [equal]

/-- Two tuples with equal values at all positions. -/
def TuplesEqual (s t : List Value) : Prop :=
  s.length = t.length ∧
    ∀ (i : Nat) (v w : Value), s[i]? = some v → t[i]? = some w → v.equal w = true

theorem TuplesEqual.symm {s t : List Value} (h : TuplesEqual s t) : TuplesEqual t s :=
  ⟨h.1.symm, fun i v w hv hw => by rw [Value.equal_comm]; exact h.2 i w v hw hv⟩

theorem TuplesEqual.refl {t : List Value} (h : ∀ v ∈ t, v.isNaN = false) : TuplesEqual t t := by
  refine ⟨rfl, fun i v w hv hw => ?_⟩
  cases Option.some.inj (hv.symm.trans hw)
  exact Value.equal_self (h v (List.mem_of_getElem? hv))

theorem equalTuples_iff (s t : List Value) : equalTuples s t = true ↔ TuplesEqual s t := by
  induction s generalizing t with
  | nil => cases t <;> simp [equalTuples, TuplesEqual]
  | cons v s ih =>
    cases t with
    | nil => simp [equalTuples, TuplesEqual]
    | cons w t =>
      rw [equalTuples, Bool.and_eq_true, ih]
      constructor
      · rintro ⟨hv, hlength, hrest⟩
        refine ⟨by simp [hlength], fun i => ?_⟩
        cases i with
        | zero => simpa using hv
        | succ i => simpa using hrest i
      · rintro ⟨hlength, h⟩
        refine ⟨h 0 v w rfl rfl, by simpa using hlength, fun i a b ha hb => ?_⟩
        exact h (i + 1) a b (by simpa using ha) (by simpa using hb)

namespace Entry

/-- Facts are there, and none of them twice; a rule stands under the functor it was declared
with. -/
def WellFiled (functor : String) : Entry → Prop
  | .facts tuples => tuples ≠ [] ∧ tuples.Pairwise fun s t => ¬ TuplesEqual s t
  | .rule r => r.decl.functor = functor

theorem WellFiled.differ {functor : String} {tuples : List (List Value)}
    (h : (Entry.facts tuples).WellFiled functor) {i j : Nat} {s t : List Value} (hij : i ≠ j)
    (hs : tuples[i]? = some s) (ht : tuples[j]? = some t) : ¬ TuplesEqual s t := by
  obtain ⟨hi, rfl⟩ := List.getElem?_eq_some_iff.mp hs
  obtain ⟨hj, rfl⟩ := List.getElem?_eq_some_iff.mp ht
  rcases Nat.lt_or_gt_of_ne hij with hlt | hlt
  · exact List.pairwise_iff_getElem.mp h.2 i j hi hj hlt
  · exact fun heq => List.pairwise_iff_getElem.mp h.2 j i hj hi hlt heq.symm

/-- Facts are followed by more facts, a rule by another rule. -/
def Extends : Entry → Entry → Prop
  | .facts tuples, .facts tuples' => tuples <+: tuples'
  | .rule _, .rule _ => True
  | _, _ => False

theorem Extends.refl (e : Entry) : e.Extends e := by
  cases e with
  | facts tuples => exact List.prefix_rfl
  | rule r => trivial

theorem Extends.trans {e₁ e₂ e₃ : Entry} (h : e₁.Extends e₂) (h' : e₂.Extends e₃) :
    e₁.Extends e₃ := by
  cases e₁ <;> cases e₂ <;> cases e₃ <;> simp only [Extends] at h h' ⊢
  exact h.trans h'

end Entry

namespace PredicateStore

variable {s s' : PredicateStore} {functor : String} {tuple : List Value} {r : Rule} {cause : Cause}

def WellFiled (s : PredicateStore) : Prop :=
  ∀ functor e, s.get? functor = some e → e.WellFiled functor

/-- No entry is lost, and all entries are extended. -/
def Grows (s s' : PredicateStore) : Prop :=
  ∀ functor e, s.get? functor = some e → ∃ e', s'.get? functor = some e' ∧ e.Extends e'

theorem Grows.refl (s : PredicateStore) : s.Grows s := fun _ e h => ⟨e, h, .refl e⟩

theorem Grows.trans {s₁ s₂ s₃ : PredicateStore} (h : s₁.Grows s₂) (h' : s₂.Grows s₃) :
    s₁.Grows s₃ := by
  intro functor e he
  obtain ⟨e₂, he₂, h₂⟩ := h functor e he
  obtain ⟨e₃, he₃, h₃⟩ := h' functor e₂ he₂
  exact ⟨e₃, he₃, h₂.trans h₃⟩

theorem wellFiled_empty : ({} : PredicateStore).WellFiled := by
  intro functor e he
  simp [get?] at he

/-- A store with a changed entry is well filed and has grown if the entry is and has. -/
theorem set_entry {e' : Entry} (hs : s.WellFiled) (he' : e'.WellFiled functor)
    (hext : ∀ e, s.get? functor = some e → e.Extends e') :
    WellFiled ⟨s.entries.set functor e'⟩ ∧ s.Grows ⟨s.entries.set functor e'⟩ := by
  constructor
  · intro name e he
    by_cases hn : name = functor
    · subst hn
      simp only [get?, Bindings.get?_set_self, Option.some.injEq] at he
      exact he ▸ he'
    · simp only [get?, Bindings.get?_set_ne _ _ hn] at he
      exact hs name e he
  · intro name e he
    by_cases hn : name = functor
    · subst hn
      exact ⟨e', Bindings.get?_set_self .., hext e he⟩
    · exact ⟨e, (Bindings.get?_set_ne _ _ hn).trans he, .refl e⟩

theorem addFact_ok (hs : s.WellFiled) (h : s.addFact functor tuple = .ok s') :
    s'.WellFiled ∧ s.Grows s' := by
  unfold addFact at h
  split at h
  · rename_i hnone
    cases h
    exact set_entry hs ⟨by simp, by simp⟩ (by simp [hnone])
  · cases h
  · rename_i tuples hfacts
    split at h
    · cases h
    · rename_i hnew
      cases h
      have hfiled := hs functor _ hfacts
      have hdiffer : ∀ t ∈ tuples, ¬ TuplesEqual t tuple := fun t ht heq =>
        hnew (List.any_eq_true.mpr ⟨t, ht, (equalTuples_iff t tuple).mpr heq⟩)
      refine set_entry hs ⟨by simp, ?_⟩ ?_
      · simpa [List.pairwise_append] using ⟨hfiled.2, hdiffer⟩
      · rintro e he
        rw [hfacts] at he
        cases he
        exact List.prefix_append ..

theorem setRule_ok (hs : s.WellFiled) (hr : r.decl.functor = functor)
    (h : s.setRule functor r = .ok s') : s'.WellFiled ∧ s.Grows s' := by
  unfold setRule at h
  split at h
  · cases h
  · rename_i hfacts
    cases h
    have hrule : (Entry.rule r).WellFiled functor := hr
    refine set_entry hs hrule fun e he => ?_
    cases e with
    | facts tuples => exact absurd he (hfacts tuples)
    | rule r' => trivial

/-- Facts are refused by a rule, and by a fact with equal values. -/
theorem addFact_error_iff : s.addFact functor tuple = .error cause ↔
    (cause = .definedByRule functor ∧ ∃ r, s.get? functor = some (.rule r)) ∨
    (cause = .duplicateFact functor ∧ ∃ tuples, s.get? functor = some (.facts tuples) ∧
      ∃ t ∈ tuples, TuplesEqual t tuple) := by
  unfold addFact
  split
  · rename_i hnone
    simp [hnone]
  · rename_i r hrule
    simp [hrule, eq_comm]
  · rename_i tuples hfacts
    have hany : tuples.any (equalTuples · tuple) = true ↔ ∃ t ∈ tuples, TuplesEqual t tuple := by
      simp only [List.any_eq_true, equalTuples_iff]
    split
    · rename_i hdup
      simp [hfacts, hany.mp hdup, eq_comm]
    · rename_i hdup
      rw [hany] at hdup
      simpa [hfacts] using fun _ => hdup

theorem setRule_error_iff : s.setRule functor r = .error cause ↔
    cause = .definedByFacts functor ∧ ∃ tuples, s.get? functor = some (.facts tuples) := by
  unfold setRule
  split
  · rename_i tuples hfacts
    simp [hfacts, eq_comm]
  · rename_i hfacts
    simpa using fun _ => hfacts

end PredicateStore

namespace PredicateStore

variable {s s' : PredicateStore} {functor name : String} {tuple : List Value} {r r' : Rule}

theorem rule_of_addFact (h : s.addFact functor tuple = .ok s')
    (hr : s'.get? name = some (.rule r)) : s.get? name = some (.rule r) := by
  have hset : ∀ e : Entry, (∀ r, e ≠ .rule r) →
      (⟨s.entries.set functor e⟩ : PredicateStore).get? name = some (.rule r) →
      s.get? name = some (.rule r) := by
    intro e he hget
    by_cases hn : name = functor
    · subst hn
      simp only [get?, Bindings.get?_set_self, Option.some.injEq] at hget
      exact absurd hget (he r)
    · simpa only [get?, Bindings.get?_set_ne _ _ hn] using hget
  unfold addFact at h
  split at h
  · cases h
    exact hset _ (by simp) hr
  · cases h
  · split at h
    · cases h
    · cases h
      exact hset _ (by simp) hr

theorem rule_of_setRule (h : s.setRule functor r' = .ok s') (hr : s'.get? name = some (.rule r)) :
    s.get? name = some (.rule r) ∨ name = functor ∧ r = r' := by
  unfold setRule at h
  split at h
  · cases h
  · cases h
    by_cases hn : name = functor
    · subst hn
      simp only [get?, Bindings.get?_set_self, Option.some.injEq, Entry.rule.injEq] at hr
      exact .inr ⟨rfl, hr.symm⟩
    · simp only [get?, Bindings.get?_set_ne _ _ hn] at hr
      exact .inl hr

end PredicateStore

namespace Machine

def StoresWellFiled (m : Machine) : Prop := ∀ f, (m.frame f).predicates.WellFiled

def StoresGrow (m m' : Machine) : Prop := ∀ f, (m.frame f).predicates.Grows (m'.frame f).predicates

theorem stores_of_eq {m m' : Machine} (hm : m.StoresWellFiled)
    (h : ∀ f, (m'.frame f).predicates = (m.frame f).predicates) :
    m'.StoresWellFiled ∧ m.StoresGrow m' :=
  ⟨fun f => by rw [h f]; exact hm f, fun f => by rw [h f]; exact .refl _⟩

theorem predicates_push (m : Machine) (scope : ScopeId) (f : FrameId) :
    ((m.push scope).2.frame f).predicates = (m.frame f).predicates := by
  rw [frame_push]
  split
  · subst_vars
    simp [frame]
    rfl
  · rfl

theorem stores_setStore {m : Machine} {f : FrameId} {store : PredicateStore}
    (hm : m.StoresWellFiled) (h : store.WellFiled ∧ (m.frame f).predicates.Grows store) :
    (m.setStore f store).StoresWellFiled ∧ m.StoresGrow (m.setStore f store) := by
  have hframe : ∀ i, ((m.setStore f store).frame i).predicates = (m.frame i).predicates ∨
      f = i ∧ ((m.setStore f store).frame i).predicates = store := by
    intro i
    rw [setStore, frame_updateFrame]
    split
    · exact .inr ⟨(‹_› : _ ∧ _).1, rfl⟩
    · exact .inl rfl
  constructor
  · intro i
    rcases hframe i with hi | ⟨rfl, hi⟩
    · rw [hi]
      exact hm i
    · rw [hi]
      exact h.1
  · intro i
    rcases hframe i with hi | ⟨rfl, hi⟩
    · rw [hi]
      exact .refl _
    · rw [hi]
      exact h.2

/-- All rules in the stores are such rules for their functors. -/
def AllRules (P : String → Rule → Prop) (m : Machine) : Prop :=
  ∀ f functor r, (m.frame f).predicates.get? functor = some (.rule r) → P functor r

namespace AllRules

variable {P : String → Rule → Prop} {m m' : Machine} {f : FrameId} {functor : String}
  {tuple : List Value} {r : Rule} {store : PredicateStore}

theorem empty : ({} : Machine).AllRules P := by
  intro f functor r hr
  have hstore : (({} : Machine).frame f).predicates = {} := rfl
  simp [hstore, PredicateStore.get?] at hr

theorem of_eq (hm : m.AllRules P) (h : ∀ f, (m'.frame f).predicates = (m.frame f).predicates) :
    m'.AllRules P := fun f functor r hr => hm f functor r (h f ▸ hr)

theorem setStore (hm : m.AllRules P)
    (h : ∀ functor r, store.get? functor = some (.rule r) → P functor r) :
    (m.setStore f store).AllRules P := by
  intro i functor r hr
  rw [Machine.setStore, frame_updateFrame] at hr
  split at hr
  · exact h functor r hr
  · exact hm i functor r hr

theorem addFact (hm : m.AllRules P) (h : (m.frame f).predicates.addFact functor tuple = .ok store) :
    (m.setStore f store).AllRules P :=
  hm.setStore fun _ _ hr => hm f _ _ (PredicateStore.rule_of_addFact h hr)

theorem setRule (hm : m.AllRules P) (hr : P functor r)
    (h : (m.frame f).predicates.setRule functor r = .ok store) :
    (m.setStore f store).AllRules P := by
  refine hm.setStore fun name r' hr' => ?_
  rcases PredicateStore.rule_of_setRule h hr' with hold | ⟨rfl, rfl⟩
  · exact hm f name r' hold
  · exact hr

end AllRules

end Machine

/-- The stores are well filed and grow, whatever else happens. -/
def storeContract : Contract where
  Inv := Machine.StoresWellFiled
  Leads := Machine.StoresGrow
  Blame _ := True
  Stop _ := True
  refl _ _ := .refl _
  trans h h' f := (h f).trans (h' f)
  blame_attach _ := trivial
  stop_attach _ := trivial

theorem storeContract_permits : storeContract.Permits := by
  refine .of_frames (fun _ => trivial) (fun _ => trivial) (fun _ => trivial) (fun hm hframes => ?_)
    (fun hm => Machine.stores_of_eq hm fun f => Machine.predicates_define ..)
    (fun hm => Machine.stores_of_eq hm fun f => Machine.predicates_push ..)
    (fun hm _ h => Machine.stores_setStore hm (PredicateStore.addFact_ok (hm _) h))
    fun {_ _ d scope env _} hm h => ?_
  · exact Machine.stores_of_eq hm fun f => by rw [Machine.frame_of_frames hframes]
  · have hr : (⟨d, scope, env⟩ : Rule).decl.functor = d.functor := rfl
    exact Machine.stores_setStore hm (PredicateStore.setRule_ok (hm _) hr h)

theorem Eval.changeStore_error {f : FrameId}
    {change : PredicateStore → Except Cause PredicateStore} {m m' : Machine} {halt : Halt}
    (h : changeStore f change m = .error halt m') : m' = m := by
  have hstep : changeStore f change m =
      (lift (change (m.frame f).predicates) >>= fun store => modify (·.setStore f store)) m := rfl
  rw [hstep] at h
  cases hc : change (m.frame f).predicates with
  | ok store =>
    rw [hc] at h
    cases h
  | error cause =>
    rw [hc] at h
    cases h
    rfl

theorem Program.stores_compare (p : Program) (ctx : Context) {o o' : Observer}
    (ho : o.Stricter o') {fuel fuel' : Nat} (hle : fuel ≤ fuel') :
    storeContract.Compares (p.watchedRun ctx o fuel) (p.watchedRun ctx o' fuel') :=
  storeContract_permits.compares (fun _ => trivial) (fun _ => PredicateStore.wellFiled_empty) ho trivial
    (fun _ _ _ _ _ => trivial) hle

/-- In every state of a run each store is well filed, and from every state to the later ones the
entries are kept: facts are followed by more facts, rules by rules. A fact is refused for a rule
and for an equal fact, a rule is refused for facts, and nothing else is; what is refused changes
nothing. -/
theorem Program.stores_grow (p : Program) (ctx : Context) :
    (∀ m, p.Reaches ctx m → ∀ f functor,
      (∀ tuples, (m.frame f).predicates.get? functor = some (.facts tuples) → tuples ≠ [] ∧
        ∀ (i j : Nat) (s t : List Value), i ≠ j → tuples[i]? = some s → tuples[j]? = some t →
          ¬ TuplesEqual s t) ∧
      ∀ r, (m.frame f).predicates.get? functor = some (.rule r) → r.decl.functor = functor) ∧
    (∀ m m', p.Passes ctx m m' → ∀ f functor,
      (∀ tuples, (m.frame f).predicates.get? functor = some (.facts tuples) →
        ∃ more, (m'.frame f).predicates.get? functor = some (.facts (tuples ++ more))) ∧
      ∀ r, (m.frame f).predicates.get? functor = some (.rule r) →
        ∃ r', (m'.frame f).predicates.get? functor = some (.rule r')) ∧
    (∀ (s : PredicateStore) functor tuple cause, s.addFact functor tuple = .error cause ↔
      (cause = .definedByRule functor ∧ cause.kind = .conflictingPredicateKind ∧
        ∃ r, s.get? functor = some (.rule r)) ∨
      (cause = .duplicateFact functor ∧ cause.kind = .duplicateFact ∧
        ∃ tuples, s.get? functor = some (.facts tuples) ∧ ∃ t ∈ tuples, TuplesEqual t tuple)) ∧
    (∀ (s : PredicateStore) functor r cause, s.setRule functor r = .error cause ↔
      cause = .definedByFacts functor ∧ cause.kind = .conflictingPredicateKind ∧
        ∃ tuples, s.get? functor = some (.facts tuples)) ∧
    (∀ m m' f functor tuple halt,
      changeStore f (·.addFact functor tuple) m = .error halt m' → m' = m) ∧
    ∀ m m' f functor r halt, changeStore f (·.setRule functor r) m = .error halt m' → m' = m := by
  refine ⟨?reached, ?later, ?addFact, ?setRule, fun _ _ _ _ _ _ => changeStore_error,
    fun _ _ _ _ _ _ => changeStore_error⟩
  case reached =>
    rintro m ⟨o, fuel, rfl⟩ f functor
    have hfiled := (p.stores_compare ctx (.refl o) (Nat.le_refl fuel)).inv f functor
    exact ⟨fun tuples h => ⟨(hfiled _ h).1, fun i j s t => (hfiled _ h).differ⟩, fun r => hfiled _⟩
  case later =>
    rintro m m' ⟨o, o', fuel, fuel', ho, hle, rfl, rfl⟩ f functor
    have hgrows : ((p.watchedRun ctx o fuel).machine).StoresGrow
        (p.watchedRun ctx o' fuel').machine := by
      rcases (p.stores_compare ctx ho hle).stopped with heq | ⟨-, hleads, -⟩
      · rw [heq]
        exact fun _ => .refl _
      · exact hleads
    constructor
    · intro tuples h
      obtain ⟨e', he', hext⟩ := hgrows f functor _ h
      cases e' with
      | facts tuples' =>
        obtain ⟨more, rfl⟩ := hext
        exact ⟨more, he'⟩
      | rule r => exact hext.elim
    · intro r h
      obtain ⟨e', he', hext⟩ := hgrows f functor _ h
      cases e' with
      | facts tuples' => exact hext.elim
      | rule r' => exact ⟨r', he'⟩
  case addFact =>
    intro s functor tuple cause
    rw [PredicateStore.addFact_error_iff]
    constructor
    · rintro (⟨rfl, h⟩ | ⟨rfl, h⟩)
      · exact .inl ⟨rfl, rfl, h⟩
      · exact .inr ⟨rfl, rfl, h⟩
    · rintro (⟨rfl, -, h⟩ | ⟨rfl, -, h⟩)
      · exact .inl ⟨rfl, h⟩
      · exact .inr ⟨rfl, h⟩
  case setRule =>
    intro s functor r cause
    rw [PredicateStore.setRule_error_iff]
    constructor
    · rintro ⟨rfl, h⟩
      exact ⟨rfl, rfl, h⟩
    · rintro ⟨rfl, -, h⟩
      exact ⟨rfl, h⟩

end LogicScript
