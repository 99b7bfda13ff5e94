import Mathlib.Algebra.GroupWithZero.Nat
import Mathlib.Data.List.Pairwise
import LogicScript.Proofs.Export

/-! Whether an export accounts for all facts of a store.

No two values of one kind have the same constant, and values of different kinds have different ones,
but for a Bool and the Atom of the name `true` or `false`. Facts that differ in nothing else become
one atom: the first of them counts as exported, and the others are counted nowhere. -/
namespace LogicScript

open Datalog

namespace Bindings

variable {α : Type}

theorem nodup_names_set {b : Bindings α} (h : b.names.Nodup) (name : String) (a : α) :
    (b.set name a).names.Nodup := by
  unfold names set
  rw [names_put]
  split
  · exact h
  · rename_i hnew
    exact h.append (List.nodup_singleton name) fun n hn hname =>
      hnew (List.mem_singleton.mp hname ▸ hn)

theorem find_of_mem {l : List (String × α)} (h : (l.map (·.1)).Nodup) {p : String × α}
    (hp : p ∈ l) : find l p.1 = some p.2 := by
  induction l with
  | nil => cases hp
  | cons q rest ih =>
    rw [List.map_cons, List.nodup_cons] at h
    rcases List.mem_cons.mp hp with rfl | hp
    · simp [find]
    · have hne : q.1 ≠ p.1 := fun heq => h.1 (heq ▸ List.mem_map_of_mem hp)
      simp only [find, hne, if_false]
      exact ih h.2 hp

end Bindings

namespace PredicateStore

/-- The stores that come about as facts are added and rules are registered. -/
inductive Built : PredicateStore → Prop
  | empty : Built {}
  | addFact {s s' functor tuple} (h : Built s) (hs : s.addFact functor tuple = .ok s') : Built s'
  | setRule {s s' functor r} (h : Built s) (hs : s.setRule functor r = .ok s') : Built s'

/-- The number of all facts. -/
def total (s : PredicateStore) : Nat := (s.entries.toList.map fun entry => entry.2.tuples.length).sum

/-- No value in the facts is NaN. -/
def NoNaN (s : PredicateStore) : Prop :=
  ∀ functor tuples, s.get? functor = some (.facts tuples) → ∀ tuple ∈ tuples, ∀ v ∈ tuple,
    v.isNaN = false

namespace Built

variable {s : PredicateStore}

theorem nodup_names (h : s.Built) : s.entries.names.Nodup := by
  induction h with
  | empty => exact List.nodup_nil
  | addFact _ hs ih =>
    unfold PredicateStore.addFact at hs
    split at hs
    · cases hs
      exact Bindings.nodup_names_set ih _ _
    · cases hs
    · split at hs
      · cases hs
      · cases hs
        exact Bindings.nodup_names_set ih _ _
  | setRule _ hs ih =>
    unfold PredicateStore.setRule at hs
    split at hs
    · cases hs
    · cases hs
      exact Bindings.nodup_names_set ih _ _

/-- What is known of the facts of a store stays known if an entry gets facts of which it is known
too. -/
theorem facts_set {P : List (List Value) → Prop} {functor : String} {e : Entry}
    (h : ∀ name tuples, s.get? name = some (.facts tuples) → P tuples)
    (he : ∀ tuples, e = .facts tuples → P tuples) {name : String} {tuples : List (List Value)}
    (hname : (⟨s.entries.set functor e⟩ : PredicateStore).get? name = some (.facts tuples)) :
    P tuples := by
  by_cases hn : name = functor
  · subst hn
    simp only [get?, Bindings.get?_set_self, Option.some.injEq] at hname
    exact he tuples hname
  · simp only [get?, Bindings.get?_set_ne _ _ hn] at hname
    exact h name tuples hname

theorem facts_differ (h : s.Built) {functor : String} {tuples : List (List Value)}
    (hf : s.get? functor = some (.facts tuples)) :
    tuples.Pairwise fun t t' => ¬ TuplesEqual t t' := by
  induction h generalizing functor tuples with
  | empty => simp [get?] at hf
  | @addFact s s' name tuple _ hs ih =>
    unfold PredicateStore.addFact at hs
    split at hs
    · cases hs
      exact facts_set (fun _ _ => ih) (by rintro _ ⟨⟩; exact List.pairwise_singleton ..) hf
    · cases hs
    · rename_i old hold
      split at hs
      · cases hs
      · rename_i hnew
        cases hs
        refine facts_set (fun _ _ => ih) ?_ hf
        rintro _ ⟨⟩
        have hdiffer : ∀ t ∈ old, ¬ TuplesEqual t tuple := fun t ht heq =>
          hnew (List.any_eq_true.mpr ⟨t, ht, (equalTuples_iff t tuple).mpr heq⟩)
        simpa [List.pairwise_append] using ⟨ih hold, hdiffer⟩
  | setRule _ hs ih =>
    unfold PredicateStore.setRule at hs
    split at hs
    · cases hs
    · cases hs
      exact facts_set (fun _ _ => ih) (by rintro _ ⟨⟩) hf

end Built

end PredicateStore

/-- The Atom whose constant is that of a Bool. -/
def truthName (b : Bool) : String := if b then "true" else "false"

/-- Two values that have the same constant, if they have one: a Bool and the Atom of its name, or
twice the same value. -/
inductive Value.Coincides : Value → Value → Prop
  | same (v : Value) : Coincides v v
  | boolAtom (b : Bool) : Coincides (.bool b) (.atom (truthName b))
  | atomBool (b : Bool) : Coincides (.atom (truthName b)) (.bool b)

namespace Datalog

variable {v w : Value} {c : Constant} {functor : String} {t t' : List Value} {a : Atom}

theorem Constant.ofValue?_bool (b : Bool) :
    Constant.ofValue? (.bool b) = some (.name ("/" ++ truthName b)) := by
  cases b <;> decide +kernel

theorem isName_truthName (b : Bool) : isName ("/" ++ truthName b) = true := by
  cases b <;> decide +kernel

theorem Constant.ofValue?_atom {name path : String} :
    Constant.ofValue? (.atom name) = some (.name path) ↔
      isName ("/" ++ name) = true ∧ "/" ++ name = path := by
  simp only [Constant.ofValue?, Option.ite_none_right_eq_some, Option.some.injEq,
    Constant.name.injEq]

/-- A constant tells the value it comes from, but for a Bool and the Atom of its name. -/
theorem Constant.ofValue?_eq_iff (h : Constant.ofValue? v = some c) :
    Constant.ofValue? w = some c ↔ v.Coincides w := by
  constructor
  · intro hw
    cases v with
    | int i =>
      cases h
      cases w <;> simp only [Constant.ofValue?, reduceCtorEq, Option.some.injEq,
        Constant.number.injEq, Option.ite_none_right_eq_some, and_false] at hw
      exact hw ▸ .same _
    | float x =>
      cases h
      cases w <;> simp only [Constant.ofValue?, reduceCtorEq, Option.some.injEq,
        Constant.float.injEq, Option.ite_none_right_eq_some, and_false] at hw
      exact hw ▸ .same _
    | string s =>
      cases h
      cases w <;> simp only [Constant.ofValue?, reduceCtorEq, Option.some.injEq,
        Constant.string.injEq, Option.ite_none_right_eq_some, and_false] at hw
      exact hw ▸ .same _
    | bool b =>
      rw [Constant.ofValue?_bool] at h
      cases h
      cases w with
      | bool b' =>
        have hname : truthName b' = truthName b := by
          simpa [Constant.ofValue?_bool] using hw
        have hb : b' = b := by revert hname; cases b <;> cases b' <;> decide +kernel
        exact hb ▸ .same _
      | atom name =>
        obtain ⟨-, hpath⟩ := Constant.ofValue?_atom.mp hw
        exact ((String.append_right_inj _).mp hpath) ▸ .boolAtom b
      | _ => simp [Constant.ofValue?] at hw
    | atom name =>
      have hc : c = .name ("/" ++ name) := by
        unfold Constant.ofValue? at h
        split at h <;> simp_all
      subst hc
      cases w with
      | bool b =>
        have hname : truthName b = name := by simpa [Constant.ofValue?_bool] using hw
        exact hname ▸ .atomBool b
      | atom name' =>
        obtain ⟨-, hpath⟩ := Constant.ofValue?_atom.mp hw
        exact (String.append_right_inj _).mp hpath ▸ .same _
      | _ => simp [Constant.ofValue?] at hw
    | _ => cases h
  · rintro (v | b | b)
    · exact h
    · rw [Constant.ofValue?_bool] at h
      cases h
      exact Constant.ofValue?_atom.mpr ⟨isName_truthName b, rfl⟩
    · have hb := Constant.ofValue?_atom.mpr ⟨isName_truthName b, rfl⟩
      cases hb.symm.trans h
      exact Constant.ofValue?_bool b

theorem mapM_eq_some_iff {α β : Type} {f : α → Option β} {l : List α} {bs : List β} :
    l.mapM f = some bs ↔ List.Forall₂ (fun a b => f a = some b) l bs := by
  induction l generalizing bs with
  | nil => simp [eq_comm]
  | cons a l ih =>
    simp only [List.mapM_cons, Option.pure_def, Option.bind_eq_bind, Option.bind_eq_some_iff,
      Option.some.injEq, List.forall₂_cons_left_iff, ih]
    constructor
    · rintro ⟨b, hb, bs', hbs, rfl⟩
      exact ⟨b, bs', hb, hbs, rfl⟩
    · rintro ⟨b, bs', hb, hbs, rfl⟩
      exact ⟨b, hb, bs', hbs, rfl⟩

theorem Atom.ofFact?_eq_some_iff : Atom.ofFact? functor t = some a ↔
    functor = a.functor ∧ List.Forall₂ (fun v c => Constant.ofValue? v = some c) t a.arguments := by
  obtain ⟨name, arguments⟩ := a
  simp only [Atom.ofFact?, Option.map_eq_some_iff, mapM_eq_some_iff, Atom.mk.injEq]
  constructor
  · rintro ⟨cs, hcs, rfl, rfl⟩
    exact ⟨rfl, hcs⟩
  · rintro ⟨rfl, hcs⟩
    exact ⟨arguments, hcs, rfl, rfl⟩

/-- Facts of one functor have the same atom if their values coincide at all positions. -/
theorem Atom.ofFact?_eq_iff (h : Atom.ofFact? functor t = some a) :
    Atom.ofFact? functor t' = some a ↔ List.Forall₂ Value.Coincides t t' := by
  obtain ⟨name, arguments⟩ := a
  obtain ⟨hfunctor, hvalues⟩ := Atom.ofFact?_eq_some_iff.mp h
  rw [Atom.ofFact?_eq_some_iff]
  dsimp only at hfunctor hvalues ⊢
  refine ⟨fun h' => ?_, fun h' => ⟨hfunctor, ?_⟩⟩
  · have hvalues' := h'.2
    clear h h' hfunctor
    induction hvalues generalizing t' with
    | nil => cases hvalues' with | nil => exact .nil
    | cons hv _ ih =>
      cases hvalues' with
      | cons hw hrest => exact .cons ((Constant.ofValue?_eq_iff hv).mp hw) (ih hrest)
  · clear h hfunctor
    induction hvalues generalizing t' with
    | nil => cases h' with | nil => exact .nil
    | cons hv _ ih =>
      cases h' with
      | cons hw hrest => exact .cons ((Constant.ofValue?_eq_iff hv).mpr hw) (ih hrest)

end Datalog

namespace PredicateStore

variable {s : PredicateStore}

theorem functors_perm (s : PredicateStore) : s.functors.Perm s.entries.names :=
  List.mergeSort_perm ..

theorem atomsOf_facts (s : PredicateStore) : atomsOf s.facts =
    s.functors.flatMap fun functor => (s.tuples functor).filterMap (Atom.ofFact? functor) := by
  simp only [atomsOf, facts, List.filterMap_flatMap, List.filterMap_map]
  rfl

theorem Built.length_facts (h : s.Built) : s.facts.length = s.total := by
  have hsum : s.facts.length = (s.functors.map fun functor => (s.tuples functor).length).sum := by
    simp only [facts, List.length_flatMap, List.length_map]
  rw [hsum, (s.functors_perm.map _).sum_nat, Bindings.names, List.map_map, total]
  refine congrArg List.sum (List.map_congr_left fun entry hentry => ?_)
  rw [Function.comp_apply, tuples_eq (Bindings.find_of_mem h.nodup_names hentry)]

/-- Facts of different functors have different atoms. So no atom comes from two facts if none does
among the facts of one functor. -/
theorem Built.nodup_atoms_iff (h : s.Built) : (atomsOf s.facts).Nodup ↔
    ∀ functor, ((s.tuples functor).filterMap (Atom.ofFact? functor)).Nodup := by
  have hfunctors : s.functors.Nodup := s.functors_perm.nodup_iff.mpr h.nodup_names
  rw [atomsOf_facts, List.nodup_flatMap]
  constructor
  · intro hnodup functor
    by_cases hmem : functor ∈ s.functors
    · exact hnodup.1 functor hmem
    · have hnone : s.get? functor = none := by
        refine Option.eq_none_iff_forall_ne_some.mpr fun e he => hmem ?_
        exact s.functors_perm.mem_iff.mpr (Bindings.mem_names_of_get? he)
      simp [tuples, hnone]
  · refine fun hnodup => ⟨fun functor _ => hnodup functor, hfunctors.imp fun {f g} hne a hf hg => ?_⟩
    obtain ⟨t, -, ht⟩ := List.mem_filterMap.mp hf
    obtain ⟨t', -, ht'⟩ := List.mem_filterMap.mp hg
    exact hne ((Atom.ofFact?_eq_some_iff.mp ht).1.trans (Atom.ofFact?_eq_some_iff.mp ht').1.symm)

theorem Built.tuples_differ (h : s.Built) (functor : String) :
    (s.tuples functor).Pairwise fun t t' => ¬ TuplesEqual t t' := by
  cases hlist : s.tuples functor with
  | nil => exact .nil
  | cons t ts =>
    have ht : t ∈ s.tuples functor := hlist ▸ List.mem_cons_self
    exact hlist ▸ h.facts_differ (get?_of_mem_tuples ht)

theorem Built.nodup_filterMap_iff (h : s.Built) (hnan : s.NoNaN) (functor : String) :
    ((s.tuples functor).filterMap (Atom.ofFact? functor)).Nodup ↔
      ∀ t ∈ s.tuples functor, ∀ t' ∈ s.tuples functor, (Atom.ofFact? functor t).isSome →
        List.Forall₂ Value.Coincides t t' → t = t' := by
  unfold List.Nodup
  rw [List.pairwise_filterMap]
  constructor
  · intro hpair t ht t' ht' hsome hsame
    obtain ⟨a, ha⟩ := Option.isSome_iff_exists.mp hsome
    by_contra hne
    have hsymm : Std.Symm fun t t' => ∀ b, Atom.ofFact? functor t = some b →
        ∀ b', Atom.ofFact? functor t' = some b' → b ≠ b' :=
      ⟨fun _ _ hdiffer b hb b' hb' => (hdiffer b' hb' b hb).symm⟩
    have hdiffer := hpair.forall ht ht' hne
    exact hdiffer a ha a ((Atom.ofFact?_eq_iff ha).mpr hsame) rfl
  · intro hsame
    refine (h.tuples_differ functor).imp_of_mem fun {t t'} ht ht' hdiffer a ha b hb hab => ?_
    subst hab
    cases hsame t ht t' ht' (by simp [ha]) ((Atom.ofFact?_eq_iff ha).mp hb)
    exact hdiffer (.refl (hnan functor _ (get?_of_mem_tuples ht) t ht))

/-- Every fact counts as exported or as skipped, exactly if no two different facts of a functor
coincide. -/
theorem Built.accounts (h : s.Built) (hnan : s.NoNaN) {S : FactStore}
    (hS : S.IsSet (· ∈ atomsOf s.facts)) :
    (Export.into S s).exported + (Export.into S s).skipped ≤ s.total ∧
    ((Export.into S s).exported + (Export.into S s).skipped = s.total ↔
      ∀ functor tuples, s.get? functor = some (.facts tuples) → ∀ t ∈ tuples, ∀ t' ∈ tuples,
        (Atom.ofFact? functor t).isSome → List.Forall₂ Value.Coincides t t' → t = t') := by
  obtain ⟨-, hexported, hskipped⟩ := Export.tells_into hS
  rw [h.length_facts] at hskipped
  have hle := List.toFinset_card_le (atomsOf s.facts)
  refine ⟨by omega, ?_⟩
  have hcount : (Export.into S s).exported + (Export.into S s).skipped = s.total ↔
      (atomsOf s.facts).toFinset.card = (atomsOf s.facts).length := by omega
  have hnodup : (atomsOf s.facts).toFinset.card = (atomsOf s.facts).length ↔
      (atomsOf s.facts).Nodup := Multiset.toFinset_card_eq_card_iff_nodup
  rw [hcount, hnodup, h.nodup_atoms_iff]
  simp only [h.nodup_filterMap_iff hnan]
  constructor
  · intro hsame functor tuples hentry
    have htuples : s.tuples functor = tuples := tuples_eq hentry
    exact htuples ▸ hsame functor
  · exact fun hsame functor t ht => hsame functor _ (get?_of_mem_tuples ht) t ht

/-- A Bool, the Atom of its name, and an array, each the only value of a fact. -/
def truths : PredicateStore :=
  ⟨⟨[("p", .facts [[.bool true], [.atom "true"], [.array 0]])]⟩⟩

theorem truths_built : truths.Built := by
  have h₁ : ({} : PredicateStore).addFact "p" [.bool true] =
      .ok ⟨⟨[("p", .facts [[.bool true]])]⟩⟩ := rfl
  have h₂ : (⟨⟨[("p", .facts [[.bool true]])]⟩⟩ : PredicateStore).addFact "p" [.atom "true"] =
      .ok ⟨⟨[("p", .facts [[.bool true], [.atom "true"]])]⟩⟩ := rfl
  have h₃ : (⟨⟨[("p", .facts [[.bool true], [.atom "true"]])]⟩⟩ : PredicateStore).addFact "p"
      [.array 0] = .ok truths := rfl
  exact .addFact (.addFact (.addFact .empty h₁) h₂) h₃

theorem truths_get? {functor : String} {tuples : List (List Value)}
    (h : truths.get? functor = some (.facts tuples)) :
    tuples = [[.bool true], [.atom "true"], [.array 0]] := by
  simp only [get?, Bindings.get?, truths, Bindings.find] at h
  split at h
  · cases h
    rfl
  · cases h

theorem truths_noNaN : truths.NoNaN := by
  intro functor tuples h
  rw [truths_get? h]
  simp [Value.isNaN]

theorem truths_atoms : atomsOf truths.facts =
    [⟨"p", [.name "/true"]⟩, ⟨"p", [.name "/true"]⟩] := by
  have hfacts : truths.facts = [("p", [.bool true]), ("p", [.atom "true"]), ("p", [.array 0])] := by
    simp [facts, functors, tuples, truths, Bindings.sortedNames, Bindings.names, get?,
      Bindings.get?, Bindings.find, Entry.tuples]
  rw [hfacts]
  decide +kernel

theorem truths_isSet : FactStore.hashed.IsSet (· ∈ atomsOf truths.facts) := by
  refine FactStore.hashed_isSet fun a b ha hb _ => ?_
  simp only [truths_atoms, List.mem_cons, List.not_mem_nil, or_false, or_self] at ha hb
  rw [ha, hb]

theorem truths_accounts :
    truths.Built ∧ truths.NoNaN ∧ FactStore.hashed.IsSet (· ∈ atomsOf truths.facts) ∧
    (Export.into .hashed truths).exported + (Export.into .hashed truths).skipped ≤ truths.total ∧
    ((Export.into .hashed truths).exported + (Export.into .hashed truths).skipped = truths.total ↔
      ∀ functor tuples, truths.get? functor = some (.facts tuples) → ∀ t ∈ tuples, ∀ t' ∈ tuples,
        (Atom.ofFact? functor t).isSome → List.Forall₂ Value.Coincides t t' → t = t') :=
  ⟨truths_built, truths_noNaN, truths_isSet, truths_built.accounts truths_noNaN truths_isSet⟩

/-- One of three facts is counted nowhere. -/
theorem truths_unaccounted : ¬ ∀ (S : FactStore) (s : PredicateStore), s.Built → s.NoNaN →
    S.IsSet (· ∈ atomsOf s.facts) →
    (Export.into S s).exported + (Export.into S s).skipped = s.total := by
  intro h
  have hall := h .hashed truths truths_built truths_noNaN truths_isSet
  obtain ⟨-, hexported, hskipped⟩ := Export.tells_into truths_isSet
  have htotal : truths.total = 3 := rfl
  rw [truths_built.length_facts, truths_atoms, List.length_cons, List.length_singleton] at hskipped
  have hone : (Export.into .hashed truths).exported = 1 := by
    rw [hexported, truths_atoms]
    decide +kernel
  omega

end PredicateStore

end LogicScript
