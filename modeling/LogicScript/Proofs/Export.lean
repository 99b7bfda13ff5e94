import Mathlib.Data.Finset.Card
import Mathlib.Data.Prod.Lex
import Mathlib.Data.String.Basic
import LogicScript.Datalog
import LogicScript.Proofs.Stores

/-! What an export of facts holds, and what it says.

Facts go into a store of Datalog atoms. Such a store is asked to be a set: adding an atom tells
whether it is new, and what has been added is listed once, in whatever order. Then an export holds
the atoms of the facts, each once, and its lines list them in an order of their own. -/
namespace LogicScript

open Datalog

namespace PredicateStore

variable {s : PredicateStore}

/-- The facts of one functor. -/
def tuples (s : PredicateStore) (functor : String) : List (List Value) :=
  ((s.get? functor).map (·.tuples)).getD []

theorem tuples_eq {functor : String} {e : Entry} (h : s.get? functor = some e) :
    s.tuples functor = e.tuples := by
  simp [tuples, h]

/-- The facts of all functors, in ascending order of the functors. -/
def facts (s : PredicateStore) : List (String × List Value) :=
  s.functors.flatMap fun functor => (s.tuples functor).map (functor, ·)

theorem get?_of_mem_tuples {functor : String} {tuple : List Value}
    (h : tuple ∈ s.tuples functor) : s.get? functor = some (.facts (s.tuples functor)) := by
  cases he : s.get? functor with
  | none => simp [tuples, he] at h
  | some e =>
    rw [tuples_eq he] at h ⊢
    cases e with
    | facts tuples => rfl
    | rule r => cases h

theorem mem_facts {functor : String} {tuple : List Value} (h : (functor, tuple) ∈ s.facts) :
    tuple ∈ s.tuples functor := by
  simp only [facts, List.mem_flatMap, List.mem_map, Prod.mk.injEq] at h
  obtain ⟨_, -, t, ht, rfl, rfl⟩ := h
  exact ht

end PredicateStore

namespace Datalog

/-- The atoms of facts, without those facts that have no atom. -/
def atomsOf (facts : List (String × List Value)) : List Atom :=
  facts.filterMap fun fact => Atom.ofFact? fact.1 fact.2

/-- The line that a Datalog text has for an atom. -/
def Atom.line (a : Atom) : String := a.text ++ "."

section Sorting

variable {α β : Type} [LinearOrder β] {le : α → α → Bool} (key : α → β)

theorem pairwise_mergeSort_of_key (hle : ∀ a b, le a b = decide (key a ≤ key b)) (l : List α) :
    (l.mergeSort le).Pairwise fun a b => key a ≤ key b := by
  have htrans : ∀ a b c, le a b = true → le b c = true → le a c = true := fun a b c => by
    simpa [hle] using le_trans
  have htotal : ∀ a b, (le a b || le b a) = true := fun a b => by
    simpa [hle] using le_total (key a) (key b)
  simpa [hle] using List.pairwise_mergeSort htrans htotal l

/-- Where the key tells elements apart, the order before sorting does not matter. -/
theorem mergeSort_of_perm (hle : ∀ a b, le a b = decide (key a ≤ key b))
    (hkey : Function.Injective key) {l l' : List α} (h : l.Perm l') :
    l.mergeSort le = l'.mergeSort le := by
  have hperm : (l.mergeSort le).Perm (l'.mergeSort le) :=
    (List.mergeSort_perm l le).trans (h.trans (List.mergeSort_perm l' le).symm)
  refine hperm.eq_of_pairwise (fun a b _ _ hab hba => hkey ?_)
    (pairwise_mergeSort_of_key key hle l) (pairwise_mergeSort_of_key key hle l')
  exact le_antisymm hab hba

end Sorting

namespace FactStore

/-- The store after some atoms were added one after the other. -/
def ofList (S : FactStore) (as : List Atom) : S.State :=
  as.foldl (fun state a => (S.add state a).2) S.empty

theorem ofList_concat (S : FactStore) (as : List Atom) (a : Atom) :
    S.ofList (as ++ [a]) = (S.add (S.ofList as) a).2 := by
  simp [ofList]

/-- As long as only such atoms are added to it, the store is a set of atoms, which it lists by
predicate in some order. -/
structure IsSet (S : FactStore) (A : Atom → Prop) : Prop where
  new : ∀ as a, (∀ b ∈ as, A b) → A a → ((S.add (S.ofList as) a).1 = true ↔ a ∉ as)
  predicates_nodup : ∀ as, (∀ a ∈ as, A a) → (S.predicates (S.ofList as)).Nodup
  mem_predicates : ∀ as signature, (∀ a ∈ as, A a) →
    (signature ∈ S.predicates (S.ofList as) ↔ ∃ a ∈ as, a.signature = signature)
  facts_nodup : ∀ as signature, (∀ a ∈ as, A a) → (S.facts (S.ofList as) signature).Nodup
  mem_facts : ∀ as signature a, (∀ b ∈ as, A b) →
    (a ∈ S.facts (S.ofList as) signature ↔ a ∈ as ∧ a.signature = signature)

theorem IsSet.mono {S : FactStore} {A B : Atom → Prop} (h : S.IsSet B) (hAB : ∀ a, A a → B a) :
    S.IsSet A where
  new as a has ha := h.new as a (fun b hb => hAB b (has b hb)) (hAB a ha)
  predicates_nodup as has := h.predicates_nodup as fun b hb => hAB b (has b hb)
  mem_predicates as signature has := h.mem_predicates as signature fun b hb => hAB b (has b hb)
  facts_nodup as signature has := h.facts_nodup as signature fun b hb => hAB b (has b hb)
  mem_facts as signature a has := h.mem_facts as signature a fun b hb => hAB b (has b hb)

theorem nodup_eraseDups {α : Type} [BEq α] [LawfulBEq α] (l : List α) : l.eraseDups.Nodup := by
  induction h : l.length using Nat.strong_induction_on generalizing l with
  | _ n ih =>
    subst h
    cases l with
    | nil => simp
    | cons a as =>
      rw [List.eraseDups_cons, List.nodup_cons]
      refine ⟨by simp, ih _ ?_ _ rfl⟩
      exact Nat.lt_succ_of_le (List.length_filter_le ..)

/-- The atoms that the first of each hash have left over. -/
def kept (as : List Atom) : List Atom := hashed.ofList as

theorem hashed_add (atoms : List Atom) (a : Atom) :
    (hashed.add atoms a).1 = !atoms.any (·.clashes a) ∧
    (hashed.add atoms a).2 = if atoms.any (·.clashes a) then atoms else atoms ++ [a] := by
  have hadd : hashed.add atoms a =
      if atoms.any (·.clashes a) then (false, atoms) else (true, atoms ++ [a]) := rfl
  rw [hadd]
  cases atoms.any (·.clashes a) <;> exact ⟨rfl, rfl⟩

theorem kept_concat (as : List Atom) (a : Atom) :
    kept (as ++ [a]) = if (kept as).any (·.clashes a) then kept as else kept as ++ [a] :=
  (ofList_concat ..).trans (hashed_add (kept as) a).2

section Hashed

variable {A : Atom → Prop} (hA : ∀ a b, A a → A b → a.clashes b = true → a = b)

include hA

theorem mem_kept {as : List Atom} (has : ∀ a ∈ as, A a) :
    (kept as).Nodup ∧ ∀ a, a ∈ kept as ↔ a ∈ as := by
  induction as using List.reverseRecOn with
  | nil => exact ⟨List.nodup_nil, fun a => Iff.rfl⟩
  | append_singleton as a ih =>
    simp only [List.mem_append, List.mem_singleton] at has
    obtain ⟨hnodup, hmem⟩ := ih fun b hb => has b (.inl hb)
    rw [kept_concat]
    split
    · rename_i hclash
      obtain ⟨b, hb, hclash⟩ := List.any_eq_true.mp hclash
      have hb := (hmem b).mp hb
      have hold : a ∈ as := hA b a (has b (.inl hb)) (has a (.inr rfl)) hclash ▸ hb
      refine ⟨hnodup, fun c => (hmem c).trans ?_⟩
      simp only [List.mem_append, List.mem_singleton]
      exact ⟨.inl, fun h => h.elim id fun heq => heq ▸ hold⟩
    · rename_i hclash
      refine ⟨hnodup.append (List.nodup_singleton a) ?_, fun c => by simp only [List.mem_append, hmem]⟩
      rintro b hb hab
      rw [List.mem_singleton.mp hab] at hb
      exact hclash (List.any_eq_true.mpr ⟨a, hb, by simp [Atom.clashes]⟩)

theorem any_clashes {as : List Atom} {a : Atom} (has : ∀ b ∈ as, A b) (ha : A a) :
    (kept as).any (·.clashes a) = true ↔ a ∈ as := by
  obtain ⟨-, hmem⟩ := mem_kept hA has
  rw [List.any_eq_true]
  constructor
  · rintro ⟨b, hb, hclash⟩
    have hb := (hmem b).mp hb
    exact hA b a (has b hb) ha hclash ▸ hb
  · exact fun h => ⟨a, (hmem a).mpr h, by simp [Atom.clashes]⟩

/-- Where no two atoms have the same hash, the hash makes no difference. -/
theorem hashed_isSet : hashed.IsSet A where
  new as a has ha := by
    have hnew : (hashed.add (hashed.ofList as) a).1 = _ := (hashed_add (kept as) a).1
    rw [hnew, Bool.not_eq_true', ← Bool.not_eq_true, any_clashes hA has ha]
  predicates_nodup as _ := nodup_eraseDups _
  mem_predicates as signature has := by
    have hlist : hashed.predicates (hashed.ofList as) = ((kept as).map Atom.signature).eraseDups :=
      rfl
    rw [hlist, List.mem_eraseDups, List.mem_map]
    exact exists_congr fun a => and_congr_left fun _ => (mem_kept hA has).2 a
  facts_nodup as signature has := (mem_kept hA has).1.filter _
  mem_facts as signature a has := by
    have hlist : hashed.facts (hashed.ofList as) signature =
        (kept as).filter (·.signature == signature) := rfl
    rw [hlist, List.mem_filter, beq_iff_eq, (mem_kept hA has).2]

end Hashed

end FactStore

namespace Export

variable {S : FactStore} {x x' : Export S} {facts facts' : List (String × List Value)}

/-- What an export has come to when it was given some facts. -/
structure Tells (x : Export S) (facts : List (String × List Value)) : Prop where
  store : x.store = S.ofList (atomsOf facts)
  exported : x.exported = (atomsOf facts).toFinset.card
  skipped : x.skipped + (atomsOf facts).length = facts.length

theorem Tells.add (h : x.Tells facts) {functor : String} {tuple : List Value}
    (hS : S.IsSet (· ∈ atomsOf (facts ++ [(functor, tuple)]))) :
    (x.add functor tuple).Tells (facts ++ [(functor, tuple)]) := by
  obtain ⟨hstore, hexported, hskipped⟩ := h
  unfold Export.add
  cases hatom : Atom.ofFact? functor tuple with
  | none =>
    have hatoms : atomsOf (facts ++ [(functor, tuple)]) = atomsOf facts := by
      simp [atomsOf, List.filterMap_append, hatom]
    refine ⟨by rw [hatoms]; exact hstore, by rw [hatoms]; exact hexported, ?_⟩
    rw [hatoms, List.length_append, List.length_singleton]
    dsimp only
    omega
  | some a =>
    have hatoms : atomsOf (facts ++ [(functor, tuple)]) = atomsOf facts ++ [a] := by
      simp [atomsOf, List.filterMap_append, hatom]
    rw [hatoms] at hS
    have hnew := hS.new (atomsOf facts) a (fun b hb => List.mem_append_left _ hb) (by simp)
    have hlength : x.skipped + (atomsOf facts ++ [a]).length = (facts ++ [(functor, tuple)]).length := by
      simp only [List.length_append, List.length_singleton]
      omega
    have hset : (atomsOf facts ++ [a]).toFinset = insert a (atomsOf facts).toFinset := by
      rw [List.toFinset_append, List.toFinset_cons, List.toFinset_nil, insert_empty_eq,
        Finset.union_comm, Finset.singleton_union]
    rw [← hstore] at hnew
    dsimp only
    split
    · rename_i store hadd
      rw [hadd] at hnew
      refine ⟨?_, ?_, by rw [hatoms]; exact hlength⟩
      · rw [hatoms, FactStore.ofList_concat, ← hstore, hadd]
      · rw [hatoms, hset, Finset.card_insert_of_notMem (by simpa using hnew)]
        exact congrArg (· + 1) hexported
    · rename_i store hadd
      rw [hadd] at hnew
      refine ⟨?_, ?_, by rw [hatoms]; exact hlength⟩
      · rw [hatoms, FactStore.ofList_concat, ← hstore, hadd]
      · rw [hatoms, hset, Finset.insert_eq_of_mem (by simpa using hnew)]
        exact hexported

theorem into_eq (S : FactStore) (s : PredicateStore) :
    into S s = s.facts.foldl (fun x fact => x.add fact.1 fact.2) {} := by
  simp only [into, PredicateStore.facts, PredicateStore.tuples, List.foldl_flatMap, List.foldl_map]

theorem tells_into {s : PredicateStore} (hS : S.IsSet (· ∈ atomsOf s.facts)) :
    (into S s).Tells s.facts := by
  rw [into_eq]
  generalize s.facts = facts at hS
  induction facts using List.reverseRecOn with
  | nil => exact ⟨rfl, rfl, rfl⟩
  | append_singleton facts fact ih =>
    rw [List.foldl_append]
    exact (ih (hS.mono fun a ha => by simp [atomsOf, List.filterMap_append] at ha ⊢; exact .inl ha)).add hS

/-- The lines of one predicate. -/
def group (x : Export S) (signature : String × Nat) : List String :=
  sorted ((S.facts x.store signature).map Atom.line)

theorem lines_eq (x : Export S) : x.lines = x.signatures.flatMap x.group := by
  unfold lines
  congr 1
  funext signature
  simp only [group, Export.facts, List.map_map]
  rfl

theorem sorted_of_perm {texts texts' : List String} (h : texts.Perm texts') :
    sorted texts = sorted texts' :=
  mergeSort_of_perm id (fun _ _ => rfl) Function.injective_id h

theorem pairwise_sorted (texts : List String) : (sorted texts).Pairwise (· ≤ ·) :=
  pairwise_mergeSort_of_key id (fun _ _ => rfl) texts

theorem signature_le (a b : String × Nat) :
    decide (a.1 < b.1 ∨ a.1 = b.1 ∧ a.2 ≤ b.2) = decide (toLex a ≤ toLex b) :=
  decide_eq_decide.mpr Prod.Lex.toLex_le_toLex.symm

namespace Tells

theorem predicates_nodup (h : x.Tells facts) (hS : S.IsSet (· ∈ atomsOf facts)) :
    (S.predicates x.store).Nodup := by
  rw [h.store]
  exact hS.predicates_nodup _ fun _ ha => ha

theorem mem_predicates (h : x.Tells facts) (hS : S.IsSet (· ∈ atomsOf facts))
    (signature : String × Nat) : signature ∈ S.predicates x.store ↔
      ∃ a ∈ atomsOf facts, a.signature = signature := by
  rw [h.store]
  exact hS.mem_predicates _ _ fun _ ha => ha

theorem facts_nodup (h : x.Tells facts) (hS : S.IsSet (· ∈ atomsOf facts))
    (signature : String × Nat) : (S.facts x.store signature).Nodup := by
  rw [h.store]
  exact hS.facts_nodup _ _ fun _ ha => ha

theorem mem_facts (h : x.Tells facts) (hS : S.IsSet (· ∈ atomsOf facts))
    (signature : String × Nat) (a : Atom) :
    a ∈ S.facts x.store signature ↔ a ∈ atomsOf facts ∧ a.signature = signature := by
  rw [h.store]
  exact hS.mem_facts _ _ _ fun _ ha => ha

/-- The order in which atoms were added, and the order in which the store lists them, do not show in
the lines. -/
theorem lines_of_perm (h : x.Tells facts) (h' : x'.Tells facts')
    (hS : S.IsSet (· ∈ atomsOf facts)) (hperm : (atomsOf facts').Perm (atomsOf facts)) :
    x'.lines = x.lines := by
  have hS' : S.IsSet (· ∈ atomsOf facts') := hS.mono fun a ha => hperm.mem_iff.mp ha
  have hsignatures : x'.signatures = x.signatures := by
    refine mergeSort_of_perm toLex signature_le toLex.injective ?_
    refine (List.perm_ext_iff_of_nodup (h'.predicates_nodup hS') (h.predicates_nodup hS)).mpr ?_
    intro signature
    rw [h'.mem_predicates hS', h.mem_predicates hS]
    simp only [hperm.mem_iff]
  have hgroup : x'.group = x.group := by
    funext signature
    refine sorted_of_perm (List.Perm.map _ ?_)
    refine (List.perm_ext_iff_of_nodup (h'.facts_nodup hS' _) (h.facts_nodup hS _)).mpr ?_
    intro a
    rw [h'.mem_facts hS', h.mem_facts hS, hperm.mem_iff]
  rw [lines_eq, lines_eq, hsignatures, hgroup]

theorem length_lines (h : x.Tells facts) (hS : S.IsSet (· ∈ atomsOf facts)) :
    x.lines.length = x.exported := by
  have hperm : (x.signatures.flatMap (S.facts x.store)).Perm
      ((S.predicates x.store).flatMap (S.facts x.store)) :=
    (List.mergeSort_perm ..).flatMap_right _
  have hnodup : ((S.predicates x.store).flatMap (S.facts x.store)).Nodup := by
    refine List.nodup_flatMap.mpr ⟨fun signature _ => h.facts_nodup hS signature, ?_⟩
    refine (h.predicates_nodup hS).imp fun {s t} hne a hs ht => hne ?_
    rw [← ((h.mem_facts hS s a).mp hs).2, ((h.mem_facts hS t a).mp ht).2]
  have hatoms : ((S.predicates x.store).flatMap (S.facts x.store)).toFinset =
      (atomsOf facts).toFinset := by
    ext a
    simp only [List.mem_toFinset, List.mem_flatMap, h.mem_predicates hS, h.mem_facts hS]
    constructor
    · rintro ⟨_, -, ha, -⟩
      exact ha
    · exact fun ha => ⟨_, ⟨a, ha, rfl⟩, ha, rfl⟩
  rw [h.exported, ← hatoms, List.toFinset_card_of_nodup hnodup, ← hperm.length_eq, lines_eq]
  simp only [List.length_flatMap, group, sorted, List.length_mergeSort, List.length_map]

end Tells

/-- The lines of one predicate are those of its atoms, each once, in ascending order. -/
def Lists (as : List Atom) (signature : String × Nat) (lines : List String) : Prop :=
  lines.Pairwise (· ≤ ·) ∧ ∃ atoms : List Atom, atoms.Nodup ∧
    (∀ a, a ∈ atoms ↔ a ∈ as ∧ a.signature = signature) ∧ lines.Perm (atoms.map Atom.line)

/-- The lines of atoms stand in groups, one for each predicate, in ascending order of functors and
then of arities. -/
def Grouped (as : List Atom) (lines : List String) : Prop :=
  ∃ groups : List ((String × Nat) × List String), lines = groups.flatMap (·.2) ∧
    (groups.Pairwise fun g g' => toLex g.1 < toLex g'.1) ∧
    (∀ a ∈ as, ∃ g ∈ groups, g.1 = a.signature) ∧ ∀ g ∈ groups, Lists as g.1 g.2

theorem Tells.grouped (h : x.Tells facts) (hS : S.IsSet (· ∈ atomsOf facts)) :
    Grouped (atomsOf facts) x.lines := by
  have hmem : ∀ signature, signature ∈ x.signatures ↔ signature ∈ S.predicates x.store :=
    fun _ => (List.mergeSort_perm ..).mem_iff
  refine ⟨x.signatures.map fun signature => (signature, x.group signature), ?_, ?_, ?_, ?_⟩
  · rw [lines_eq, List.flatMap_map]
  · have hsorted : x.signatures.Pairwise fun s t => toLex s ≤ toLex t :=
      pairwise_mergeSort_of_key toLex signature_le _
    have hne : x.signatures.Pairwise (· ≠ ·) :=
      (List.mergeSort_perm ..).nodup_iff.mpr (h.predicates_nodup hS)
    refine List.pairwise_map.mpr ((hsorted.and hne).imp fun {s t} hst => ?_)
    exact lt_of_le_of_ne hst.1 fun heq => hst.2 (toLex.injective heq)
  · intro a ha
    refine ⟨_, List.mem_map_of_mem ((hmem a.signature).mpr ?_), rfl⟩
    exact (h.mem_predicates hS _).mpr ⟨a, ha, rfl⟩
  · intro g hg
    obtain ⟨signature, -, rfl⟩ := List.mem_map.mp hg
    exact ⟨pairwise_sorted _, _, h.facts_nodup hS signature, h.mem_facts hS signature,
      List.mergeSort_perm ..⟩

end Export

end Datalog

end LogicScript
