import LogicScript.StaticType

/-! The laws of types.

Being the same is reflexive and transitive. It is symmetric but for one mistake: a primitive is looked
for by its name alone, so a struct of that name passes for it, while the struct does not take the
primitive for itself. Where no struct is named like a primitive, types that are the same can be put for
each other everywhere, and the types are ordered by what can be stored in what. -/
namespace LogicScript

theorem Primitive.eq_of_name {p q : Primitive} (h : p.name = q.name) : p = q := by
  cases p <;> cases q <;> first | rfl | exact absurd h (by decide)

namespace Ty

mutual

/-- The structs that a type speaks of. -/
def structs : Ty → List StructDecl
  | .prim _ => []
  | .array t => t.structs
  | .struct d => [d]
  | .function params result => structsOfList params ++ result.structs
  | .predicate _ params => structsOfList params

def structsOfList : List Ty → List StructDecl
  | [] => []
  | t :: ts => t.structs ++ structsOfList ts

end

mutual

/-- Somewhere a primitive of the first type stands opposite a struct of the second one that has its
name. -/
def mistakes : Ty → Ty → Bool
  | .prim p, .struct d => p.name == d.name
  | .array s, .array t => mistakes s t
  | .function ps r, .function qs q => mistakes r q || mistakesAny ps qs
  | _, _ => false

def mistakesAny : List Ty → List Ty → Bool
  | s :: ss, t :: ts => mistakes s t || mistakesAny ss ts
  | _, _ => false

end

/-- What has some other character than a letter is not the name of a primitive. -/
theorem prim_name_ne {p : Primitive} {s : String} {c : Char} (hc : c ∈ s.toList)
    (hletter : c.isAlpha = false) : p.name ≠ s := by
  have hletters : p.name.toList.all Char.isAlpha = true := by cases p <;> rfl
  rintro rfl
  rw [List.all_eq_true.mp hletters c hc] at hletter
  cases hletter

theorem prim_name_ne_array (p : Primitive) (t : Ty) : p.name ≠ (array t).name :=
  prim_name_ne (c := '[') (by simp [name]) (by decide)

theorem prim_name_ne_function (p : Primitive) (ps : List Ty) (r : Ty) :
    p.name ≠ (function ps r).name := prim_name_ne (c := '(') (by simp [name]) (by decide)

theorem prim_name_ne_predicate (p : Primitive) (functor : String) (ps : List Ty) :
    p.name ≠ (predicate functor ps).name := prim_name_ne (c := '(') (by simp [name]) (by decide)

/-- A primitive is the same as itself and as the structs of its name. -/
theorem same_prim_iff {p : Primitive} {t : Ty} :
    same (.prim p) t = true ↔ t = .prim p ∨ ∃ d, t = .struct d ∧ p.name = d.name := by
  cases t with
  | prim q =>
    simp only [same, name, beq_iff_eq, prim.injEq, reduceCtorEq, false_and, exists_false, or_false]
    exact ⟨fun h => (Primitive.eq_of_name h).symm, fun h => h ▸ rfl⟩
  | struct d => simp [same, name]
  | array t => simp [same, prim_name_ne_array]
  | function ps r => simp [same, prim_name_ne_function]
  | predicate functor ps => simp [same, prim_name_ne_predicate]

theorem same_array_iff {s t : Ty} :
    same (.array s) t = true ↔ ∃ u, t = .array u ∧ same s u = true := by
  cases t <;> simp [same]

theorem same_struct_iff {d : StructDecl} {t : Ty} :
    same (.struct d) t = true ↔ ∃ e, t = .struct e ∧ d.mark.id = e.mark.id := by
  cases t <;> simp [same]

theorem length_of_sameAll {ss ts : List Ty} (h : sameAll ss ts = true) : ss.length = ts.length := by
  induction ss generalizing ts with
  | nil => cases ts with
    | nil => rfl
    | cons t ts => simp [sameAll] at h
  | cons s ss ih => cases ts with
    | nil => simp [sameAll] at h
    | cons t ts =>
      simp only [sameAll, Bool.and_eq_true] at h
      simp [ih h.2]

theorem same_function_iff {ps : List Ty} {r t : Ty} : same (.function ps r) t = true ↔
    ∃ qs q, t = .function qs q ∧ same r q = true ∧ sameAll ps qs = true := by
  cases t with
  | function qs q =>
    simp only [same, Bool.and_eq_true, beq_iff_eq, function.injEq]
    constructor
    · rintro ⟨⟨-, hr⟩, hps⟩
      exact ⟨qs, q, ⟨rfl, rfl⟩, hr, hps⟩
    · rintro ⟨_, _, ⟨rfl, rfl⟩, hr, hps⟩
      exact ⟨⟨length_of_sameAll hps, hr⟩, hps⟩
  | _ => simp [same]

theorem same_predicate_iff {f : String} {ps : List Ty} {t : Ty} :
    same (.predicate f ps) t = true ↔ ∃ qs, t = .predicate f qs ∧ ps.length = qs.length := by
  cases t with
  | predicate g qs =>
    simp only [same, Bool.and_eq_true, beq_iff_eq, predicate.injEq]
    constructor
    · rintro ⟨rfl, h⟩
      exact ⟨qs, ⟨rfl, rfl⟩, h⟩
    · rintro ⟨_, ⟨rfl, rfl⟩, h⟩
      exact ⟨rfl, h⟩
  | _ => simp [same]

mutual

theorem same_refl : ∀ t : Ty, same t t = true
  | .prim _ => same_prim_iff.mpr (.inl rfl)
  | .array t => same_array_iff.mpr ⟨t, rfl, same_refl t⟩
  | .struct d => same_struct_iff.mpr ⟨d, rfl, rfl⟩
  | .function ps r => same_function_iff.mpr ⟨ps, r, rfl, same_refl r, sameAll_refl ps⟩
  | .predicate _ ps => same_predicate_iff.mpr ⟨ps, rfl, rfl⟩

theorem sameAll_refl : ∀ ts : List Ty, sameAll ts ts = true
  | [] => rfl
  | t :: ts => by rw [sameAll, same_refl t, sameAll_refl ts]; rfl

end

/-- A struct of both types passes in both for the same primitive, if for any. -/
def Coherent (ss ts : List StructDecl) : Prop :=
  ∀ d ∈ ss, ∀ e ∈ ts, d.mark.id = e.mark.id → ∀ p : Primitive, p.name = d.name → p.name = e.name

theorem Coherent.mono {ss ss' ts ts' : List StructDecl} (h : Coherent ss ts) (hs : ss' ⊆ ss)
    (ht : ts' ⊆ ts) : Coherent ss' ts' := fun d hd e he => h d (hs hd) e (ht he)

mutual

theorem same_trans (r : Ty) {s t : Ty} (h : Coherent s.structs t.structs) (hrs : same r s = true)
    (hst : same s t = true) : same r t = true := by
  match r with
  | .prim p =>
    rcases same_prim_iff.mp hrs with rfl | ⟨d, rfl, hname⟩
    · exact hst
    · obtain ⟨e, rfl, hid⟩ := same_struct_iff.mp hst
      exact same_prim_iff.mpr (.inr ⟨e, rfl, h d (by simp [structs]) e (by simp [structs]) hid p hname⟩)
  | .array r =>
    obtain ⟨s, rfl, hr⟩ := same_array_iff.mp hrs
    obtain ⟨t, rfl, hs⟩ := same_array_iff.mp hst
    simp only [structs] at h
    exact same_array_iff.mpr ⟨t, rfl, same_trans r h hr hs⟩
  | .struct d =>
    obtain ⟨e, rfl, hde⟩ := same_struct_iff.mp hrs
    obtain ⟨f, rfl, hef⟩ := same_struct_iff.mp hst
    exact same_struct_iff.mpr ⟨f, rfl, hde.trans hef⟩
  | .function ps r =>
    obtain ⟨qs, q, rfl, hr, hps⟩ := same_function_iff.mp hrs
    obtain ⟨us, u, rfl, hq, hqs⟩ := same_function_iff.mp hst
    simp only [structs] at h
    exact same_function_iff.mpr ⟨us, u, rfl, same_trans r (h.mono (by simp) (by simp)) hr hq,
      sameAll_trans ps (h.mono (by simp) (by simp)) hps hqs⟩
  | .predicate f ps =>
    obtain ⟨qs, rfl, hps⟩ := same_predicate_iff.mp hrs
    obtain ⟨us, rfl, hqs⟩ := same_predicate_iff.mp hst
    exact same_predicate_iff.mpr ⟨us, rfl, hps.trans hqs⟩

theorem sameAll_trans (rs : List Ty) {ss ts : List Ty}
    (h : Coherent (structsOfList ss) (structsOfList ts)) (hrs : sameAll rs ss = true)
    (hst : sameAll ss ts = true) : sameAll rs ts = true := by
  match rs, ss, ts with
  | [], [], [] => rfl
  | r :: rs, s :: ss, t :: ts =>
    simp only [sameAll, Bool.and_eq_true] at hrs hst ⊢
    simp only [structsOfList] at h
    exact ⟨same_trans r (h.mono (by simp) (by simp)) hrs.1 hst.1,
      sameAll_trans rs (h.mono (by simp) (by simp)) hrs.2 hst.2⟩

end

mutual

/-- Of two types that are the same, the second one takes itself for the first one unless a primitive
there stands opposite a struct of its name. -/
theorem same_symm_iff (s : Ty) {t : Ty} (h : same s t = true) :
    same t s = true ↔ mistakes s t = false := by
  match s with
  | .prim p =>
    rcases same_prim_iff.mp h with rfl | ⟨d, rfl, hname⟩
    · simp [same_refl, mistakes]
    · simp [same, mistakes, hname]
  | .array s =>
    obtain ⟨t, rfl, hst⟩ := same_array_iff.mp h
    simpa [same, mistakes] using same_symm_iff s hst
  | .struct d =>
    obtain ⟨e, rfl, hid⟩ := same_struct_iff.mp h
    simp [same, mistakes, hid]
  | .function ps r =>
    obtain ⟨qs, q, rfl, hr, hps⟩ := same_function_iff.mp h
    simp only [same_function_iff, function.injEq, mistakes, Bool.or_eq_false_iff,
      ← same_symm_iff r hr, ← sameAll_symm_iff ps hps]
    exact ⟨fun ⟨_, _, ⟨rfl, rfl⟩, h⟩ => h, fun h => ⟨_, _, ⟨rfl, rfl⟩, h⟩⟩
  | .predicate f ps =>
    obtain ⟨qs, rfl, hps⟩ := same_predicate_iff.mp h
    simp [same, mistakes, hps]

theorem sameAll_symm_iff (ss : List Ty) {ts : List Ty} (h : sameAll ss ts = true) :
    sameAll ts ss = true ↔ mistakesAny ss ts = false := by
  match ss, ts with
  | [], [] => simp [sameAll, mistakesAny]
  | s :: ss, t :: ts =>
    simp only [sameAll, Bool.and_eq_true] at h
    simp only [sameAll, Bool.and_eq_true, mistakesAny, Bool.or_eq_false_iff, same_symm_iff s h.1,
      sameAll_symm_iff ss h.2]

end

theorem isNumeric_iff {t : Ty} : t.isNumeric = true ↔ t = .int ∨ t = .float := by
  cases t with
  | prim p => cases p <;> simp [isNumeric, isInt, isFloat]
  | _ => simp [isNumeric, isInt, isFloat]

/-- If two types are compared one way round, they are compared the other way round, unless one is
taken for the other by mistake. -/
theorem comparable_symm_iff {s t : Ty} (h : comparable s t = true) :
    comparable t s = true ↔ mistakes s t = false := by
  unfold comparable at h ⊢
  by_cases hnumeric : s.isNumeric = true ∧ t.isNumeric = true
  · have hnone : mistakes s t = false := by
      rcases isNumeric_iff.mp hnumeric.1 with rfl | rfl <;>
        rcases isNumeric_iff.mp hnumeric.2 with rfl | rfl <;> rfl
    simp [hnumeric, hnone]
  · have hsame : same s t = true := by simpa [hnumeric] using h
    have hflip : (t.isNumeric && s.isNumeric) = false := by
      simpa [Bool.and_comm, ← Bool.not_eq_true] using hnumeric
    rw [hflip, Bool.or_false]
    exact same_symm_iff s hsame

/-- Types that may be missing: two missing types are no mistake. -/
def mistakes? : Option Ty → Option Ty → Bool
  | some s, some t => mistakes s t
  | _, _ => false

/-- The structs that a type speaks of, if it is there. -/
def structs? (t : Option Ty) : List StructDecl := (t.map structs).getD []

section Missing

variable {r s t : Option Ty}

theorem same?_refl (t : Option Ty) : same? t t = true := by
  cases t with
  | none => rfl
  | some t => exact same_refl t

theorem same?_trans (h : Coherent (structs? s) (structs? t)) (hrs : same? r s = true)
    (hst : same? s t = true) : same? r t = true := by
  match r, s, t with
  | none, none, _ => exact hst
  | none, some _, _ | some _, none, _ => cases hrs
  | some _, some _, none => cases hst
  | some r, some _, some _ => exact same_trans r h hrs hst

theorem same?_symm_iff (h : same? s t = true) : same? t s = true ↔ mistakes? s t = false := by
  match s, t with
  | none, none => exact iff_of_true rfl rfl
  | none, some _ | some _, none => cases h
  | some s, some _ => exact same_symm_iff s h

theorem comparable?_symm_iff (h : comparable? s t = true) :
    comparable? t s = true ↔ mistakes? s t = false := by
  match s, t with
  | none, none => exact iff_of_true rfl rfl
  | none, some _ | some _, none => cases h
  | some _, some _ => exact comparable_symm_iff h

end Missing

/-- Each type is the same as itself, and what is the same as the same is the same. Whether two types are
the same, and whether they may be compared, depends on which of them is asked only where a primitive
stands opposite a struct of its name. -/
theorem same_up_to_mistakes (r s t : Option Ty) :
    same? t t = true ∧
    ((∀ d ∈ structs? s, ∀ e ∈ structs? t, d.mark.id = e.mark.id → d = e) →
      same? r s = true → same? s t = true → same? r t = true) ∧
    (same? s t = true → (same? t s = true ↔ mistakes? s t = false)) ∧
    (comparable? s t = true → (comparable? t s = true ↔ mistakes? s t = false)) := by
  refine ⟨same?_refl t, fun hdecls hrs hst => ?_, same?_symm_iff, comparable?_symm_iff⟩
  have hcoherent : Coherent (structs? s) (structs? t) := fun d hd e he hid p hp =>
    hdecls d hd e he hid ▸ hp
  exact same?_trans hcoherent hrs hst

/-- A struct that a block may declare. -/
def intStruct : Ty := .struct ⟨⟨1, {}⟩, "Int", []⟩

/-- A function of Ints passes for one of such structs, and not the other way round. -/
theorem intStruct_mistaken :
    let f : Ty := .function [.array .int] .void
    let g : Ty := .function [.array intStruct] .void
    same f g = true ∧ same g f = false ∧ comparable g f = false := by
  let f : Ty := .function [.array .int] .void
  let g : Ty := .function [.array intStruct] .void
  obtain ⟨hrefl, -⟩ := same_up_to_mistakes none none (some f)
  obtain ⟨-, htrans, hsame, hcomparable⟩ := same_up_to_mistakes (some f) (some f) (some g)
  have hfg : same? (some f) (some g) = true :=
    htrans (by simp [structs?, f, structs, structsOfList]) hrefl rfl
  have hmistaken : ¬ mistakes? (some f) (some g) = false := by decide
  refine ⟨hfg, ?_, ?_⟩
  · exact eq_false_of_ne_true fun h => hmistaken ((hsame hfg).mp h)
  · exact eq_false_of_ne_true fun h => hmistaken ((hcomparable rfl).mp h)

/-- Being the same is not symmetric. -/
theorem same_not_symm : ¬ ∀ s t : Option Ty, same? s t = true → same? t s = true := by
  intro hsymm
  cases hsymm (some .int) (some intStruct) rfl

/-! What can be stored in what. -/

/-- None of the structs is named like a primitive. -/
def WellNamed (ds : List StructDecl) : Prop := ∀ d ∈ ds, ∀ p : Primitive, p.name ≠ d.name

theorem WellNamed.mono {ds es : List StructDecl} (h : WellNamed ds) (hsub : es ⊆ ds) : WellNamed es :=
  fun d hd => h d (hsub hd)

theorem same_prim_iff_eq {p : Primitive} {t : Ty} (ht : WellNamed t.structs) :
    same (.prim p) t = true ↔ t = .prim p := by
  rw [same_prim_iff, or_iff_left]
  rintro ⟨d, rfl, hname⟩
  exact ht d (by simp [structs]) p hname

theorem same_to_prim_iff {p : Primitive} {s : Ty} : same s (.prim p) = true ↔ s = .prim p := by
  constructor
  · intro h
    cases s with
    | prim q => simpa [eq_comm] using same_prim_iff.mp h
    | _ => cases h
  · rintro rfl
    exact same_refl _

theorem WellNamed.coherent {ds es : List StructDecl} (h : WellNamed ds) : Coherent ds es :=
  fun d hd _ _ _ p hp => absurd hp (h d hd p)

mutual

theorem mistakes_of_wellNamed (s : Ty) {t : Ty} (h : WellNamed t.structs) :
    mistakes s t = false := by
  unfold mistakes
  split
  · rename_i p d
    simpa using h d (by simp [structs]) p
  · exact mistakes_of_wellNamed _ h
  · simp only [structs] at h
    rw [mistakes_of_wellNamed _ (h.mono (by simp)), mistakesAny_of_wellNamed _ (h.mono (by simp))]
    rfl
  · rfl

theorem mistakesAny_of_wellNamed (ss : List Ty) {ts : List Ty} (h : WellNamed (structsOfList ts)) :
    mistakesAny ss ts = false := by
  unfold mistakesAny
  split
  · simp only [structsOfList] at h
    rw [mistakes_of_wellNamed _ (h.mono (by simp)), mistakesAny_of_wellNamed _ (h.mono (by simp))]
    rfl
  · rfl

end

theorem same_symm {s t : Ty} (ht : WellNamed t.structs) (h : same s t = true) : same t s = true :=
  (same_symm_iff s h).mpr (mistakes_of_wellNamed s ht)

/-- The rules by which a value of one type can be stored in a slot of another one. -/
inductive Below : Ty → Ty → Prop
  | same {s t : Ty} : s ≠ .void → same s t = true → Below s t
  | widened : Below .int .float
  | null {t : Ty} : t.isReference = true → Below .null t
  | array {s t : Ty} : Below s t → Below (.array s) (.array t)

theorem isInt_iff {t : Ty} : t.isInt = true ↔ t = .int := by
  unfold isInt
  split <;> simp_all

theorem isFloat_iff {t : Ty} : t.isFloat = true ↔ t = .float := by
  unfold isFloat
  split <;> simp_all

theorem isNull_iff {t : Ty} : t.isNull = true ↔ t = .null := by
  unfold isNull
  split <;> simp_all

theorem below_of_assignable {s t : Ty} (h : assignable s t = true) : Below s t := by
  induction s, t using assignable.induct with
  | case1 => simp at h
  | case2 s t ih =>
    simp only [assignable, Bool.or_eq_true] at h
    exact h.elim (.same (by simp)) fun h => .array (ih h)
  | case3 s t hvoid harray =>
    have hrule : assignable s t =
        (same s t || (s.isInt && t.isFloat) || (s.isNull && t.isReference)) := by
      rw [assignable] <;> assumption
    simp only [hrule, Bool.or_eq_true, Bool.and_eq_true, isInt_iff, isFloat_iff, isNull_iff] at h
    obtain (h | ⟨rfl, rfl⟩) | ⟨rfl, h⟩ := h
    · exact .same (by rintro rfl; exact hvoid rfl) h
    · exact .widened
    · exact .null h

theorem assignable_of_below {s t : Ty} (h : Below s t) : assignable s t = true := by
  induction h with
  | @same s t hs h =>
    unfold assignable
    split <;> simp_all
  | widened => rfl
  | null h => simp [assignable, isNull, h]
  | array _ ih => simp [assignable, ih]

theorem assignable_iff {s t : Ty} : assignable s t = true ↔ Below s t :=
  ⟨below_of_assignable, assignable_of_below⟩

theorem isReference_of_same {s t : Ty} (ht : WellNamed t.structs) (h : same s t = true) :
    t.isReference = s.isReference := by
  cases s with
  | prim p => rw [(same_prim_iff_eq ht).mp h]
  | array s =>
    obtain ⟨t, rfl, -⟩ := same_array_iff.mp h
    rfl
  | struct d =>
    obtain ⟨e, rfl, -⟩ := same_struct_iff.mp h
    rfl
  | function ps r =>
    obtain ⟨qs, q, rfl, -, -⟩ := same_function_iff.mp h
    rfl
  | predicate f ps =>
    obtain ⟨qs, rfl, -⟩ := same_predicate_iff.mp h
    rfl

namespace Below

variable {r s t : Ty}

theorem array_iff : Below (.array s) (.array t) ↔ Ty.same s t = true ∨ Below s t := by
  constructor
  · intro h
    cases h with
    | same _ h => exact .inl h
    | array h => exact .inr h
  · rintro (h | h)
    · exact .same (by simp) h
    · exact .array h

/-- A type can be put for one that it is the same as, on the left of the order. -/
theorem of_same_left (hs : WellNamed s.structs) (hrs : Ty.same r s = true) (h : Below s t) :
    Below r t := by
  induction h generalizing r with
  | @same s t hvoid hst =>
    refine .same ?_ (same_trans r hs.coherent hrs hst)
    rintro rfl
    exact hvoid ((same_prim_iff_eq hs).mp hrs)
  | widened =>
    rw [same_to_prim_iff.mp hrs]
    exact .widened
  | null ht =>
    rw [same_to_prim_iff.mp hrs]
    exact .null ht
  | @array s t _ ih =>
    cases r with
    | array r => exact .array (ih hs hrs)
    | prim p => exact absurd ((same_prim_iff_eq hs).mp hrs) (by simp)
    | _ => cases hrs

/-- A type can be put for one that it is the same as, on the right of the order. -/
theorem of_same_right (hs : WellNamed s.structs) (ht : WellNamed t.structs)
    (hst : Ty.same s t = true) (h : Below r s) : Below r t := by
  induction h generalizing t with
  | @same r s hvoid hrs => exact .same hvoid (same_trans r hs.coherent hrs hst)
  | widened =>
    rw [(same_prim_iff_eq ht).mp hst]
    exact .widened
  | null hs' => exact .null (isReference_of_same ht hst ▸ hs')
  | @array r s _ ih =>
    obtain ⟨t, rfl, hsame⟩ := same_array_iff.mp hst
    exact .array (ih hs ht hsame)

theorem trans (hs : WellNamed s.structs) (ht : WellNamed t.structs) (h : Below r s)
    (h' : Below s t) : Below r t := by
  induction h generalizing t with
  | same _ hrs => exact h'.of_same_left hs hrs
  | widened =>
    cases h' with
    | same _ hst =>
      rw [(same_prim_iff_eq ht).mp hst]
      exact .widened
  | null hs' =>
    refine .null ?_
    cases h' with
    | same _ hst => exact isReference_of_same ht hst ▸ hs'
    | widened => cases hs'
    | null ht' => exact ht'
    | array => rfl
  | @array r s hrs ih =>
    cases h' with
    | same _ h =>
      obtain ⟨t, rfl, hst⟩ := same_array_iff.mp h
      simp only [structs] at hs
      exact .array (hrs.of_same_right hs ht hst)
    | array hst => exact .array (ih hs ht hst)

theorem antisymm (hs : WellNamed s.structs) (ht : WellNamed t.structs) (h : Below s t)
    (h' : Below t s) : Ty.same s t = true := by
  induction h with
  | same _ hst => exact hst
  | widened =>
    cases h' with
    | same _ h => exact absurd h (by decide)
  | @null t ht' =>
    cases h' with
    | same _ h =>
      rw [same_to_prim_iff.mp h]
      rfl
    | null => rfl
  | @array s t _ ih =>
    refine same_array_iff.mpr ⟨t, rfl, ?_⟩
    rcases array_iff.mp h' with h' | h'
    · exact same_symm hs h'
    · exact ih hs ht h'

end Below

/-- Where no struct is named like a primitive, what can be stored in what is a partial order of the
types other than Void, up to types that are the same. An array can be stored in one of the same elements
or of elements in which its own can be stored. -/
theorem assignable_partial_order {r s t : Ty} (hr : WellNamed r.structs) (hs : WellNamed s.structs)
    (ht : WellNamed t.structs) :
    (s ≠ .void → assignable s s = true) ∧
    (assignable r s = true → assignable s t = true → assignable r t = true) ∧
    (assignable s t = true → assignable t s = true → same s t = true) ∧
    (same r s = true → (assignable r t = true ↔ assignable s t = true) ∧
      (assignable t r = true ↔ assignable t s = true)) ∧
    (assignable (.array s) (.array t) = true ↔ same s t = true ∨ assignable s t = true) := by
  simp only [assignable_iff]
  refine ⟨fun hvoid => .same hvoid (same_refl s), .trans hs ht, Below.antisymm hs ht, fun hrs => ?_,
    Below.array_iff⟩
  have hsr : same s r = true := same_symm hs hrs
  exact ⟨⟨.of_same_left hr hsr, .of_same_left hs hrs⟩,
    ⟨.of_same_right hr hs hrs, .of_same_right hs hr hsr⟩⟩

/-- A struct type without fields. -/
def point : Ty := .struct ⟨⟨1, {}⟩, "Point", []⟩

/-- An array of arrays of nulls is below one of structs, which is below itself. -/
theorem nulls_below_points :
    let nulls : Ty := .array (.array .null)
    let points : Ty := .array (.array point)
    assignable nulls points = true ∧ assignable points nulls = false ∧
      assignable points points = true := by
  intro nulls points
  have hnulls : WellNamed nulls.structs := by simp [nulls, structs, WellNamed]
  have hpoints : WellNamed points.structs := by
    simp only [points, structs, point, WellNamed, List.mem_singleton, forall_eq]
    intro p
    cases p <;> decide
  obtain ⟨hrefl, htrans, hantisymm, -, -⟩ := assignable_partial_order hnulls hnulls hpoints
  obtain ⟨hstored, -⟩ := assignable_partial_order hnulls hpoints hpoints
  have hbelow : assignable nulls points = true := htrans (hrefl (by simp [nulls])) (by decide)
  refine ⟨hbelow, eq_false_of_ne_true fun h => ?_, hstored (by simp [points])⟩
  cases hantisymm hbelow h

end Ty
end LogicScript
