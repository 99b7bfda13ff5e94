import LogicScript.Proofs.Monotone
import LogicScript.Proofs.Texts

/-! The values of literals.

A literal has the same value wherever it is evaluated, but for arrays: an array literal makes a new
array each time, which is therefore equal to no other value. What it holds was made just before, so it
has a text. -/
namespace LogicScript

open Eval

mutual

/-- A constant, or an array of literals. -/
def Expr.isLiteral : Expr → Bool
  | .int _ _ | .float _ _ | .string _ _ | .bool _ _ | .null _ | .logic (.atom _ _) => true
  | .array _ elements => Expr.areLiterals elements
  | _ => false

def Expr.areLiterals : List Expr → Bool
  | [] => true
  | e :: es => e.isLiteral && Expr.areLiterals es

end

mutual

/-- The value of a literal, with the machine in which its arrays are there. -/
def literal (ctx : Context) : Expr → Machine → Value × Machine
  | .int _ i, m => (.int i, m)
  | .float _ x, m => (.float x, m)
  | .string _ s, m => (.string s, m)
  | .bool _ b, m => (.bool b, m)
  | .null _, m => (.null, m)
  | .logic (.atom _ name), m => (.atom name, m)
  | .array mark elements, m =>
    let (vs, m₁) := literals ctx elements m
    let (o, m₂) := m₁.alloc (.array (vs.map (·.widen (elementTypeOf ctx mark))).toArray)
    (.array o, m₂)
  | _, m => (.absent, m)

/-- The values of literals, one after the other. -/
def literals (ctx : Context) : List Expr → Machine → List Value × Machine
  | [], m => ([], m)
  | e :: es, m =>
    let (v, m₁) := literal ctx e m
    let (vs, m₂) := literals ctx es m₁
    (v :: vs, m₂)

end

namespace Machine

/-- Some objects are new, and all else is as before. -/
def Allocates (m m' : Machine) : Prop := ∃ new, m' = { m with objects := m.objects ++ new }

variable {m m' m'' : Machine}

theorem Allocates.refl (m : Machine) : m.Allocates m := ⟨#[], by rw [Array.append_empty]⟩

theorem Allocates.trans (h : m.Allocates m') (h' : m'.Allocates m'') : m.Allocates m'' := by
  obtain ⟨new, rfl⟩ := h
  obtain ⟨new', rfl⟩ := h'
  exact ⟨new ++ new', by rw [Array.append_assoc]⟩

theorem Allocates.alloc (m : Machine) (o : Object) : m.Allocates (m.alloc o).2 :=
  ⟨#[o], by rw [Machine.alloc, Array.push_eq_append]⟩

theorem Allocates.frames (h : m.Allocates m') : m'.frames = m.frames := by
  obtain ⟨new, rfl⟩ := h
  rfl

theorem Allocates.frame (h : m.Allocates m') (f : FrameId) : m'.frame f = m.frame f :=
  congrArg (·.getD f default) h.frames

theorem Allocates.size_le (h : m.Allocates m') : m.objects.size ≤ m'.objects.size := by
  obtain ⟨new, rfl⟩ := h
  simp

theorem Allocates.object (h : m.Allocates m') {o : ObjectId} (ho : o < m.objects.size) :
    m'.objects[o]? = m.objects[o]? := by
  obtain ⟨new, rfl⟩ := h
  exact Array.getElem?_append_left ho

end Machine

namespace Eval

variable {ctx : Context} {env : Env} {e l r : Expr}

mutual

theorem literal_allocates (ctx : Context) (e : Expr) (m : Machine) :
    m.Allocates (literal ctx e m).2 := by
  match e with
  | .array mark elements => exact (literals_allocates ctx elements m).trans (.alloc _ _)
  | .logic goal => cases goal <;> exact .refl m
  | .int _ _ | .float _ _ | .string _ _ | .bool _ _ | .null _ | .reference _ | .constructor _ _
  | .field _ _ _ | .index _ _ _ | .call _ _ _ | .not _ _ | .binary _ _ _ _ | .assign _ _ _
  | .paren _ _ | .query _ _ _ | .placeholder _ _ _ => exact .refl m

theorem literals_allocates (ctx : Context) (es : List Expr) (m : Machine) :
    m.Allocates (literals ctx es m).2 := by
  match es with
  | [] => exact .refl m
  | e :: es => exact (literal_allocates ctx e m).trans (literals_allocates ctx es _)

end

mutual

/-- The arrays of a literal hold only those that were made for it before. -/
theorem literal_descends (ctx : Context) (e : Expr) {m : Machine} {n : Nat}
    (h : Descends m.objects n) (hn : n ≤ m.objects.size) :
    Descends (literal ctx e m).2.objects n ∧ ∀ o, (literal ctx e m).1.object? = some o →
      n ≤ o ∧ o < (literal ctx e m).2.objects.size := by
  match e with
  | .array mark elements =>
    obtain ⟨hrest, hvalues⟩ := literals_descends ctx elements h hn
    have hle := (literals_allocates ctx elements m).size_le
    refine ⟨hrest.push fun v hv o ho => ?_, ?_⟩
    · simp only [Object.contents, List.mem_map] at hv
      obtain ⟨w, hw, rfl⟩ := hv
      exact hvalues w hw o ((w.object?_widen _).symm.trans ho)
    · rintro o ⟨⟩
      exact ⟨Nat.le_trans hn hle, by simp [literal, Machine.alloc]⟩
  | .logic goal => cases goal <;> exact ⟨h, by rintro o ⟨⟩⟩
  | .int _ _ | .float _ _ | .string _ _ | .bool _ _ | .null _ | .reference _ | .constructor _ _
  | .field _ _ _ | .index _ _ _ | .call _ _ _ | .not _ _ | .binary _ _ _ _ | .assign _ _ _
  | .paren _ _ | .query _ _ _ | .placeholder _ _ _ => exact ⟨h, by rintro o ⟨⟩⟩

theorem literals_descends (ctx : Context) (es : List Expr) {m : Machine} {n : Nat}
    (h : Descends m.objects n) (hn : n ≤ m.objects.size) :
    Descends (literals ctx es m).2.objects n ∧ ∀ v ∈ (literals ctx es m).1, ∀ o,
      v.object? = some o → n ≤ o ∧ o < (literals ctx es m).2.objects.size := by
  match es with
  | [] => exact ⟨h, by simp [literals]⟩
  | e :: es =>
    obtain ⟨hfirst, hvalue⟩ := literal_descends ctx e h hn
    obtain ⟨hrest, hvalues⟩ := literals_descends ctx es hfirst
      (Nat.le_trans hn (literal_allocates ctx e m).size_le)
    refine ⟨hrest, ?_⟩
    simp only [literals, List.mem_cons, forall_eq_or_imp]
    exact ⟨fun o ho => ⟨(hvalue o ho).1, Nat.lt_of_lt_of_le (hvalue o ho).2
      (literals_allocates ctx es _).size_le⟩, hvalues⟩

end

theorem text?_literal (ctx : Context) (e : Expr) (m : Machine) :
    ((literal ctx e m).2.text? (literal ctx e m).1).isSome := by
  obtain ⟨hdescends, hvalue⟩ := literal_descends ctx e (.size m.objects) (Nat.le_refl _)
  exact Value.text?_isSome_iff.mpr fun o ho => hdescends.acc (hvalue o ho).1

/-- The arrays of a literal do not keep other values from being written out. -/
theorem text?_after_literal (ctx : Context) (e : Expr) {m : Machine} {v : Value}
    (h : (m.text? v).isSome) : ((literal ctx e m).2.text? v).isSome := by
  have hdescends := (literal_descends ctx e (.size m.objects) (Nat.le_refl _)).1
  exact Value.text?_isSome_iff.mpr fun o ho => hdescends.acc_of_acc
    (fun _ hlt => (literal_allocates ctx e m).object hlt) (Value.text?_isSome_iff.mp h o ho)

mutual

theorem expression_literal (e : Expr) (m : Machine) (he : e.isLiteral = true) :
    Eventually ctx (fun sub => sub.expression env e) m
      (.ok (literal ctx e m).1 (literal ctx e m).2) := by
  match e, he with
  | .array mark elements, he =>
    exact (expressions_literals elements m (by simpa only [Expr.isLiteral] using he)).array
  | .int mark i, _ => exact expression_plain rfl rfl
  | .float mark x, _ => exact expression_plain rfl rfl
  | .string mark s, _ => exact expression_plain rfl rfl
  | .bool mark b, _ => exact expression_plain rfl rfl
  | .null mark, _ => exact expression_plain rfl rfl
  | .logic (.atom mark name), _ => exact expression_plain rfl rfl

theorem expressions_literals (es : List Expr) (m : Machine) (hes : Expr.areLiterals es = true) :
    Eventually ctx (fun sub => expressions sub env es) m
      (.ok (literals ctx es m).1 (literals ctx es m).2) := by
  match es with
  | [] => exact .of_forall fun _ => rfl
  | e :: es =>
    simp only [Expr.areLiterals, Bool.and_eq_true] at hes
    exact (expression_literal e m hes.1).bind_ok
      ((expressions_literals es _ hes.2).bind_ok (.of_forall fun _ => rfl))

end

/-- A literal has one value in all machines, or it is an array that is new in each. -/
theorem literal_cases (ctx : Context) (he : e.isLiteral = true) :
    (∃ v, (∀ o, v ≠ .array o) ∧ ∀ m, literal ctx e m = (v, m)) ∨
      ∀ m, ∃ o, (literal ctx e m).1 = .array o ∧ m.objects.size ≤ o ∧
        o < (literal ctx e m).2.objects.size := by
  match e, he with
  | .array mark elements, he =>
    refine .inr fun m => ⟨_, rfl, (literals_allocates ctx elements m).size_le, ?_⟩
    simp [literal, Machine.alloc]
  | .int mark i, _ => exact .inl ⟨.int i, by simp, fun _ => rfl⟩
  | .float mark x, _ => exact .inl ⟨.float x, by simp, fun _ => rfl⟩
  | .string mark s, _ => exact .inl ⟨.string s, by simp, fun _ => rfl⟩
  | .bool mark b, _ => exact .inl ⟨.bool b, by simp, fun _ => rfl⟩
  | .null mark, _ => exact .inl ⟨.null, by simp, fun _ => rfl⟩
  | .logic (.atom mark name), _ => exact .inl ⟨.atom name, by simp, fun _ => rfl⟩

/-- Two literals that are evaluated one after the other have values that are numerically equal. -/
def LiteralsEqual (ctx : Context) (m : Machine) (l r : Expr) : Prop :=
  (literal ctx l m).1.numericEqual (literal ctx r (literal ctx l m).2).1 = true

instance (m : Machine) : Decidable (LiteralsEqual ctx m l r) :=
  inferInstanceAs (Decidable (_ = true))

theorem not_numericEqual_array {v : Value} {o : ObjectId} (h : ∀ o, v ≠ .array o) :
    v.numericEqual (.array o) = false ∧ (Value.array o).numericEqual v = false := by
  cases v with
  | array o' => exact absurd rfl (h o')
  | _ => exact ⟨rfl, rfl⟩

theorem literalsEqual_cases (ctx : Context) (hl : l.isLiteral = true) (hr : r.isLiteral = true) :
    (∃ v w, v.numericEqual w = true ∧ (∀ m, literal ctx l m = (v, m)) ∧
      ∀ m, literal ctx r m = (w, m)) ∨ ∀ m, ¬ LiteralsEqual ctx m l r := by
  rcases literal_cases ctx hl with ⟨v, hv, hlv⟩ | hlv <;>
    rcases literal_cases ctx hr with ⟨w, hw, hrw⟩ | hrw
  · by_cases hequal : v.numericEqual w = true
    · exact .inl ⟨v, w, hequal, hlv, hrw⟩
    · refine .inr fun m => ?_
      rwa [LiteralsEqual, hlv, hrw]
  · refine .inr fun m => ?_
    obtain ⟨o, ho, -, -⟩ := hrw m
    simp [LiteralsEqual, hlv, ho, not_numericEqual_array hv]
  · refine .inr fun m => ?_
    obtain ⟨o, ho, -, -⟩ := hlv m
    simp [LiteralsEqual, hrw, ho, not_numericEqual_array hw]
  · refine .inr fun m => ?_
    obtain ⟨o, ho, -, hlt⟩ := hlv m
    obtain ⟨o', ho', hle, -⟩ := hrw (literal ctx l m).2
    have hne : o ≠ o' := Nat.ne_of_lt (Nat.lt_of_lt_of_le hlt hle)
    simp [LiteralsEqual, ho, ho', Value.numericEqual, Value.equal, hne]

theorem literalsEqual_iff (hl : l.isLiteral = true) (hr : r.isLiteral = true) (m m' : Machine) :
    LiteralsEqual ctx m l r ↔ LiteralsEqual ctx m' l r := by
  rcases literalsEqual_cases ctx hl hr with ⟨v, w, -, hlv, hrw⟩ | hnone
  · simp [LiteralsEqual, hlv, hrw]
  · exact iff_of_false (hnone m) (hnone m')

/-- The evaluation of two literals with equal values leaves the machine as it is. -/
theorem LiteralsEqual.machine_eq {m : Machine} (h : LiteralsEqual ctx m l r)
    (hl : l.isLiteral = true) (hr : r.isLiteral = true) :
    (literal ctx r (literal ctx l m).2).2 = m := by
  rcases literalsEqual_cases ctx hl hr with ⟨v, w, -, hlv, hrw⟩ | hnone
  · rw [hlv, hrw]
  · exact absurd h (hnone m)

end Eval

end LogicScript
