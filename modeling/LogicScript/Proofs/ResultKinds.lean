import LogicScript.Proofs.Typing

/-! The kinds of results.

The analysis gives a literal, an operator and a logic expression a type, and the evaluation gives them
a value. Both decide on their own of which kind it is, and come to the same: what an operator gives
depends on the static types of its operands and not on their values, and an operand of a wrong kind
is a fault. -/
namespace LogicScript

open Analysis Eval

/-- The kind of the values of a type, for the types that values are computed of. -/
def Ty.valueKind? : Ty → Option ValueKind
  | .int => some .int
  | .float => some .float
  | .bool => some .bool
  | .string => some .string
  | .atom => some .atom
  | .null => some .null
  | .array _ => some .array
  | .void | .type | .struct _ | .function _ _ | .predicate _ _ => none

/-- Literals, operators, queries and logic expressions: the form decides how the value is made. -/
def Expr.isComputed : Expr → Bool
  | .int _ _ | .float _ _ | .string _ _ | .bool _ _ | .null _ | .array _ _ => true
  | .not _ _ | .binary _ _ _ _ | .query _ _ _ | .logic _ => true
  | .reference _ | .constructor _ _ | .field _ _ _ | .index _ _ _ | .call _ _ _ | .assign _ _ _
  | .paren _ _ | .placeholder _ _ _ => false

namespace Operator

variable {op : BinaryOp} {s t : Ty} {left right v : Value}

theorem onInts_kind (h : onInts op left right = .ok v) :
    v.kind = if op.isArithmetic then .int else .bool := by
  unfold onInts at h
  repeat' split at h
  all_goals cases h
  all_goals rfl

theorem onFloats_kind (h : onFloats op left right = .ok v) :
    v.kind = if op.isArithmetic then .float else .bool := by
  unfold onFloats at h
  repeat' split at h
  all_goals cases h
  all_goals rfl

/-- The value of an operator is of the type that the static types of the operands give it. -/
theorem apply_kind (hjoins : ¬ joins op s t = true) (h : apply op s t left right = .ok v) :
    (operatorType op s t).valueKind? = some v.kind := by
  unfold apply at h
  by_cases hequal : (op == .equal) = true
  · rw [if_pos hequal] at h
    cases h
    obtain rfl : op = .equal := by simpa using hequal
    rfl
  rw [if_neg hequal] at h
  by_cases hnotEqual : (op == .notEqual) = true
  · rw [if_pos hnotEqual] at h
    cases h
    obtain rfl : op = .notEqual := by simpa using hnotEqual
    rfl
  rw [if_neg hnotEqual] at h
  rw [operatorType_of_not_joins hjoins]
  by_cases hfloat : (s.isFloat || t.isFloat) = true
  · rw [if_pos hfloat] at h ⊢
    rw [onFloats_kind h]
    cases op.isArithmetic <;> rfl
  · rw [if_neg hfloat] at h ⊢
    rw [onInts_kind h]
    cases op.isArithmetic <;> rfl

end Operator

section Steps

variable {ctx : Context} {sub : Evaluator} {env : Env} {m m' : Machine} {v : Value}

theorem not_kind {operand : Expr} {mark : Mark}
    (h : Eval.expression ctx sub env (.not mark operand) m = .ok v m') : v.kind = .bool := by
  obtain ⟨w, m₁, -, hw⟩ := ok_of_bind (ok_of_attach h)
  cases w <;> cases hw
  rfl

theorem operate_kind {op : BinaryOp} {s t : Ty} {l r : Value} (h : operate op s t l r m = .ok v m') :
    (operatorType op s t).valueKind? = some v.kind := by
  unfold operate at h
  split at h
  · rename_i hjoins
    obtain ⟨left, m₁, -, h⟩ := ok_of_bind h
    obtain ⟨right, m₂, -, h⟩ := ok_of_bind h
    cases h
    rw [operatorType_of_joins hjoins]
    rfl
  · cases hv : Operator.apply op s t l r with
    | error cause =>
      rw [hv] at h
      cases h
    | ok w =>
      rw [hv] at h
      cases h
      exact Operator.apply_kind ‹_› hv

theorem binary_kind {op : BinaryOp} {left right : Expr}
    (h : Eval.binary ctx sub env op left right m = .ok v m') :
    (operatorType op (ctx.table.typeOf left.mark) (ctx.table.typeOf right.mark)).valueKind? =
      some v.kind := by
  cases op with
  | and =>
    obtain ⟨b, m₁, -, h⟩ := ok_of_bind h
    cases b with
    | false =>
      cases h
      rfl
    | true =>
      obtain ⟨c, m₂, -, h⟩ := ok_of_bind h
      cases h
      rfl
  | or =>
    obtain ⟨b, m₁, -, h⟩ := ok_of_bind h
    cases b with
    | true =>
      cases h
      rfl
    | false =>
      obtain ⟨c, m₂, -, h⟩ := ok_of_bind h
      cases h
      rfl
  | _ =>
    obtain ⟨l, m₁, -, h⟩ := ok_of_bind h
    obtain ⟨r, m₂, -, h⟩ := ok_of_bind h
    exact operate_kind h

theorem query_kind {mark : Mark} {target : Reference} {question : Expr}
    (h : Eval.query ctx sub env mark target question m = .ok v m') : v.kind = .bool := by
  cases question with
  | logic goal =>
    unfold Eval.query at h
    dsimp only at h
    split at h
    · obtain ⟨answer, m₁, -, h⟩ := ok_of_bind h
      obtain ⟨-, m₂, -, h⟩ := ok_of_bind h
      obtain ⟨-, m₃, -, h⟩ := ok_of_bind h
      cases h
      rfl
    · cases h
  | _ => cases h

theorem array_kind {mark : Mark} {elements : List Expr}
    (h : Eval.expression ctx sub env (.array mark elements) m = .ok v m') : v.kind = .array := by
  obtain ⟨values, m₁, -, h⟩ := ok_of_bind (ok_of_attach h)
  obtain ⟨o, m₂, -, h⟩ := ok_of_bind h
  cases h
  rfl

theorem logic_kind {goal : Goal} (h : Eval.expression ctx sub env (.logic goal) m = .ok v m') :
    v.kind = match goal with
      | .atom _ _ => .atom
      | _ => .bool := by
  have h := ok_of_attach h
  cases goal with
  | atom mark name =>
    cases h
    rfl
  | _ =>
    obtain ⟨b, m₁, -, h⟩ := ok_of_bind h
    cases h
    rfl

end Steps

namespace Program

variable {p : Program} {e : Expr} {limit fuel : Nat} {env : Env} {m m' : Machine} {v : Value}

/-- The value that an expression of such a form gives has the kind that the type filed for it names. -/
theorem computed_kind (hp : p.Numbered) (he : .expression e ∈ p.nodes)
    (hform : e.unwrap.isComputed = true)
    (h : (evaluator ⟨p.settled.table, limit⟩ fuel).expression env e m = .ok v m') :
    (p.settled.table.typeOf e.mark).valueKind? = some v.kind := by
  induction fuel generalizing e with
  | zero => cases h
  | succ fuel ih =>
    replace h : Eval.expression ⟨p.settled.table, limit⟩ (evaluator ⟨p.settled.table, limit⟩ fuel) env
        e m = .ok v m' := h
    cases e with
    | paren mark inner =>
      have hinner : .expression inner ∈ p.nodes :=
        nodes_inside hp he rfl (List.mem_cons_of_mem _ inner.self_mem_nodes)
      rw [composed hp he rfl (by simp)]
      exact ih hinner hform (ok_of_attach h)
    | int | float | string | bool | null =>
      rw [composed hp he rfl (by simp)]
      cases ok_of_attach h
      rfl
    | array mark elements =>
      obtain ⟨element, htype⟩ := array_typed hp he
      rw [array_kind h]
      exact congrArg Ty.valueKind? htype
    | not mark operand =>
      rw [composed hp he rfl (by simp), not_kind h]
      rfl
    | binary mark op left right =>
      have hkind := binary_kind (ok_of_attach h)
      rw [composed hp he rfl (by simp)]
      exact hkind
    | query mark target question =>
      rw [composed hp he rfl (by simp), query_kind (ok_of_attach h)]
      rfl
    | logic goal =>
      rw [logic_kind h]
      cases goal with
      | _ =>
        rw [composed hp he rfl (by simp)]
        rfl
    | _ => cases hform

/-- The analysis and the evaluation agree on the kind of a result. In every analysed program, with or
without issues, and in every state, the value of a literal, an operator, a query or a logic expression,
inside any number of parentheses, is of the kind that its filed type names. -/
theorem result_kinds (hp : p.Numbered) (he : .expression e ∈ p.nodes)
    (hform : e.unwrap.isComputed = true)
    (h : (evaluator ⟨(analyze p).1, limit⟩ fuel).expression env e m = .ok v m') :
    ∃ t, ((analyze p).1.attributes e.mark.id).type = some t ∧ t.valueKind? = some v.kind := by
  rw [analyze_eq] at h ⊢
  have hkind := computed_kind hp he hform h
  refine ⟨_, ?_, hkind⟩
  rw [Table.typeOf] at hkind ⊢
  cases htype : (p.settled.table.attributes e.mark.id).type with
  | none =>
    rw [htype] at hkind
    cases hkind
  | some t => rfl

/-- `(1 + "a")`, an Int and a String. -/
def joinedValue : Expr :=
  .paren ⟨2, {}⟩ (.binary ⟨3, {}⟩ .add (.int ⟨4, {}⟩ 1) (.string ⟨5, {}⟩ "a"))

def joined : Program where
  mark := ⟨0, {}⟩
  statements := [.expr ⟨1, {}⟩ joinedValue]

theorem joined_kind : ∃ v m', (evaluator ⟨(analyze joined).1, 1⟩ 3).expression [] joinedValue {} =
      .ok v m' ∧ v.kind = .string ∧
    ∃ t, ((analyze joined).1.attributes 2).type = some t ∧ t.valueKind? = some v.kind := by
  have hnumbered : joined.Numbered := by unfold Numbered Distinct; decide
  have hmem : .expression joinedValue ∈ joined.nodes := by
    simp [joined, joinedValue, nodes, Stmt.nodesOfList, Stmt.nodes, Expr.nodes]
  have hstring : ((evaluator ⟨(analyze joined).1, 1⟩ 3).expression [] joinedValue |>.run' {}).any
      (·.kind == .string) = true := by decide +kernel
  delta EStateM.run' EStateM.run at hstring
  cases hdone : (evaluator ⟨(analyze joined).1, 1⟩ 3).expression [] joinedValue {} with
  | ok v m' =>
    rw [hdone] at hstring
    have hkind := result_kinds hnumbered hmem rfl hdone
    exact ⟨v, m', rfl, by simpa using hstring, hkind⟩
  | error halt m' =>
    rw [hdone] at hstring
    cases hstring

end Program

end LogicScript
