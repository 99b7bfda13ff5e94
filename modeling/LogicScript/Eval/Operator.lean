import LogicScript.Fault

/-! The operators on numbers.

Ints have 64 bits and wrap around; their division goes toward zero. -/
namespace LogicScript
namespace Operator

def onInts (op : BinaryOp) (left right : Value) : Except Cause Value :=
  match left, right with
  | .int l, .int r =>
    match op with
    | .add => .ok (.int (l + r))
    | .subtract => .ok (.int (l - r))
    | .multiply => .ok (.int (l * r))
    | .divide => if r = 0 then .error .divisionByZero else .ok (.int (l / r))
    | .remain => if r = 0 then .error .remainderByZero else .ok (.int (l % r))
    | .less => .ok (.bool (l < r))
    | .lessEq => .ok (.bool (l ≤ r))
    | .greater => .ok (.bool (r < l))
    | .greatEq => .ok (.bool (r ≤ l))
    | .equal | .notEqual | .and | .or => .error (.notNumeric op .int .int)
  | l, r => .error (.notNumeric op l.kind r.kind)

def onFloats (op : BinaryOp) (left right : Value) : Except Cause Value :=
  match left.asFloat?, right.asFloat? with
  | some l, some r =>
    match op with
    | .add => .ok (.float (l.add r))
    | .subtract => .ok (.float (l.subtract r))
    | .multiply => .ok (.float (l.multiply r))
    | .divide => .ok (.float (l.divide r))
    | .remain => .ok (.float (l.remainder r))
    | .less => .ok (.bool (l.less r))
    | .lessEq => .ok (.bool (l.lessEq r))
    | .greater => .ok (.bool (r.less l))
    | .greatEq => .ok (.bool (r.lessEq l))
    | .equal | .notEqual | .and | .or => .error (.notNumeric op left.kind right.kind)
  | _, _ => .error (.notNumeric op left.kind right.kind)

/-- Whether the operator joins the texts of its operands, by their static types. -/
def joins (op : BinaryOp) (leftType rightType : Ty) : Bool :=
  op == .add && (leftType.isString || rightType.isString)

/-- The value of an operator that evaluates both operands and does not join texts. Which arithmetic
applies is decided by the static types. -/
def apply (op : BinaryOp) (leftType rightType : Ty) (left right : Value) : Except Cause Value :=
  if op == .equal then .ok (.bool (left.numericEqual right))
  else if op == .notEqual then .ok (.bool (!left.numericEqual right))
  else if leftType.isFloat || rightType.isFloat then onFloats op left right
  else onInts op left right

end Operator
end LogicScript
