import ThreeAddress.Eval.Fault

/-!
# Operators on values

Integers wrap around at 32 bits and division truncates toward zero. Operands
of a wrong type are a fault, as is division by zero.
-/

namespace ThreeAddress

/-- The relation between two integers. -/
def RelOp.holdsInt (left right : Int32) : RelOp → Bool
  | .eq => left == right
  | .ne => left != right
  | .lt => decide (left < right)
  | .le => decide (left ≤ right)
  | .gt => decide (right < left)
  | .ge => decide (right ≤ left)

def BinaryOp.mismatch (op : BinaryOp) (left right : Value) : Fault :=
  .typeMismatch (.binary op left.type right.type)

def ArithOp.eval (op : ArithOp) (left right : Value) : Except Fault Value :=
  match op, left, right with
  | .add, .int left, .int right => .ok (.int (left + right))
  | .sub, .int left, .int right => .ok (.int (left - right))
  | .mul, .int left, .int right => .ok (.int (left * right))
  | .div, .int left, .int right =>
      if right = 0 then .error .divisionByZero else .ok (.int (left / right))
  | .and, .bool left, .bool right => .ok (.bool (left && right))
  | .or, .bool left, .bool right => .ok (.bool (left || right))
  | op, left, right => .error (BinaryOp.mismatch (.arith op) left right)

def RelOp.eval (op : RelOp) (left right : Value) : Except Fault Bool :=
  match op, left, right with
  | op, .int left, .int right => .ok (op.holdsInt left right)
  | .eq, .bool left, .bool right => .ok (left == right)
  | .ne, .bool left, .bool right => .ok (left != right)
  | op, left, right => .error (BinaryOp.mismatch (.rel op) left right)

def BinaryOp.eval (op : BinaryOp) (left right : Value) : Except Fault Value :=
  match op with
  | .arith op => op.eval left right
  | .rel op => (op.eval left right).map .bool

def UnaryOp.eval (op : UnaryOp) (operand : Value) : Except Fault Value :=
  match op, operand with
  | .neg, .int operand => .ok (.int (-operand))
  | .not, .bool operand => .ok (.bool (!operand))
  | op, operand => .error (.typeMismatch (.unary op operand.type))

end ThreeAddress
