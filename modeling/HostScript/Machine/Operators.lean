import HostScript.Machine.Basic

/-!
# Operators

What the operators of a script do with the values of their operands.
-/

namespace HostScript.Machine

open Script (ArithOp CompareOp UnaryOp)

/-- The symbol of an arithmetic operator. -/
def arithSymbol : ArithOp → String
  | .add => "+"
  | .sub => "-"
  | .mul => "*"
  | .div => "/"
  | .mod => "%"

/-- Arithmetic on numbers. -/
def arithNumbers (op : ArithOp) (a b : Number) : Except Number.Fault Number := do
  let n ← match op with
    | .add => pure (a.add b)
    | .sub => pure (a.sub b)
    | .mul => pure (a.mul b)
    | .div => a.div b
    | .mod => a.mod b
  n.ensureFinite

/-- Arithmetic on values. Besides numbers, `+` joins arrays, and anything with a string to a string. -/
def arith (op : ArithOp) (left right : Value) : Except Problem Value :=
  match op, left, right with
  | op, .number a, .number b => ((arithNumbers op a b).map .number).mapError .arithmetic
  | .add, .string a, b => .ok (.string (a ++ b.display))
  | .add, a, .string b => .ok (.string (a.display ++ b))
  | .add, .array a, .array b => .ok (.array (a ++ b))
  | op, a, b => .error (.operands (arithSymbol op) a.typeName b.typeName)

/-- The order that a comparison accepts. -/
def accepts (op : CompareOp) (order : Ordering) : Bool :=
  match op with
  | .lt => order.isLT
  | .le => order.isLE
  | .gt => order.isGT
  | .ge => order.isGE
  | .eq => order.isEq
  | .ne => order.isNe

/-- Comparison of values. All values can be equal or not; only two numbers or two strings have an order. -/
def compare (op : CompareOp) (left right : Value) : Except Problem Value :=
  match op, left, right with
  | .eq, a, b | .ne, a, b | op, a@(.number _), b@(.number _) | op, a@(.string _), b@(.string _) =>
    .ok (.bool (accepts op (a.compare b)))
  | _, a, b => .error (.incomparable a.typeName b.typeName)

/-- Operators with one operand. -/
def unary (op : UnaryOp) (v : Value) : Except Problem Value :=
  match op, v with
  | .not, v => .ok (.bool !v.isTruthy)
  | .neg, .number n => .ok (.number n.neg)
  | .neg, v => .error (.negated v.typeName)

end HostScript.Machine
