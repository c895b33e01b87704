import TapeC.Program.Basic

/-! Constant values. An expression of literals and operators has a constant value,
computed as the tape machine would; a quotient by zero has none. -/

namespace TapeC.Program

def UnaryOp.eval : UnaryOp → Cell → Cell
  | not, a => Cell.ofBool (a == 0)
  | complement, a => 255 - a
  | negate, a => 0 - a

/-- The value of an operation, unless it divides by zero. -/
def BinaryOp.eval? : BinaryOp → Cell → Cell → Option Cell
  | add, a, b => some (a + b)
  | subtract, a, b => some (a - b)
  | multiply, a, b => some (a * b)
  | divide, a, b => if b = 0 then none else some (a / b)
  | modulo, a, b => if b = 0 then none else some (a % b)
  | equal, a, b => some (Cell.ofBool (a == b))
  | notEqual, a, b => some (Cell.ofBool (a != b))
  | less, a, b => some (Cell.ofBool (a < b))
  | lessOrEqual, a, b => some (Cell.ofBool (a ≤ b))
  | greater, a, b => some (Cell.ofBool (b < a))
  | greaterOrEqual, a, b => some (Cell.ofBool (b ≤ a))
  | bitAnd, a, b => some (a &&& b)
  | bitOr, a, b => some (a ||| b)
  | bitXor, a, b => some (a ^^^ b)
  | shiftLeft, a, b => some (Cell.shiftLeft a b)
  | shiftRight, a, b => some (Cell.shiftRight a b)
  | and, a, b => some (Cell.ofBool (a != 0 && b != 0))
  | or, a, b => some (Cell.ofBool (a != 0 || b != 0))

/-- The value of an expression of literals and operators. -/
def Expr.constant? : Expr → Option Cell
  | number n _ => some (Cell.ofInt n)
  | char c _ => some c
  | bool b _ => some (Cell.ofBool b)
  | unary op e _ => e.constant?.map op.eval
  | binary op a b _ => do op.eval? (← a.constant?) (← b.constant?)
  | _ => none

end TapeC.Program
