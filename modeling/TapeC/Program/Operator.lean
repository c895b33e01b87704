/-! The operators of the source language. -/

namespace TapeC.Program

/-- Operators between two operands. -/
inductive BinaryOp where
  | add | subtract | multiply | divide | modulo
  | equal | notEqual | less | lessOrEqual | greater | greaterOrEqual
  | bitAnd | bitOr | bitXor | shiftLeft | shiftRight
  /-- True if both operands are; the second is evaluated only if the first is true. -/
  | and
  /-- True if either operand is; the second is evaluated only if the first is false. -/
  | or
deriving DecidableEq, Repr

def BinaryOp.spelling : BinaryOp → String
  | add => "+"
  | subtract => "-"
  | multiply => "*"
  | divide => "/"
  | modulo => "%"
  | equal => "=="
  | notEqual => "!="
  | less => "<"
  | lessOrEqual => "<="
  | greater => ">"
  | greaterOrEqual => ">="
  | bitAnd => "&"
  | bitOr => "|"
  | bitXor => "^"
  | shiftLeft => "<<"
  | shiftRight => ">>"
  | and => "&&"
  | or => "||"

/-- Operators in front of one operand. -/
inductive UnaryOp where
  | not
  | complement
  | negate
deriving DecidableEq, Repr

/-- Operators that change their operand, before or after its value is taken. -/
inductive UpdateOp where
  | increment
  | decrement
  /-- Multiplies by one. -/
  | timesOne
  /-- Divides by one. -/
  | overOne
  /-- Takes the remainder modulo one, which is zero. -/
  | moduloOne
deriving DecidableEq, Repr

def UpdateOp.spelling : UpdateOp → String
  | increment => "++"
  | decrement => "--"
  | timesOne => "**"
  | overOne => "//"
  | moduloOne => "%%"

end TapeC.Program
