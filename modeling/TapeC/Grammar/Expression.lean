import TapeC.Program.Basic
import TapeC.Grammar.Step

/-! The grammar of expressions. An assignment joins to the right; below it come nine
levels of operators between two operands, which join to the left except for
comparisons, which do not join at all; then operators in front of an operand and
updates behind it. -/

namespace TapeC.Grammar

open Program

/-! ### Operators -/

/-- The operator between two operands that a symbol stands for. -/
def binaryOp? : Kind → Option BinaryOp
  | .symbol .orOr => some .or
  | .symbol .andAnd => some .and
  | .symbol .pipe => some .bitOr
  | .symbol .caret => some .bitXor
  | .symbol .ampersand => some .bitAnd
  | .symbol .equal => some .equal
  | .symbol .notEqual => some .notEqual
  | .symbol .less => some .less
  | .symbol .lessOrEqual => some .lessOrEqual
  | .symbol .greater => some .greater
  | .symbol .greaterOrEqual => some .greaterOrEqual
  | .symbol .shiftLeft => some .shiftLeft
  | .symbol .shiftRight => some .shiftRight
  | .symbol .plus => some .add
  | .symbol .minus => some .subtract
  | .symbol .star => some .multiply
  | .symbol .slash => some .divide
  | .symbol .percent => some .modulo
  | _ => none

/-- How loosely an operator binds its operands. -/
def looseness : BinaryOp → Nat
  | .multiply | .divide | .modulo => 0
  | .add | .subtract => 1
  | .shiftLeft | .shiftRight => 2
  | .equal | .notEqual | .less | .lessOrEqual | .greater | .greaterOrEqual => 3
  | .bitAnd => 4
  | .bitXor => 5
  | .bitOr => 6
  | .and => 7
  | .or => 8

/-- The number of levels that `looseness` tells apart. -/
def levels : Nat := 9

/-- Comparisons, which do not join. -/
def comparisonLevel : Nat := 3

/-- The operator of an assignment joined with `op`. -/
def compoundOp : Kind → BinaryOp
  | .symbol .minus => .subtract
  | .symbol .star => .multiply
  | .symbol .slash => .divide
  | .symbol .percent => .modulo
  | .symbol .shiftLeft => .shiftLeft
  | .symbol .shiftRight => .shiftRight
  | .symbol .ampersand => .bitAnd
  | .symbol .pipe => .bitOr
  | .symbol .caret => .bitXor
  | _ => .add

def unaryOp? : Kind → Option UnaryOp
  | .symbol .bang => some .not
  | .symbol .tilde => some .complement
  | .symbol .minus => some .negate
  | _ => none

def updateOp? : Kind → Option UpdateOp
  | .symbol .plusPlus => some .increment
  | .symbol .minusMinus => some .decrement
  | .symbol .starStar => some .timesOne
  | .symbol .slashSlash => some .overOne
  | .symbol .percentPercent => some .moduloOne
  | _ => none

/-- The operator of the assignment that a token begins, if it begins one. -/
def assignment? : Kind → Option (Option BinaryOp)
  | .symbol .assign => some none
  | .compound op => some (some (compoundOp op))
  | _ => none

/-- Whether a token begins the contents of a whole array. -/
def beginsContents : Kind → Bool
  | .symbol .leftBrace | .string _ => true
  | _ => false

/-- The updates written behind an operand. -/
def updatesAfter (e : Expr) : (ts : List Token) → Parsed Expr (ts.length + 1)
  | [] => .stay e []
  | t :: ts =>
    match updateOp? t.kind with
    | some op => (updatesAfter (.update op false e e.position) ts).after t
    | none => .stay e (t :: ts)

/-! ### Expressions

Each function reads its part of the grammar from the beginning of `ts`. Of two that
read the same tokens, the looser comes later in the order that the recursion
descends by. -/

set_option maxRecDepth 2000 in
mutual
/-- An operand with an assignment to it, if one follows. -/
def expression (fin : Position) (ts : List Token) : Step Expr ts.length := do
  let ⟨target, rest, h⟩ ← binary fin levels ts
  match rest, h with
  | [], h => return ⟨target, [], h⟩
  | t :: rest, h =>
    match assignment? t.kind with
    | none => return ⟨target, t :: rest, h⟩
    | some op =>
      have : rest.length < ts.length := Nat.lt_of_succ_lt h
      if op.isNone && beginsContents (peek rest) then
        let ⟨contents, rest, h'⟩ ← contents fin rest
        return (Parsed.mk (.fill target contents target.position) rest h').after t |>.behind h
      else
        let ⟨value, rest, h'⟩ ← expression fin rest
        return (Parsed.mk (.assign target op value target.position) rest h').after t |>.behind h
termination_by (ts.length, levels + 5)

/-- Operands joined by the operators of the `n` tightest levels. -/
def binary (fin : Position) (n : Nat) (ts : List Token) : Step Expr ts.length :=
  match n with
  | 0 => unary fin ts
  | n + 1 => do
    let ⟨left, rest, h⟩ ← binary fin n ts
    let r ← operands fin n left rest
    return r.upTo h
termination_by (ts.length, 4 + n)

/-- The operators of one level behind `left`, with their right operands. -/
def operands (fin : Position) (n : Nat) (left : Expr) (ts : List Token) :
    Step Expr (ts.length + 1) :=
  match ts with
  | [] => .ok (.stay left [])
  | t :: ts =>
    match binaryOp? t.kind with
    | none => .ok (.stay left (t :: ts))
    | some op =>
      if looseness op = n then do
        let ⟨right, rest, h⟩ ← binary fin n ts
        let joined := Expr.binary op left right left.position
        if n = comparisonLevel then return (Parsed.mk joined rest h).after t |>.weaken
        else
          let r ← operands fin n joined rest
          return (r.upTo h).after t |>.weaken
      else .ok (.stay left (t :: ts))
termination_by (ts.length, 0)

/-- An operand with the operators in front of it. -/
def unary (fin : Position) (ts : List Token) : Step Expr ts.length :=
  match ts with
  | [] => .error .unexpectedEnd
  | t :: ts =>
    match unaryOp? t.kind, updateOp? t.kind with
    | some op, _ => do
      let ⟨operand, rest, h⟩ ← unary fin ts
      return (Parsed.mk (.unary op operand t.position) rest h).after t
    | none, some op => do
      let ⟨target, rest, h⟩ ← operand fin ts
      return (Parsed.mk (.update op true target t.position) rest h).after t
    | none, none => operand fin (t :: ts)
termination_by (ts.length, 3)

/-- An operand with the updates behind it. -/
def operand (fin : Position) (ts : List Token) : Step Expr ts.length := do
  let ⟨e, rest, h⟩ ← primary fin ts
  return (updatesAfter e rest).upTo h
termination_by (ts.length, 2)

/-- A literal, a variable, a call or an expression in parentheses. -/
def primary (fin : Position) (ts : List Token) : Step Expr ts.length :=
  match ts with
  | [] => .error .unexpectedEnd
  | t :: ts =>
    match t.kind with
    | .number n => .ok (.first (.number n t.position) t ts)
    | .char c => .ok (.first (.char c t.position) t ts)
    | .keyword .true => .ok (.first (.bool true t.position) t ts)
    | .keyword .false => .ok (.first (.bool false t.position) t ts)
    | .symbol .leftParen => do
      let ⟨e, rest, h⟩ ← expression fin ts
      let ⟨_, rest, h'⟩ ← symbol .rightParen rest
      return (Parsed.mk e rest h').behind h |>.after t
    | .identifier name => named fin t.position name ts
    | .string _ => .error (.refused t.position .stringValue)
    | .endOfFile => .error .unexpectedEnd
    | got => .error (.refused t.position (.expectedExpression got))
termination_by (ts.length, 1)

/-- What a name at `p` begins: a call, or the access path of a variable. -/
def named (fin p : Position) (name : String) (ts : List Token) : Step Expr (ts.length + 1) :=
  match ts with
  | [] => .ok (.stay (.access name [] p) [])
  | t :: ts =>
    if t.kind = .symbol .leftParen then do
      let ⟨args, rest, h⟩ ← arguments fin ts
      return (Parsed.mk (.call name args p) rest h).after t |>.weaken
    else do
      let r ← selectors fin (t :: ts)
      return r.map (.access name · p)
termination_by (ts.length, 1)

/-- The arguments of a call, with the closing parenthesis. -/
def arguments (fin : Position) (ts : List Token) : Step (List Expr) ts.length :=
  if startsWith .rightParen ts then do
    let r ← symbol .rightParen ts
    return r.map fun _ => []
  else do
    let ⟨args, rest, h⟩ ← argumentList fin ts
    let ⟨_, rest, h'⟩ ← symbol .rightParen rest
    return (Parsed.mk args rest h').behind h
termination_by (ts.length, levels + 7)

/-- One or more arguments, separated by commas. -/
def argumentList (fin : Position) (ts : List Token) : Step (List Expr) ts.length := do
  let ⟨arg, rest, h⟩ ← expression fin ts
  if startsWith .comma rest then
    let ⟨_, rest, h'⟩ ← symbol .comma rest
    let ⟨args, rest, h''⟩ ← argumentList fin rest
    return (Parsed.mk (arg :: args) rest h'').behind h' |>.behind h
  else return ⟨[arg], rest, h⟩
termination_by (ts.length, levels + 6)

/-- The selectors behind a name. -/
def selectors (fin : Position) (ts : List Token) : Step (List (Selector Expr)) (ts.length + 1) :=
  match ts with
  | [] => .ok (.stay [] [])
  | t :: ts =>
    if t.kind = .symbol .leftBracket then do
      let ⟨e, rest, h⟩ ← expression fin ts
      let ⟨_, rest, h'⟩ ← symbol .rightBracket rest
      let r ← selectors fin rest
      return (r.map (.index e :: ·)).upTo h' |>.behind h |>.after t |>.weaken
    else if t.kind = .symbol .dot then do
      let ⟨name, rest, h⟩ ← identifier ts
      let r ← selectors fin rest
      return (r.map (.field name :: ·)).upTo h |>.after t |>.weaken
    else .ok (.stay [] (t :: ts))
termination_by (ts.length, 0)

/-- What a variable is filled with: a list in braces, a string or an expression. -/
def contents (fin : Position) (ts : List Token) : Step (Initializer Expr) ts.length :=
  match ts with
  | [] => .error .unexpectedEnd
  | t :: ts =>
    match t.kind with
    | .symbol .leftBrace =>
      if startsWith .rightBrace ts then do
        let r ← symbol .rightBrace ts
        return (r.map fun _ => .list [] t.position).after t
      else do
        let ⟨items, rest, h⟩ ← contentsList fin ts
        let ⟨_, rest, h'⟩ ← symbol .rightBrace rest
        return (Parsed.mk (.list items t.position) rest h').behind h |>.after t
    | .string text => .ok (.first (.text text t.position) t ts)
    | _ => do
      let r ← expression fin (t :: ts)
      return r.map .single
termination_by (ts.length, levels + 6)

/-- One or more initializers, separated by commas. -/
def contentsList (fin : Position) (ts : List Token) : Step (List (Initializer Expr)) ts.length := do
  let ⟨item, rest, h⟩ ← contents fin ts
  if startsWith .comma rest then
    let ⟨_, rest, h'⟩ ← symbol .comma rest
    let ⟨items, rest, h''⟩ ← contentsList fin rest
    return (Parsed.mk (item :: items) rest h'').behind h' |>.behind h
  else return ⟨[item], rest, h⟩
termination_by (ts.length, levels + 7)
end

end TapeC.Grammar
