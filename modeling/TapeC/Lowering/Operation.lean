import TapeC.Lowering.Basic
import TapeC.Routine.Arithmetic
import TapeC.Routine.Bitwise
import TapeC.Routine.Comparison
import TapeC.Routine.Walk

/-! Code for operations, put together from code for their operands. -/

namespace TapeC.Lowering

open Layout Program Tape Routine Code

/-! ### Operators -/

/-- Two operands side by side and an operation on them. -/
def onPair (operation : Code) (a b : CodeAt) : CodeAt := fun p => do
  let a ← a p
  let b ← b (p + 1)
  return a ++ b ++ left 2 ++ operation

/-- A quotient or remainder. The divisor is tested at run time unless its value is
known, and refused if that is zero. -/
def onDivisor (operation : Bool → Code) (divisor : Option Cell) (position : Position)
    (a b : CodeAt) : CodeAt := fun p => do
  if divisor = some 0 then fail position .divisionByZero
  onPair (operation divisor.isNone) a b p

/-- An operation on two operands; `divisor` is the value of the second one, if that
is constant. -/
def binary (op : BinaryOp) (divisor : Option Cell) (position : Position) (a b : CodeAt) : CodeAt :=
  match op with
  | .and => fun p => return andThen (← a p) (← b (p + 2))
  | .or => fun p => return orElse (← a p) (← b (p + 3))
  | .divide => onDivisor divide divisor position a b
  | .modulo => onDivisor modulo divisor position a b
  | .add => onPair add a b
  | .subtract => onPair subtract a b
  | .multiply => onPair multiply a b
  | .equal => onPair equal a b
  | .notEqual => onPair notEqual a b
  | .less => onPair less a b
  | .lessOrEqual => onPair lessOrEqual a b
  | .greater => onPair greater a b
  | .greaterOrEqual => onPair greaterOrEqual a b
  | .bitAnd => onPair (bitwise .and) a b
  | .bitOr => onPair (bitwise .or) a b
  | .bitXor => onPair (bitwise .xor) a b
  | .shiftLeft => onPair shiftLeft a b
  | .shiftRight => onPair shiftRight a b

def constant (value : Cell) : CodeAt := fun _ => return literal value

def unary (op : UnaryOp) (a : CodeAt) : CodeAt :=
  match op with
  | .negate => onPair subtract (constant 0) a
  | .not => fun p => return (← a p) ++ left 1 ++ logicalNot
  | .complement => fun p => return (← a p) ++ left 1 ++ complement

/-! ### Places -/

/-- A term of the distance to a place. -/
def term (t : Term CodeAt) : CodeAt :=
  if t.stride = 1 then t.code else onPair multiply t.code (constant (Cell.ofInt t.stride))

/-- The sum of terms behind a first one. -/
def sum (first : CodeAt) : List (Term CodeAt) → CodeAt
  | [] => first
  | t :: ts => sum (onPair add first (term t)) ts

/-- The place that an access path selects in a variable that is in scope. A walk
through a variable that is longer than its reach is warned of. -/
def place (scopes : Scopes) (name : String) (path : List (Selector (Index CodeAt)))
    (position : Position) : Lower (Place CodeAt) := do
  let v ← scopes.lookup name position
  let place ← Place.ofPath v position path
  if !place.terms.isEmpty && walkReach < v.size then warn position (.longWalk name v.size)
  return place

/-- Code that works on a cell to its left, at a fixed distance or at the end of a
walk, after which the value is brought back. -/
def onPlace (place : Place CodeAt) (work : Nat → Code) : CodeAt := fun p =>
  match place.terms with
  | [] => return work (p - place.base)
  | t :: ts => do
    let distance ← sum (term t) ts p
    return distance ++ within (place.stop - place.base) ++ walkRight ++ work (p + 2 - place.base) ++
      left 1 ++ bringBack

/-- The value of a place. -/
def read (scopes : Scopes) (name : String) (path : List (Selector (Index CodeAt)))
    (position : Position) : CodeAt := fun p => do
  let place ← place scopes name path position
  if !place.shape.isCell then fail position (.readOfMany name)
  onPlace place copyFrom p

/-- Stores a value, which is also that of the assignment. A walk to the place comes
after the value, but its distance before. -/
def assign (scopes : Scopes) (name : String) (path : List (Selector (Index CodeAt)))
    (position : Position) (value : CodeAt) : CodeAt := fun p => do
  let place ← place scopes name path position
  if !place.shape.isCell then fail position (.assignmentToMany name)
  match place.terms with
  | [] => return (← value p) ++ left 1 ++ copyTo (p - place.base) ++ right 1
  | t :: ts =>
    let distance ← sum (term t) ts p
    let value ← value (p + 2)
    return distance ++ within (place.stop - place.base) ++ clear ++ right 1 ++ value ++
      walkRightCarrying ++ copyTo (p + 2 - place.base) ++ bringBack

/-- What an update operator does to a cell. -/
def change : UpdateOp → Change
  | .increment => .increment
  | .decrement => .decrement
  | .timesOne | .overOne => .keep
  | .moduloOne => .reset

/-- Updates a place; the value is that after the update or before it. -/
def update (scopes : Scopes) (name : String) (path : List (Selector (Index CodeAt)))
    (position : Position) (op : UpdateOp) (before : Bool) : CodeAt := fun p => do
  let place ← place scopes name path position
  if !place.shape.isCell then fail position (.updateOfMany op.spelling)
  onPlace place (if before then updateThenRead (change op) else readThenUpdate (change op)) p

/-- An expression as initializers see it. -/
structure Leaf where
  position : Position
  code : CodeAt

def Content.code : Content Leaf → CodeAt
  | .byte value => constant value
  | .value e => e.code

/-- Moves contents one after another into the cells from `base` on. -/
def store (base p : Nat) : List (Content Leaf) → Lower Code
  | [] => return skip
  | c :: cs => do
    let code ← Content.code c p
    return code ++ left 1 ++ moveTo (p - base) ++ (← store (base + 1) p cs)

/-- Fills all cells of a place; the value of the operation is zero. -/
def fill (scopes : Scopes) (name : String) (path : List (Selector (Index CodeAt)))
    (position : Position) (contents : Initializer Leaf) : CodeAt := fun p => do
  let place ← place scopes name path position
  if !place.terms.isEmpty then fail position (.fillAtRuntimeIndex name)
  let cells ← layOutContents Leaf.position name position place.shape contents
  return (← store place.base p cells) ++ clear ++ right 1

/-! ### Calls -/

/-- The arguments of a call, one after another. -/
def arguments (p : Nat) : List CodeAt → Lower Code
  | [] => return skip
  | a :: as => do
    let a ← a p
    return a ++ (← arguments (p + 1) as)

/-- A call: the cell of the returned value is emptied and the arguments are put behind
it. -/
def call (act : Activation) (name : String) (args : List CodeAt) (position : Position) : CodeAt :=
  fun p => do
    let some callable := act.definitions.callable? name
      | fail position (.undefinedFunction name)
    if args.length ≠ callable.arity then
      fail position (.argumentCount name callable.arity args.length)
    let args' ← arguments (p + 1) args
    let body ←
      match callable with
      | .builtin b => pure b.body
      | .defined d => act.inline d position p
    return clear ++ right 1 ++ args' ++ left (args.length + 1) ++ body ++ right 1

end TapeC.Lowering
