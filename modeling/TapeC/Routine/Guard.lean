import TapeC.Routine.Transfer

/-! Conditional execution. The machine can only repeat while a cell is not zero, so
each conditional keeps a guard cell whose loop empties it and thus runs at most
once. Exactly one arm runs, and the guard cells end empty. -/

namespace TapeC.Routine

open Tape Code

/-- Runs `inner` only if the cell under the head is zero. The tested cell is
emptied; the cell `flag` to its right must lie beyond all that `inner` touches.
`inner` starts and ends on the tested cell. -/
def ifZero (inner : Code) (flag : Nat) : Code :=
  right flag ++ clear ++ inc 1 ++ left flag ++
    loop (right flag ++ dec 1 ++ left flag ++ clear) ++
    right flag ++ loop (left flag ++ inner ++ right flag ++ dec 1) ++ left flag

/-- Runs `thenArm` if `condition` leaves a nonzero value. The value is in the first
cell with the head on the second; the arm starts and ends on the third. The head
ends on the first. -/
def ifThen (condition thenArm : Code) : Code :=
  condition ++ left 1 ++ loop (right 2 ++ thenArm ++ left 2 ++ clear)

/-- As `ifThen`, with an arm for the value zero. The second cell guards it. -/
def ifThenElse (condition thenArm elseArm : Code) : Code :=
  condition ++ clear ++ inc 1 ++ left 1 ++
    loop (right 1 ++ dec 1 ++ right 1 ++ thenArm ++ left 2 ++ clear) ++
    right 1 ++ loop (right 1 ++ elseArm ++ left 1 ++ dec 1) ++ left 1

/-- The truth value of `a` and, if `a` is not zero, of `b`. The operand `a` starts
on the first cell and `b` on the third; the result is in the first and the head
ends on the second. -/
def andThen (a b : Code) : Code :=
  a ++ clear ++ left 1 ++
    loop (clear ++ right 2 ++ b ++ left 1 ++ loop (clear ++ left 1 ++ inc 1 ++ right 1) ++ left 2) ++
    right 1 ++ pourLeft 1 1

/-- The truth value of `a` or, if `a` is zero, of `b`. The operand `a` starts on the
first cell and `b` on the fourth; the result is in the first and the head ends on
the second. -/
def orElse (a b : Code) : Code :=
  a ++ clear ++ inc 1 ++ right 1 ++ clear ++ left 2 ++
    loop (clear ++ right 1 ++ dec 1 ++ right 1 ++ inc 1 ++ left 2) ++ right 1 ++
    loop (dec 1 ++ right 2 ++ b ++ left 1 ++ loop (clear ++ left 1 ++ inc 1 ++ right 1) ++ left 2) ++
    right 1 ++ pourLeft 2 1 ++ left 1

/-- Runs `body` one cell right of the head if the cell under the head is one. That
cell and the cell `pending` to its left are emptied. -/
def runArm (body : Code) (pending : Nat) : Code :=
  loop (dec 1 ++ left pending ++ clear ++ right pending ++ right 1 ++ body ++ left 1)

end TapeC.Routine
