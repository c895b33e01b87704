import TapeC.Routine.Transfer

/-! Comparisons of two adjacent cells as unsigned numbers. The head starts on the
first operand; the truth value takes its place, every other cell used is emptied
and the head ends one cell right of the result. -/

namespace TapeC.Routine

open Tape Code

/-- Subtracts the first operand from the second and steps right. -/
def difference : Code := loop (dec 1 ++ right 1 ++ dec 1 ++ left 1)

def equal : Code := difference ++ inc 1 ++ right 1 ++ loop (left 1 ++ dec 1 ++ right 1 ++ clear)

def notEqual : Code := difference ++ right 1 ++ loop (left 1 ++ inc 1 ++ right 1 ++ clear)

/-- Counts both operands down together; the first is less if it runs out first. -/
def less : Code :=
  right 2 ++ clear ++ right 1 ++ clear ++ left 2 ++
    loop (right 1 ++ clear ++ left 2 ++ spreadRight 2 1 ++ right 2 ++ pourLeft 2 1 ++ inc 1 ++
      right 1 ++ loop (clear ++ left 1 ++ dec 1 ++ left 2 ++ dec 1 ++ right 3) ++ left 2 ++ dec 1) ++
    left 1 ++ clear ++ right 2 ++ pourLeft 2 1 ++ left 1

/-- As `less`, with the operands exchanged. -/
def greater : Code :=
  right 2 ++ clear ++ right 1 ++ clear ++ left 3 ++
    loop (right 2 ++ clear ++ left 1 ++ spreadRight 1 1 ++ right 1 ++ pourLeft 1 1 ++ inc 1 ++
      right 1 ++ loop (clear ++ left 1 ++ dec 1 ++ left 1 ++ dec 1 ++ right 2) ++ left 3 ++ dec 1) ++
    right 2 ++ pourLeft 2 1 ++ left 1 ++ clear

/-- Counts both operands down together, for as long as the second is not zero. -/
def lessOrEqual : Code :=
  right 2 ++ clear ++ inc 1 ++ right 1 ++ clear ++ left 3 ++
    loop (right 2 ++ clear ++ left 1 ++ spreadRight 1 1 ++ right 1 ++ pourLeft 1 1 ++
      right 1 ++ loop (clear ++ left 1 ++ inc 1 ++ left 1 ++ dec 1 ++ right 2) ++ left 3 ++ dec 1) ++
    right 2 ++ pourLeft 2 1 ++ left 1 ++ clear

/-- As `lessOrEqual`, with the operands exchanged. -/
def greaterOrEqual : Code :=
  right 2 ++ clear ++ inc 1 ++ right 1 ++ clear ++ left 2 ++
    loop (right 1 ++ clear ++ left 2 ++ spreadRight 2 1 ++ right 2 ++ pourLeft 2 1 ++
      right 1 ++ loop (clear ++ left 1 ++ inc 1 ++ left 2 ++ dec 1 ++ right 3) ++ left 2 ++ dec 1) ++
    left 1 ++ clear ++ right 2 ++ pourLeft 2 1 ++ left 1

end TapeC.Routine
