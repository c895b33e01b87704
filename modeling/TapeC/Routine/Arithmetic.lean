import TapeC.Text.Bytes
import TapeC.Routine.Guard
import TapeC.Routine.Value

/-! Arithmetic on two adjacent cells. The head starts on the first operand; the
result takes its place, every other cell used is emptied and the head ends one
cell right of the result. Nothing to the left is read or written. -/

namespace TapeC.Routine

open Tape Code

def add : Code := right 1 ++ pourLeft 1 1

def subtract : Code := right 1 ++ loop (left 1 ++ dec 1 ++ right 1 ++ dec 1)

/-- Adds the second operand as often as the first, drained into a counter, says. -/
def multiply : Code :=
  right 2 ++ clear ++ right 1 ++ clear ++ left 3 ++ pourRight 3 1 ++ right 3 ++
    loop (left 2 ++ loop (left 1 ++ inc 1 ++ right 2 ++ inc 1 ++ left 1 ++ dec 1) ++
      right 1 ++ pourLeft 1 1 ++ right 1 ++ dec 1) ++
    left 2 ++ clear

/-- What a program prints before it hangs on a zero divisor. -/
def divisionMessage : String := "Error - Division by zero\n"

/-- Prints `divisionMessage` and loops forever. -/
def reportZeroDivisor : Code := writeBytes (Text.bytes divisionMessage.toList) ++ loop skip

/-- Tests the second operand and never ends if it is zero; the head stays. -/
def checkDivisor : Code :=
  right 2 ++ clear ++ right 1 ++ clear ++ left 2 ++ spreadRight 1 1 ++ right 1 ++ pourLeft 1 1 ++
    right 1 ++ ifZero reportZeroDivisor 1 ++ left 3

/-- Counts one more multiple of the divisor, which is used up, and restores it. -/
def nextMultiple : Code :=
  left 1 ++ inc 1 ++ left 1 ++ loop (dec 1 ++ left 1 ++ inc 1 ++ right 1) ++ right 2

/-- Long division. The operands `a` and `b` become zero and `b - a % b`, and the two
cells after them hold `a % b` and `a / b`. The head stays. -/
def divideWithRemainder (check : Bool) : Code :=
  (if check then checkDivisor else skip) ++
    right 2 ++ clear ++ right 1 ++ clear ++ right 1 ++ clear ++ right 1 ++ clear ++ left 5 ++
    loop (dec 1 ++ right 1 ++ dec 1 ++ right 1 ++ inc 1 ++ left 1 ++
      loop (dec 1 ++ right 3 ++ inc 1 ++ right 1 ++ inc 1 ++ left 4) ++ right 4 ++
      loop (dec 1 ++ left 4 ++ inc 1 ++ right 4) ++ left 1 ++ ifZero nextMultiple 1 ++ left 4)

/-- The quotient; with `check`, a zero divisor is reported. -/
def divide (check : Bool) : Code :=
  divideWithRemainder check ++ right 3 ++ pourLeft 3 1 ++ left 2 ++ clear ++ right 1 ++ clear ++ left 1

/-- The remainder; with `check`, a zero divisor is reported. -/
def modulo (check : Bool) : Code :=
  divideWithRemainder check ++ right 2 ++ pourLeft 2 1 ++ left 1 ++ clear ++ right 2 ++ clear ++ left 2

end TapeC.Routine
