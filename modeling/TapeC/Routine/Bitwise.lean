import TapeC.Cell
import TapeC.Routine.Transfer

/-! Bit operations and shifts. The head starts on the first operand; the result
takes its place, every other cell used is emptied and the head ends one cell
right of the result. A cell is halved by counting it down in twos. -/

namespace TapeC.Routine

open Tape Code

/-- Doubles the first operand as often as the second says. -/
def shiftLeft : Code :=
  right 2 ++ clear ++ left 1 ++
    loop (left 1 ++ pourRight 2 1 ++ right 2 ++ pourLeft 2 2 ++ left 1 ++ dec 1)

/-- Halves the first operand as often as the second says. -/
def shiftRight : Code :=
  right 1 ++ right 1 ++ clear ++ right 1 ++ clear ++ right 1 ++ clear ++ right 1 ++ clear ++ left 4 ++
    loop (right 1 ++ inc 2 ++ left 2 ++
      loop (dec 1 ++ right 2 ++ dec 1 ++ spreadRight 2 1 ++ right 3 ++ pourLeft 3 1 ++ left 1 ++ dec 1 ++
        loop (left 1 ++ inc 1 ++ left 1 ++ inc 2 ++ right 2 ++ inc 1) ++ left 4) ++
      right 3 ++ pourLeft 3 1 ++ left 1 ++ clear ++ left 1 ++ dec 1)

/-- How two bits become one. -/
inductive BitRule where
  | and
  | or
  | xor
deriving DecidableEq, Repr

/-- Combines the bit under the head with the one to its right into the empty cell
to the left of the head. Both bits are used up; the head ends one cell right. -/
def BitRule.code : BitRule → Code
  | and => loop (dec 1 ++ right 1 ++ loop (dec 1 ++ left 2 ++ inc 1 ++ right 2) ++ left 1) ++ right 1 ++ clear
  | or => pourRight 1 1 ++ right 1 ++ loop (clear ++ left 2 ++ inc 1 ++ right 2)
  | xor => loop (right 1 ++ dec 1 ++ left 1 ++ dec 1) ++ right 1 ++ loop (clear ++ left 2 ++ inc 1 ++ right 2)

/-- Halves the first operand and keeps its low bit in the cell of the first bit. -/
def splitFirst : Code :=
  loop (dec 1 ++ right 2 ++ dec 1 ++ spreadRight 1 2 ++ right 1 ++ pourLeft 1 1 ++ right 4 ++ inc 1 ++
    left 2 ++ dec 1 ++
    loop (left 1 ++ inc 1 ++ left 2 ++ inc 2 ++ right 5 ++ dec 2 ++ left 2 ++ inc 1) ++ left 5) ++
    right 4 ++ pourLeft 4 1 ++ left 2 ++ clear ++ inc 2 ++ left 1

/-- Halves the second operand and keeps its low bit in the cell before the first. -/
def splitSecond : Code :=
  loop (dec 1 ++ right 1 ++ dec 1 ++ spreadRight 1 2 ++ right 1 ++ pourLeft 1 1 ++ right 3 ++ inc 1 ++
    left 1 ++ dec 1 ++
    loop (right 1 ++ dec 2 ++ left 2 ++ inc 1 ++ left 2 ++ inc 2 ++ right 3 ++ inc 1) ++ left 4) ++
    right 3 ++ pourLeft 3 1 ++ right 2

/-- Doubles the combined bit once per round done and adds it to the result. -/
def collectBit : Code :=
  right 1 ++ loop (left 1 ++ inc 1 ++ left 1 ++ inc 1 ++ right 2 ++ dec 1) ++ left 1 ++ pourRight 1 1 ++
    left 1 ++ loop (left 1 ++ pourLeft 1 1 ++ left 1 ++ pourRight 1 2 ++ right 2 ++ dec 1) ++
    left 1 ++ pourRight 4 1 ++ right 3

/-- Combines two cells bit by bit, from the low end. After the operands come five
scratch cells, the first bit, the number of rounds done less the width of a cell,
and the result. -/
def bitwise (rule : BitRule) : Code :=
  right 7 ++ clear ++ right 1 ++ right 1 ++ clear ++ left 1 ++ clear ++ dec Cell.bits ++
    loop (inc Cell.bits ++ left 1 ++ left 1 ++ clear ++ left 1 ++ clear ++ left 1 ++ clear ++
      left 1 ++ clear ++ left 1 ++ clear ++ inc 2 ++ left 2 ++
      splitFirst ++ splitSecond ++ rule.code ++ collectBit ++ dec (Cell.bits - 1)) ++
    right 1 ++ pourLeft 9 1 ++ left 7 ++ clear ++ left 1

/-- One if the cell under the head is zero, else zero. -/
def logicalNot : Code :=
  right 1 ++ clear ++ inc 1 ++ left 1 ++ loop (right 1 ++ dec 1 ++ left 1 ++ clear) ++ right 1 ++
    pourLeft 1 1

/-- The cell under the head subtracted from 255. -/
def complement : Code :=
  right 1 ++ clear ++ left 1 ++ pourRight 1 1 ++ right 1 ++ inc 1 ++
    loop (left 1 ++ dec 1 ++ right 1 ++ dec 1)

end TapeC.Routine
