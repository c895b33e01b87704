import TapeC.Tape.Code

/-! Programs that carry the content of a cell to other cells. Distances count from
the cell the head starts on. A copy drains its source into two cells and then
restores it from one of them, so it needs a scratch cell, which ends empty. -/

namespace TapeC.Routine

open Tape Code

/-- Adds `times` times the cell under the head to the cell `n` to its left and
empties it. -/
def pourLeft (n times : Nat) : Code := loop (left n ++ inc times ++ right n ++ dec 1)

/-- Adds `times` times the cell under the head to the cell `n` to its right and
empties it. -/
def pourRight (n times : Nat) : Code := loop (right n ++ inc times ++ left n ++ dec 1)

/-- Adds the cell under the head to the cells `m` and `m + n` to its right and
empties it. -/
def spreadRight (m n : Nat) : Code :=
  loop (right m ++ inc 1 ++ right n ++ inc 1 ++ left (m + n) ++ dec 1)

/-- Copies the cell `n` to the left into the cell under the head and steps right.
The cell to the right of the head is scratch. -/
def copyFrom (n : Nat) : Code :=
  clear ++ right 1 ++ clear ++ left (n + 1) ++ spreadRight n 1 ++ right (n + 1) ++
    pourLeft (n + 1) 1

/-- Copies the cell under the head into the cell `n` to the left. The cell to the
right of the head is scratch; the head stays. -/
def copyTo (n : Nat) : Code :=
  right 1 ++ clear ++ left (n + 1) ++ clear ++ right n ++
    loop (right 1 ++ inc 1 ++ left (n + 1) ++ inc 1 ++ right n ++ dec 1) ++
    right 1 ++ pourLeft 1 1 ++ left 1

/-- Moves the cell under the head into the cell `n` to the left; the head stays. -/
def moveTo (n : Nat) : Code := left n ++ clear ++ right n ++ pourLeft n 1

/-- How an update operator changes its operand. -/
inductive Change where
  | increment
  | decrement
  | keep
  | reset
deriving DecidableEq, Repr

/-- The change of the cell under the head, where it is a single instruction. -/
def Change.code : Change → Code
  | increment => inc 1
  | decrement => dec 1
  | keep => skip
  | reset => skip

/-- Changes the cell `n` to the left, copies its new value into the cell under the
head and steps right. -/
def updateThenRead (change : Change) (n : Nat) : Code :=
  match change with
  | .reset => clear ++ left n ++ clear ++ right n ++ right 1
  | change =>
    clear ++ right 1 ++ clear ++ left (n + 1) ++ change.code ++ spreadRight n 1 ++ right (n + 1) ++
      pourLeft (n + 1) 1

/-- Copies the cell `n` to the left into the cell under the head, changes the
former and steps right. -/
def readThenUpdate (change : Change) (n : Nat) : Code :=
  match change with
  | .reset => clear ++ left n ++ pourRight n 1 ++ right n ++ right 1
  | change =>
    clear ++ right 1 ++ clear ++ left (n + 1) ++ spreadRight n 1 ++ right (n + 1) ++ change.code ++
      pourLeft (n + 1) 1

end TapeC.Routine
