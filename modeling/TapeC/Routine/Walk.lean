import TapeC.Routine.Transfer

/-! Reaching a cell whose distance is only known at run time. The head walks right
over scratch cells by the index, so that a fixed distance to its left is the
indexed cell. A counter of the cells walked over leads it back. -/

namespace TapeC.Routine

open Tape Code

/-- Walks right by the index `i` in the cell left of the head. With the index at
`p`, the cells from `p` to `p + i` end empty, the next one holds `i`, and the head
is on the one after it. -/
def walkRight : Code :=
  clear ++ left 1 ++
    loop (right 2 ++ clear ++ inc 1 ++ left 1 ++ pourRight 1 1 ++ left 1 ++ dec 1 ++ pourRight 1 1 ++
      right 1) ++
    right 2

/-- As `walkRight`, with a value that is carried along. The index is at `p`, the next
cell is empty, the value is at `p + 2` and the head right of it; the value ends
under the head. -/
def walkRightCarrying : Code :=
  vacant 2 ++ left 3 ++
    loop (right 3 ++ clear ++ left 1 ++ pourRight 1 1 ++ left 1 ++ inc 1 ++ pourRight 1 1 ++ left 1 ++
      dec 1 ++ pourRight 1 1 ++ right 1) ++
    right 2

/-- Walks back by the counter under the head, with the value left of it. The value
ends where the index was, and the head right of it. -/
def walkBack : Code :=
  loop (left 1 ++ pourLeft 1 1 ++ right 1 ++ dec 1 ++ pourLeft 1 1 ++ left 1)

/-- Walks back with the value under the head, which is right of the counter. -/
def bringBack : Code := pourLeft 2 1 ++ left 1 ++ walkBack

end TapeC.Routine
