import TapeC.Cell
import TapeC.Tape.Code

/-! Writing known values into cells. A value is reached from the one before it by
the shortest of four programs: a run of additions or of subtractions, or a loop
that counts down in the next cell and adds or subtracts a factor each time, with
a short run to make up the difference. -/

namespace TapeC.Routine

open Tape Code

/-- The first of a list of candidates whose cost no other undercuts. -/
def cheapest {α : Type} (cost : α → Nat) (first : α) (others : List α) : α :=
  others.foldl (fun best x => if cost x < cost best then x else best) first

/-- A way to write a number as `count * step + remainder`. -/
structure Factors where
  count : Nat
  step : Nat
  remainder : Int
deriving DecidableEq, Repr

def Factors.cost (f : Factors) : Nat := f.count + f.step + f.remainder.natAbs

/-- For each count from two to `n / 2`, the two steps nearest to `n / count`, where
they are at least two. -/
def Factors.candidates (n : Int) : List Factors :=
  (List.range' 2 ((n / 2).toNat - 1)).flatMap fun (count : Nat) =>
    ([(n / count).toNat, (n / count).toNat + 1].filter (2 ≤ ·)).map fun step =>
      ⟨count, step, n - (count * step : Nat)⟩

/-- The cheapest factors of `n`, if any count and step are at least two. -/
def Factors.best? (n : Int) : Option Factors :=
  match candidates n with
  | [] => none
  | first :: others => some (cheapest cost first others)

/-- Changes the cell under the head by `n`, up or down, by a run. -/
def run (up : Bool) (n : Nat) : Code := if up then inc n else dec n

/-- Changes the cell under the head by `n`, up or down, counting in the next cell.
That cell is emptied first if `clearNext` holds and must be empty otherwise. -/
def runByLoop? (up : Bool) (n : Nat) (clearNext : Bool) : Option Code := do
  let f ← Factors.best? n
  let more := if 0 ≤ f.remainder then up else !up
  return right 1 ++ (if clearNext then clear else skip) ++ inc f.count ++
    loop (left 1 ++ run up f.step ++ right 1 ++ dec 1) ++ left 1 ++ run more f.remainder.natAbs

/-- Changes the cell under the head from `old` to `new` by the shortest program;
the head stays. The next cell may be used as a counter, see `runByLoop?`. -/
def setCell (new old : Cell) (clearNext : Bool) : Code :=
  let rise := (new - old).toNat
  let fall := Cell.modulus - rise
  cheapest Code.count (run true rise)
    ((runByLoop? true rise clearNext).toList ++ [run false fall] ++
      (runByLoop? false fall clearNext).toList)

/-- Writes a value into the cell under the head, whatever it holds, and steps
right. -/
def literal (value : Cell) : Code := clear ++ setCell value 0 true ++ right 1

/-- Writes bytes to the output, building each from the one before it. -/
def writeBytesFrom (old : Cell) : List Cell → Code
  | [] => skip
  | byte :: bytes => setCell byte old false ++ write ++ writeBytesFrom byte bytes

/-- Writes bytes to the output. The cell under the head and the next one are
emptied first and used; the head stays. -/
def writeBytes (bytes : List Cell) : Code :=
  clear ++ right 1 ++ clear ++ left 1 ++ writeBytesFrom 0 bytes

end TapeC.Routine
