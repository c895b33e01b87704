import TapeC.Routine.Transfer

/-! The functions that every program can call without defining them. A body starts
and ends on the cell of the returned value; the argument is in the next one. -/

namespace TapeC.Routine

open Tape Code

inductive Builtin where
  /-- Reads decimal digits up to a line feed. -/
  | readInt
  /-- Writes a number in decimal without leading zeros. -/
  | printInt
  /-- Reads a byte. -/
  | readChar
  /-- Writes a byte. -/
  | printChar
deriving DecidableEq, Repr

namespace Builtin

def all : List Builtin := [readInt, printInt, readChar, printChar]

def name : Builtin → String
  | readInt => "readint"
  | printInt => "printint"
  | readChar => "readchar"
  | printChar => "printchar"

def ofName? (name : String) : Option Builtin := all.find? (·.name == name)

def arity : Builtin → Nat
  | readInt | readChar => 0
  | printInt | printChar => 1

def returnsValue : Builtin → Bool
  | readInt | readChar => true
  | printInt | printChar => false

/-- The number so far times ten, plus the digit that was read. The digit is two
cells right of the number and lessened by ten already; the head starts on it. -/
def appendDigit : Code :=
  right 1 ++ inc 1 ++ left 3 ++ pourRight 1 1 ++ right 1 ++ pourLeft 1 10 ++ right 1 ++ dec 38 ++
    pourLeft 2 1

/-- Divides the cell under the head by the one to its right. The latter becomes the
divisor less the remainder, the one after it the remainder and the next one the
quotient. -/
def splitDigit : Code :=
  loop (dec 1 ++ right 1 ++ dec 1 ++ loop (right 1 ++ inc 1 ++ right 2) ++ right 1 ++
    loop (inc 1 ++ pourLeft 1 1 ++ right 1 ++ inc 1 ++ right 2) ++ left 5)

/-- Splits the argument into three digits and writes those that are due. -/
def printDigits : Code :=
  right 1 ++ inc 10 ++ left 1 ++ splitDigit ++ right 1 ++ clear ++ right 3 ++ inc 10 ++ left 1 ++
    splitDigit ++ right 1 ++ clear ++ right 2 ++
    loop (right 1 ++ inc 6 ++ pourLeft 1 8 ++ left 1 ++ write ++ left 2 ++ inc 1 ++ right 1 ++ inc 1 ++
      right 1 ++ clear) ++
    left 1 ++
    loop (left 1 ++ loop (right 1 ++ dec 1 ++ left 1 ++ dec 1) ++ inc 6 ++ pourRight 1 8 ++ right 1 ++
      write ++ clear) ++
    left 2 ++ inc 6 ++ pourLeft 1 8 ++ left 1 ++ write ++ clear ++ left 3

/-- What a call runs once its arguments are in place. -/
def body : Builtin → Code
  | readInt =>
    clear ++ right 1 ++ clear ++ right 2 ++ clear ++ inc 1 ++
      loop (clear ++ left 1 ++ read ++ dec 10 ++ loop appendDigit ++ right 1) ++ left 3
  | printInt => right 1 ++ concat (List.replicate 8 (right 1 ++ clear)) ++ left 8 ++ printDigits
  | readChar => read
  | printChar => right 1 ++ write ++ left 1

end Builtin
end TapeC.Routine
