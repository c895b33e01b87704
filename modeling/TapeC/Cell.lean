/-! Values of a tape cell. A cell holds one byte; arithmetic is modulo 256 and
unsigned, a truth value is zero or one, and a shift by the width of a cell or
more leaves nothing. -/

namespace TapeC

/-- What one cell of the tape holds. -/
abbrev Cell := UInt8

namespace Cell

/-- The width of a cell in bits. -/
def bits : Nat := 8

/-- The number of values a cell can hold. -/
def modulus : Nat := 1 <<< bits

/-- The remainder of an integer modulo the number of cell values. -/
def ofInt (n : Int) : Cell := UInt8.ofInt n

def ofBool (b : Bool) : Cell := if b then 1 else 0

/-- `a` doubled `b` times. -/
def shiftLeft (a b : Cell) : Cell := if b.toNat < bits then a <<< b else 0

/-- `a` halved `b` times. -/
def shiftRight (a b : Cell) : Cell := if b.toNat < bits then a >>> b else 0

end Cell
end TapeC
