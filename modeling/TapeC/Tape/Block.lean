import TapeC.Cell
import TapeC.Tape.Listing

/-! Program texts with their brackets matched. A text is read from its end: what
has been read is a block, and each closing bracket that still waits for its
partner starts a new one. Moves that meet are one move and additions that meet
are one addition, whatever comments stand between them. -/

namespace TapeC.Tape

/-- The instructions of a text up to its end or the end of a loop body, each with
the index of its first character. -/
inductive Block where
  | nil
  | move (position : Nat) (distance : Int) (rest : Block)
  | add (position : Nat) (amount : Cell) (rest : Block)
  | write (position : Nat) (rest : Block)
  | read (position : Nat) (rest : Block)
  | loop (position close : Nat) (body rest : Block)
deriving DecidableEq, Inhabited

namespace Block

/-- A move in front of a block, joined with a move the block starts with. -/
def consMove (position : Nat) (distance : Int) : Block → Block
  | move _ more rest => move position (distance + more) rest
  | rest => move position distance rest

/-- An addition in front of a block, joined with one the block starts with. -/
def consAdd (position : Nat) (amount : Cell) : Block → Block
  | add _ more rest => add position (amount + more) rest
  | rest => add position amount rest

/-- The number of machine operations of a block, added to `n`. -/
def sizeFrom (n : Nat) : Block → Nat
  | nil => n
  | move _ _ rest => rest.sizeFrom (n + 1)
  | add _ _ rest => rest.sizeFrom (n + 1)
  | write _ rest => rest.sizeFrom (n + 1)
  | read _ rest => rest.sizeFrom (n + 1)
  | loop _ _ body rest => rest.sizeFrom (body.sizeFrom (n + 1) + 1)

/-- The state of reading a text from its end. -/
structure Reader where
  /-- What follows the current place, up to the end of the innermost loop. -/
  current : Block := .nil
  /-- For each closing bracket without a partner so far, its place and what follows it. -/
  outer : List (Nat × Block) := []
  /-- The last opening bracket that has no partner. -/
  unclosed : Option Nat := none

/-- One more character in front of what has been read. -/
def Reader.cons (position : Nat) (c : Char) (r : Reader) : Reader :=
  match c with
  | '>' => { r with current := consMove position 1 r.current }
  | '<' => { r with current := consMove position (-1) r.current }
  | '+' => { r with current := consAdd position 1 r.current }
  | '-' => { r with current := consAdd position (-1) r.current }
  | '.' => { r with current := .write position r.current }
  | ',' => { r with current := .read position r.current }
  | ']' => { r with current := .nil, outer := (position, r.current) :: r.outer }
  | '[' =>
    match r.outer with
    | (close, rest) :: outer => { r with current := .loop position close r.current rest, outer }
    | [] => { r with current := .nil, unclosed := r.unclosed.or (some position) }
  | _ => r

def Reader.ofChars (cs : List Char) : Reader :=
  cs.zipIdx.foldr (fun (c, position) r => r.cons position c) {}

/-- The block of a text, or the place of a bracket without a partner: the first
closing one if there is any, else the last opening one. -/
def ofChars (cs : List Char) : Except Nat Block :=
  match Reader.ofChars cs with
  | { outer := (position, _) :: _, .. } => .error position
  | { unclosed := some position, .. } => .error position
  | { current, .. } => .ok current

end Block
end TapeC.Tape
