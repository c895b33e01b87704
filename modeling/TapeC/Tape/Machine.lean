import TapeC.Tape.Block

/-! The tape machine. Its tape starts at cell zero, grows to the right and holds
one byte per cell; a run reads bytes from an input, which ends in zeros, and
writes bytes to an output. A loaded program is a flat list of operations in
which both ends of a loop know each other. A run is cut short by a budget of
operations, and a move left of cell zero is a fault. -/

namespace TapeC.Tape

/-- Why a text cannot be loaded or a run does not finish. -/
inductive Fault where
  /-- The bracket at this character has no partner. -/
  | unmatchedBracket (position : Nat)
  /-- The move at this character leaves the tape on the left. -/
  | underflow (position : Nat)
  /-- The budget is used up; `output` was written until then. -/
  | exhausted (limit : Nat) (output : List Cell)
deriving DecidableEq, Repr

inductive Op where
  | move (distance : Int)
  | add (amount : Cell)
  | write
  | read
  /-- The beginning of the loop that ends at the operation `close`. -/
  | enter (close : Nat)
  /-- The end of the loop that begins at the operation `start`. -/
  | again (start : Nat)
deriving DecidableEq, Repr

/-- An operation and the index of its first character. -/
structure Instruction where
  op : Op
  position : Nat
deriving DecidableEq, Repr

/-- The operations of a block, added to those before it. -/
def Block.emit : Block → Array Instruction → Array Instruction
  | nil, code => code
  | move p distance rest, code => rest.emit (code.push ⟨.move distance, p⟩)
  | add p amount rest, code => rest.emit (code.push ⟨.add amount, p⟩)
  | write p rest, code => rest.emit (code.push ⟨.write, p⟩)
  | read p rest, code => rest.emit (code.push ⟨.read, p⟩)
  | loop p q body rest, code =>
    let start := code.size
    let close := body.sizeFrom (start + 1)
    rest.emit ((body.emit (code.push ⟨.enter close, p⟩)).push ⟨.again start, q⟩)

/-- A loaded program. -/
structure Machine where
  code : Array Instruction

/-- The state of a run. -/
structure State where
  /-- The next operation. -/
  pc : Nat := 0
  head : Nat
  /-- The lowest cell the head has stood on. -/
  lowest : Nat
  tape : Array Cell
  input : List Cell
  output : Array Cell := #[]
  /-- The operations executed so far. -/
  steps : Nat := 0

namespace State

/-- The head on the cell `start` of an empty tape. -/
def initial (start : Nat) (input : List Cell) : State :=
  { head := start, lowest := start, tape := Array.replicate (start + 1) 0, input }

def cell (s : State) : Cell := s.tape.getD s.head 0

/-- The head on another cell, with the tape grown to hold it. -/
def moveTo (s : State) (head : Nat) : State :=
  { s with
    head
    lowest := min s.lowest head
    tape := if head < s.tape.size then s.tape else s.tape.rightpad (head + 1) 0 }

def store (s : State) (value : Cell) : State :=
  { s with tape := s.tape.setIfInBounds s.head value }

/-- The effect of one operation. -/
def step (s : State) (i : Instruction) : Except Fault State :=
  let s := { s with steps := s.steps + 1, pc := s.pc + 1 }
  match i.op with
  | .move distance =>
    let target := s.head + distance
    if target < 0 then .error (.underflow i.position) else .ok (s.moveTo target.toNat)
  | .add amount => .ok (s.store (s.cell + amount))
  | .write => .ok { s with output := s.output.push s.cell }
  | .read =>
    match s.input with
    | [] => .ok (s.store 0)
    | byte :: input => .ok { s.store byte with input }
  | .enter close => .ok (if s.cell = 0 then { s with pc := close + 1 } else s)
  | .again start => .ok (if s.cell = 0 then s else { s with pc := start + 1 })

end State

namespace Machine

/-- Loads a program text; characters that are not instructions are ignored. -/
def ofChars (cs : List Char) : Except Fault Machine :=
  match Block.ofChars cs with
  | .ok block => .ok ⟨block.emit #[]⟩
  | .error position => .error (.unmatchedBracket position)

def ofString (s : String) : Except Fault Machine := ofChars s.toList

/-- The number of operations. -/
def size (m : Machine) : Nat := m.code.size

/-- Runs until the program ends or the rest of the budget is used up. -/
def runFrom (m : Machine) (limit : Nat) : Nat → State → Except Fault State
  | 0, s => if s.pc < m.size then .error (.exhausted limit s.output.toList) else .ok s
  | budget + 1, s =>
    match m.code[s.pc]? with
    | none => .ok s
    | some i =>
      match s.step i with
      | .ok s => m.runFrom limit budget s
      | .error fault => .error fault

/-- Runs on an empty tape with at most `limit` operations, starting on the cell
`start`. -/
def run (m : Machine) (limit : Nat) (start : Nat) (input : List Cell) : Except Fault State :=
  m.runFrom limit limit (.initial start input)

end Machine

/-- The largest budget a run gets when none is asked for. -/
def defaultLimit : Nat := 50000000

end TapeC.Tape
