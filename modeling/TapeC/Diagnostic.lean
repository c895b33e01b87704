import TapeC.Cell
import TapeC.Position

/-! What is found wrong with a program that is well formed: faults, which keep it
from being compiled, and warnings, which do not. Each names its cause; the words
are in `message`. -/

namespace TapeC

/-! ### Faults -/

/-- Why a well-formed program has no meaning. -/
inductive SemanticCause where
  | structRedefined (name : String)
  | fieldRedefined (field struct : String)
  | structInItself (name : String)
  | undefinedStruct (name : String)
  | functionRedefined (name : String)
  | parameterRedefined (name : String)
  | variableRedefined (name : String)
  | undefinedVariable (name : String)
  | undefinedFunction (name : String)
  | argumentCount (name : String) (expected given : Nat)
  /-- A call is expanded where it stands, so it cannot come back to its function. -/
  | recursion (name : String)
  /-- One value is given to fill more than one cell, or none. -/
  | notOneCell (name : String)
  | tooManyValues (name : String) (given room : Nat)
  | globalNotConstant (name : String)
  | divisionByZero
  | readOfMany (name : String)
  | assignmentToMany (name : String)
  | updateOfMany (operator : String)
  | fillAtRuntimeIndex (name : String)
  | fieldOfArray (name field : String)
  | fieldOfCell (name field : String)
  | noSuchField (struct field : String)
  | notAnArray (name : String)
  | indexCount (name : String) (dimensions given : Nat)
  | outOfBounds (index : Nat) (name : String) (length : Nat)
  /-- The operand of `operation` does not name a cell. -/
  | notAssignable (operation : String)
  | valueFromVoid
  | defaultRepeated
  | labelNotConstant
  | labelRepeated (value : Nat)
  | declarationInCase (name : String)
  | noMain
  | mainWithParameters
deriving DecidableEq, Repr

def SemanticCause.message : SemanticCause → String
  | structRedefined s => s!"Struct '{s}' is already defined"
  | fieldRedefined f s => s!"Field '{f}' is already defined in struct '{s}'"
  | structInItself s => s!"Struct '{s}' cannot contain itself"
  | undefinedStruct s => s!"Undefined struct '{s}'"
  | functionRedefined f => s!"Function '{f}' is already defined"
  | parameterRedefined p => s!"Parameter '{p}' is already defined"
  | variableRedefined v => s!"Variable '{v}' is already defined in this scope"
  | undefinedVariable v => s!"Undefined variable '{v}'"
  | undefinedFunction f => s!"Undefined function '{f}'"
  | argumentCount f expected given => s!"Function '{f}' expects {expected} argument(s), got {given}"
  | recursion f => s!"Recursive call to '{f}' is not supported: calls are expanded inline"
  | notOneCell v => s!"'{v}' needs a brace list or a string to initialize it"
  | tooManyValues v given room =>
    s!"Too many initial values for '{v}' ({given} given, room for {room})"
  | globalNotConstant v => s!"Global '{v}' must be initialized with constants"
  | divisionByZero => "Division by zero"
  | readOfMany v => s!"'{v}' is not a single value and cannot be read as one"
  | assignmentToMany v => s!"Cannot assign a single value to '{v}'; use a brace list or a string"
  | updateOfMany op => s!"Operand of '{op}' must be a single value"
  | fillAtRuntimeIndex v => s!"Whole-array assignment to '{v}' needs constant indices"
  | fieldOfArray v f => s!"'{v}' is an array; index it before selecting '.{f}'"
  | fieldOfCell v f => s!"'{v}' has no field '{f}'"
  | noSuchField s f => s!"Struct '{s}' has no field '{f}'"
  | notAnArray v => s!"'{v}' is not an array"
  | indexCount v dims given => s!"'{v}' has {dims} dimension(s) but {given} index(es) were given"
  | outOfBounds i v length => s!"Index {i} is out of bounds for '{v}' (length {length})"
  | notAssignable operation =>
    s!"Operand of {operation} must be a variable, array element or field"
  | valueFromVoid => "A void function cannot return a value"
  | defaultRepeated => "Duplicate default label"
  | labelNotConstant => "Case label must be a constant"
  | labelRepeated v => s!"Duplicate case value {v}"
  | declarationInCase v => s!"Declaration of '{v}' directly inside a case; wrap it in braces"
  | noMain => "No 'main' function"
  | mainWithParameters => "'main' must not take parameters"

/-- Statements that have a meaning but no code. -/
inductive UnsupportedCause where
  | breakOutsideCase
  | continue
deriving DecidableEq, Repr

def UnsupportedCause.message : UnsupportedCause → String
  | breakOutsideCase => "'break' is only supported directly inside a switch case"
  | .continue => "'continue' is not supported"

/-- Why a well-formed program cannot be compiled, and where. -/
inductive CompileFault where
  | semantic (position : Position) (cause : SemanticCause)
  | unsupported (position : Position) (cause : UnsupportedCause)
deriving DecidableEq, Repr

/-! ### Warnings -/

/-- The number of cells that a walk by an index can pass. -/
def walkReach : Nat := Cell.modulus

inductive WarningCause where
  | afterReturn
  | afterBreak
  | emptySwitch
  | loopVariable (name : String)
  | longWalk (name : String) (cells : Nat)
deriving DecidableEq, Repr

def WarningCause.message : WarningCause → String
  | afterReturn => "Statements after 'return' still run; 'return' only sets the result"
  | afterBreak => "Statements after 'break' are never executed"
  | emptySwitch => "Switch without cases"
  | loopVariable v => s!"Loop variable '{v}' is declared without a value"
  | longWalk v cells =>
    s!"'{v}' spans {cells} cells; a runtime index only reaches the first {walkReach}"

structure Warning where
  position : Position
  cause : WarningCause
deriving DecidableEq, Repr

def Warning.message (w : Warning) : String := s!"Warning at {w.position.text}: {w.cause.message}"

end TapeC
