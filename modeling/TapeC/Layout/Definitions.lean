import TapeC.Layout.Contents
import TapeC.Layout.Scopes
import TapeC.Program.Constant
import TapeC.Routine.Builtin
import TapeC.Routine.Value

/-! The definitions of a program: its structs, its global variables and their first
contents, and its functions. They are collected before any function is compiled. -/

namespace TapeC.Layout

open Program Tape Routine

structure Definitions where
  structs : List StructLayout := []
  /-- The global variables, which lie one after another from cell zero on. -/
  globals : List Variable := []
  /-- The number of cells that the global variables take. -/
  globalsSize : Nat := 0
  /-- Writes the first contents of the global variables on an empty tape and leaves
  the head behind them. -/
  globalCode : Code := .skip
  functions : List FunctionDef := []

/-- What a call can name. -/
inductive Callable where
  | builtin (b : Builtin)
  | defined (d : FunctionDef)

namespace Callable

def arity : Callable → Nat
  | builtin b => b.arity
  | defined d => d.params.length

def returns : Callable → ReturnKind
  | builtin b => if b.returnsValue then .int else .void
  | defined d => d.returns

end Callable

namespace Definitions

/-- The function of a name. -/
def callable? (d : Definitions) (name : String) : Option Callable :=
  match Builtin.ofName? name with
  | some b => some (.builtin b)
  | none => (d.functions.find? (·.name == name)).map .defined

def struct? (d : Definitions) (name : String) : Option StructLayout :=
  d.structs.find? (·.name == name)

/-! ### Structs -/

def addStruct (structs : List StructLayout) (d : StructDef) :
    Except CompileFault (List StructLayout) := do
  if structs.any (·.name == d.name) then throw (.semantic d.position (.structRedefined d.name))
  return structs ++ [← layOutStruct structs d]

/-! ### Global variables -/

/-- The value of a cell of a global variable, which must be constant. -/
def globalCell (name : String) : Content Expr → Except CompileFault Cell
  | .byte value => .ok value
  | .value e =>
    match e.constant? with
    | some value => .ok value
    | none => .error (.semantic e.position (.globalNotConstant name))

/-- Writes values into cells that are empty, from the head on, and steps over them. -/
def writeCells (values : List Cell) : Code :=
  .concat (values.map fun value => setCell value 0 false ++ .right 1)

/-- The code for the first contents of a global variable. -/
def globalContents (d : Declaration) (shape : Shape) : Except CompileFault Code := do
  match d.contents with
  | none => return .right shape.size
  | some contents =>
    let cells ← layOutContents Expr.position d.name d.position shape contents
    return writeCells (← cells.mapM (globalCell d.name))

/-- The global variables so far, with the scope that they are in. -/
structure Globals where
  vars : List Variable := []
  scopes : Scopes := .empty
  code : Code := .skip

def addGlobal (structs : List StructLayout) (g : Globals) (d : Declaration) :
    Except CompileFault Globals := do
  let type ← resolveType structs d.position d.type
  let (v, scopes) ← g.scopes.declare d.name ⟨type, d.dims⟩ d.position
  return ⟨g.vars ++ [v], scopes, g.code ++ (← globalContents d v.shape)⟩

/-! ### Functions -/

/-- Refuses a parameter whose name an earlier one has. -/
def checkParameters (earlier : List String) : List Parameter → Except CompileFault Unit
  | [] => .ok ()
  | p :: rest =>
    if earlier.contains p.name then .error (.semantic p.position (.parameterRedefined p.name))
    else checkParameters (p.name :: earlier) rest

def addFunction (functions : List FunctionDef) (d : FunctionDef) :
    Except CompileFault (List FunctionDef) := do
  if (Builtin.ofName? d.name).isSome || functions.any (·.name == d.name) then
    throw (.semantic d.position (.functionRedefined d.name))
  checkParameters [] d.params
  return functions ++ [d]

/-! ### Programs -/

/-- The definitions of a program: first all structs, then all global variables, then
all functions. -/
def ofProgram (p : Program) : Except CompileFault Definitions := do
  let structs ← p.structs.foldlM addStruct []
  let globals ← p.globals.foldlM (addGlobal structs) {}
  let functions ← p.functions.foldlM addFunction []
  return ⟨structs, globals.vars, globals.scopes.offset, globals.code, functions⟩

end Definitions
end TapeC.Layout
