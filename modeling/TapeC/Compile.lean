import TapeC.Fault
import TapeC.Grammar.Program
import TapeC.Lowering.Call
import TapeC.Program.Folding

/-! Compiling whole programs. The code of a program first fills the global variables,
from cell zero on, and then calls `main` on the first cell behind them. -/

namespace TapeC

structure Options where
  /-- Whether constants are folded, and printed as text where they are numbers. -/
  optimize : Bool := true
  /-- Whether each statement is told by a comment. -/
  annotate : Bool := false
  /-- Whether all that is not an instruction is left out of the text. -/
  minify : Bool := false

structure Compiled where
  code : Tape.Code
  /-- The number of cells that the global variables take. -/
  globalsSize : Nat
  /-- What is suspicious, each once, in the order found. -/
  warnings : List Warning
  minified : Bool

/-- The program text. -/
def Compiled.text (c : Compiled) : String :=
  if c.minified then String.ofList (Tape.strip c.code.listing.chars) else c.code.text

namespace Program

/-- The code that calls `main`. -/
def callMain (definitions : Layout.Definitions) (annotate : Bool) : Lowering.Lower Tape.Code :=
  match definitions.functions.find? (·.name == "main") with
  | none => Lowering.fail .start .noMain
  | some main =>
    if main.params.isEmpty then
      let start := definitions.globalsSize
      Lowering.call (Lowering.outermost definitions annotate start) "main" [] main.position start
    else Lowering.fail main.position .mainWithParameters

/-- The code of a program that is not optimized any further. -/
def lower (annotate : Bool) (p : Program) : Except CompileFault (Tape.Code × Nat × List Warning) := do
  let definitions ← Layout.Definitions.ofProgram p
  let (body, warnings) ← (callMain definitions annotate).run []
  return (definitions.globalCode ++ body, definitions.globalsSize, warnings.reverse.eraseDups)

def compile (options : Options) (p : Program) : Except CompileFault Compiled := do
  let p := if options.optimize then p.optimize 2 else p
  let (code, globalsSize, warnings) ← p.lower options.annotate
  return { code, globalsSize, warnings, minified := options.minify }

end Program

/-! ### Source texts -/

/-- The tokens of a source text. -/
def tokens (source : String) : Except Fault (List Token) :=
  (Token.scan source).mapError fun (p, fault) => .lexical p fault

/-- Tokens with their directives expanded. -/
def expand (lib : Include.Library) (tokens : List Token) : Except Fault (List Token) :=
  (Include.expand lib tokens).mapError fun
    | .unresolved path cause => .include path cause
    | .lexical p fault => .lexical p fault

/-- The program of a source text that may name files of a library. -/
def parse (lib : Include.Library) (source : String) : Except Fault Program := do
  let tokens ← expand lib (← tokens source)
  (Grammar.program tokens).mapError .grammar

/-- Compiles a source text that may name files of a library. -/
def compile (options : Options) (lib : Include.Library) (source : String) :
    Except Fault Compiled := do
  let p ← parse lib source
  (p.compile options).mapError .compile

/-- The expression that a source text consists of. -/
def parseExpression (source : String) : Except Fault Program.Expr := do
  (Grammar.standalone (← tokens source)).mapError .grammar

/-- The code of an expression over literals and built-in functions, as it is written,
which leaves its value in cell `p`. -/
def compileExpression (source : String) (p : Nat) : Except Fault Tape.Code := do
  let e ← parseExpression source
  let lowered := do
    let definitions ← Layout.Definitions.ofProgram {}
    let scopes := (Layout.Scopes.ofGlobals definitions.globals).enterAt p
    (Lowering.expr (Lowering.outermost definitions false 0) scopes e p).run' []
  lowered.mapError .compile

/-! ### Source files -/

/-- The text of a source file, and the library of what it may name: files beside it
and those in the directories of `search`. -/
def openSource (disk : Disk) (search : List String) (path : String) :
    Except Fault (String × Include.Library) :=
  match disk.readText path with
  | .ok (_, text) => .ok (text, .ofDisk disk search (Disk.parent path))
  | .error fault => .error (.include path (.unreadable fault))

def parseFile (disk : Disk) (search : List String) (path : String) : Except Fault Program := do
  let (source, lib) ← openSource disk search path
  parse lib source

def compileFile (options : Options) (disk : Disk) (search : List String) (path : String) :
    Except Fault Compiled := do
  let (source, lib) ← openSource disk search path
  compile options lib source

end TapeC
