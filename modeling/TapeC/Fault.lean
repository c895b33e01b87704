import TapeC.Diagnostic
import TapeC.Include
import TapeC.Grammar.Step
import TapeC.Tape.Machine

/-! Every way in which compiling a program or running its code can fail. -/

namespace TapeC

inductive Fault where
  | lexical (position : Position) (fault : Token.Fault)
  | include (path : String) (cause : Include.Cause)
  | grammar (fault : Grammar.Fault)
  | compile (fault : CompileFault)
  | machine (fault : Tape.Fault)
deriving DecidableEq, Repr

namespace Fault

/-- A message about a place in the source text. -/
def located (what : String) (p : Position) (message : String) : String :=
  s!"{what} at line {p.line}, column {p.column}: {message}"

def message : Fault → String
  | lexical p fault => located "Lexical error" p fault.message
  | .include path cause => s!"Cannot include '{path}': {cause.message}"
  | grammar .unexpectedEnd => "Unexpected end of file"
  | grammar (.refused p cause) => located "Syntax error" p cause.message
  | compile (.semantic p cause) => located "Semantic error" p cause.message
  | compile (.unsupported p cause) => located "Unsupported" p cause.message
  | machine (.unmatchedBracket i) => s!"Unmatched bracket at instruction {i}"
  | machine (.underflow i) => s!"Head moved left of cell 0 at instruction {i}"
  | machine (.exhausted limit _) => s!"Execution limit exceeded (max: {limit} steps)"

/-- The place in the source text that a fault is about. -/
def position? : Fault → Option Position
  | lexical p _ | grammar (.refused p _) | compile (.semantic p _) | compile (.unsupported p _) =>
    some p
  | _ => none

/-- Whether the same program may succeed when it is tried again with a larger budget. -/
def isRecoverable : Fault → Bool
  | machine (.exhausted _ _) => true
  | _ => false

end Fault
end TapeC
