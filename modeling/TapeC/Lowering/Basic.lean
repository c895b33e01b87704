import TapeC.Layout.Definitions
import TapeC.Layout.Place

/-! Turning a program into code for the tape machine. An expression is lowered at a
cell: its code starts with the head there, leaves its value there and the head on
the next cell, and reads or writes nothing to the left but variables. A statement
is lowered at the first free cell and leaves the head on the cell that is the first
free one after it. Warnings are collected on the way. -/

namespace TapeC.Lowering

open Layout Program Tape Routine

/-- A computation that may fail and adds warnings, the latest in front. -/
abbrev Lower := StateT (List Warning) (Except CompileFault)

/-- Code for each cell at which it may start. -/
abbrev CodeAt := Nat → Lower Code

/-- Code for a statement, with the scopes after it, for each scopes before it. -/
abbrev CodeIn := Scopes → Lower (Code × Scopes)

def warn (position : Position) (cause : WarningCause) : Lower Unit :=
  modify (⟨position, cause⟩ :: ·)

def fail {α : Type} (position : Position) (cause : SemanticCause) : Lower α :=
  throw (.semantic position cause)

/-- The function that is being lowered. -/
structure Activation where
  definitions : Definitions
  /-- Whether comments that tell where code comes from are added. -/
  annotate : Bool
  returns : ReturnKind
  /-- The cell of the returned value. -/
  returnCell : Nat
  /-- The code of the function called at a position, whose returned value goes to the
  cell where the code starts. -/
  inline : FunctionDef → Position → CodeAt

/-- A comment, if comments are added. -/
def Activation.note (act : Activation) (text : String) : Code :=
  if act.annotate then .note text else .skip

end TapeC.Lowering
