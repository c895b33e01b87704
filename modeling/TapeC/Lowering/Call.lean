import TapeC.Lowering.Tree

/-! The code of calls. A function is expanded where it is called, with the cell of
the returned value first, the arguments behind it and then what the function
declares. It sees the global variables but nothing of its caller. Functions that
call each other in a circle cannot be expanded. -/

namespace TapeC.Lowering

open Layout Program Tape Routine Code

/-- Scopes with the parameters of a function declared. -/
def declareParameters (scopes : Scopes) : List Parameter → Lower Scopes
  | [] => return scopes
  | p :: rest => do
    let (_, scopes) ← scopes.declare p.name .cell p.position
    declareParameters scopes rest

/-- The code of a function body. The head starts and ends on the returned value. -/
def functionBody (act : Activation) (d : FunctionDef) : Lower Code := do
  let scopes := (Scopes.ofGlobals act.definitions.globals).enterAt (act.returnCell + 1)
  let scopes ← declareParameters scopes d.params
  let (body, scopes) ← statements act d.body scopes
  return act.note ("call " ++ d.name) ++ right (1 + d.params.length) ++ body ++
    left scopes.claimed ++ left 1 ++ act.note ("end " ++ d.name)

/-- The code of a called function, where the functions in `active` are being expanded
and at most `depth` more can be. A function that is being expanded already is
refused; so is one at depth zero, since then all functions are. -/
def inlineCall (definitions : Definitions) (annotate : Bool) :
    (depth : Nat) → (active : List String) → FunctionDef → Position → CodeAt
  | 0, _, d, position, _ => fail position (.recursion d.name)
  | depth + 1, active, d, position, p =>
    if active.contains d.name then fail position (.recursion d.name)
    else
      functionBody
        { definitions, annotate
          returns := d.returns
          returnCell := p
          inline := inlineCall definitions annotate depth (d.name :: active) }
        d

/-- Code that is not in any function. -/
def outermost (definitions : Definitions) (annotate : Bool) (returnCell : Nat) : Activation :=
  { definitions, annotate, returnCell
    returns := .void
    inline := inlineCall definitions annotate definitions.functions.length [] }

end TapeC.Lowering
