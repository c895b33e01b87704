import TapeC.Lowering.Operation
import TapeC.Routine.Guard

/-! Code for statements, put together from code for their parts. Between statements
the head is on the first free cell. Leaving a scope moves it back over the cells of
the scope, which keep what they hold. -/

namespace TapeC.Lowering

open Layout Program Tape Routine Code

/-! ### Scopes -/

/-- Code in a scope of its own. -/
def inScope (body : CodeIn) (scopes : Scopes) : Lower Code := do
  let (body, inner) ← body scopes.enter
  return body ++ left inner.claimed

/-- Code that declares nothing, as a statement. -/
def plain (code : Scopes → Lower Code) : CodeIn := fun scopes => return (← code scopes, scopes)

/-! ### Simple statements -/

/-- Contents of cells, each computed in its place. -/
def inPlace (p : Nat) : List (Content Leaf) → Lower Code
  | [] => return skip
  | c :: cs => do
    let code ← Content.code c p
    return code ++ (← inPlace (p + 1) cs)

/-- Declares a variable, which its own contents do not see yet. -/
def declare (act : Activation) (d : Declaration) (contents : Scopes → Option (Initializer Leaf)) :
    CodeIn := fun scopes => do
  let type ← resolveType act.definitions.structs d.position d.type
  let shape : Shape := ⟨type, d.dims⟩
  let code ←
    match contents scopes with
    | none => pure (right shape.size)
    | some contents =>
      let cells ← layOutContents Leaf.position d.name d.position shape contents
      inPlace scopes.offset cells
  let (_, scopes) ← scopes.declare d.name shape d.position
  return (code, scopes)

/-- An expression whose value is dropped. -/
def discard (e : Scopes → CodeAt) (scopes : Scopes) : Lower Code :=
  return (← e scopes scopes.offset) ++ left 1

/-- Sets the returned value. The rest of the function still runs. -/
def giveBack (act : Activation) (position : Position) (value : Option (Scopes → CodeAt))
    (scopes : Scopes) : Lower Code :=
  match value, act.returns with
  | none, _ => return skip
  | some _, .void => fail position .valueFromVoid
  | some value, .int => do
    let value ← value scopes scopes.offset
    return value ++ left 1 ++ moveTo (scopes.offset - act.returnCell)

/-! ### Branches and loops -/

/-- A conditional. Two cells guard the arms, each of which is a scope. -/
def branch (condition : Scopes → CodeAt) (thenArm : CodeIn) (elseArm : Option CodeIn)
    (scopes : Scopes) : Lower Code := do
  let condition ← condition scopes scopes.offset
  let guarded := scopes.reserve 2
  let thenArm ← inScope thenArm guarded
  match elseArm with
  | none => return ifThen condition thenArm
  | some elseArm => return ifThenElse condition thenArm (← inScope elseArm guarded)

/-- A loop that tests its condition first. -/
def repeatWhile (condition body : Code) : Code :=
  condition ++ left 1 ++ loop (body ++ condition ++ left 1)

/-- A loop that tests its condition last. -/
def repeatUntil (body condition : Code) : Code :=
  clear ++ inc 1 ++ loop (body ++ condition ++ left 1)

def whileLoop (condition : Scopes → CodeAt) (body : CodeIn) (scopes : Scopes) : Lower Code := do
  let condition ← condition scopes scopes.offset
  let body ← inScope body scopes
  return repeatWhile condition body

def doLoop (body : CodeIn) (condition : Scopes → CodeAt) (scopes : Scopes) : Lower Code := do
  let body ← inScope body scopes
  let condition ← condition scopes scopes.offset
  return repeatUntil body condition

/-- A loop in a scope for its variable, whose condition is true if it is left out. -/
def forLoop (init : Option CodeIn) (condition step : Option (Scopes → CodeAt)) (body : CodeIn) :
    Scopes → Lower Code :=
  inScope fun scopes => do
    let (init, scopes) ←
      match init with
      | some init => init scopes
      | none => pure (skip, scopes)
    let condition ← (condition.getD fun _ => constant 1) scopes scopes.offset
    let body ← inScope body scopes
    let step ←
      match step with
      | some step => discard step scopes
      | none => pure skip
    return (init ++ repeatWhile condition (body ++ step), scopes)

end TapeC.Lowering
