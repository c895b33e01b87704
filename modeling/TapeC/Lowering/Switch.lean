import TapeC.Lowering.Control

/-! Code for `switch`. Labels that share a body form a group. From the first free
cell on the tape holds: one until an arm has run; the value; one if the group being
tested matches; and then what the arms use. Groups are tested from the last to the
first, and a body that goes on into the next one is repeated in every group that
reaches it. The arm for all other values comes last. -/

namespace TapeC.Lowering

open Layout Program Tape Routine Code

/-- An arm with the code for its statements. -/
structure Arm where
  case : Case Statement
  body : CodeIn
  unreachable : List CodeIn

/-- Labels that share a body. -/
structure Group where
  labels : List Cell := []
  hasDefault : Bool := false
  /-- The arms from the one that holds the body on. -/
  arms : List Arm := []

/-- The labels seen so far. -/
structure Labels where
  values : List Cell := []
  hasDefault : Bool := false

/-- Adds the label of an arm, which must be new, to those seen and to its group. -/
def addLabel (seen : Labels) (group : Group) (c : Case Statement) : Lower (Labels × Group) :=
  match c.label with
  | .default => do
    if seen.hasDefault then fail c.position .defaultRepeated
    return ({ seen with hasDefault := true }, { group with hasDefault := true })
  | .value e => do
    let some value := e.constant? | fail e.position .labelNotConstant
    if seen.values.contains value then fail e.position (.labelRepeated value.toNat)
    return ({ seen with values := value :: seen.values },
      { group with labels := group.labels ++ [value] })

/-- The first declaration that is a statement of an arm. -/
def declared? : List Statement → Option Declaration
  | [] => none
  | .declare d :: _ => some d
  | _ :: rest => declared? rest

/-- Takes arms into groups. A group ends with the first arm that has statements or a
`break`, or with the last arm. -/
def groupArms (seen : Labels) (group : Group) : List Arm → Lower (List Group)
  | [] => return []
  | arm :: rest => do
    let (seen, group) ← addLabel seen group arm.case
    if let some d := declared? arm.case.body then fail d.position (.declarationInCase d.name)
    if !arm.case.unreachable.isEmpty then warn arm.case.position .afterBreak
    if !arm.case.body.isEmpty || arm.case.hasBreak || rest.isEmpty then
      let groups ← groupArms seen {} rest
      return { group with arms := arm :: rest } :: groups
    else groupArms seen group rest

/-- The statements of arms up to the first that ends with `break`. -/
def armsCode : List Arm → CodeIn
  | [] => fun scopes => return (skip, scopes)
  | arm :: rest => fun scopes => do
    let (code, scopes) ← arm.body scopes
    if arm.case.hasBreak then return (code, scopes)
    else
      let (more, scopes) ← armsCode rest scopes
      return (code ++ more, scopes)

/-- Raises the flag under the head if the value left of it is `label`. -/
def testLabel (label : Cell) : Code :=
  right 1 ++ copyFrom 2 ++ left 1 ++ setCell 0 label true ++
    right 1 ++ clear ++ inc 1 ++ left 1 ++ loop (clear ++ right 1 ++ dec 1 ++ left 1) ++
    right 1 ++ loop (dec 1 ++ left 2 ++ inc 1 ++ right 2) ++ left 2

/-- Tests groups from the last to the first. Returns the tests and the body of the
group for all other values. -/
def testGroups (scopes : Scopes) : List Group → Lower (Code × Option Code)
  | [] => return (skip, none)
  | group :: rest => do
    let (tests, otherwise) ← testGroups scopes rest
    let body ← inScope (armsCode group.arms) scopes
    if group.hasDefault then return (tests, some body)
    else
      return (tests ++ clear ++ concat (group.labels.map testLabel) ++ runArm body 2, otherwise)

/-- Lowers dead statements only to find what is wrong with them. -/
def checkUnreachable (scopes : Scopes) : List CodeIn → Lower Unit
  | [] => return ()
  | body :: rest => do
    let _ ← inScope body scopes
    checkUnreachable scopes rest

/-- A switch over the value of an expression. -/
def switch (value : Scopes → CodeAt) (arms : List Arm) (position : Position) (scopes : Scopes) :
    Lower Code := do
  let groups ← groupArms {} {} arms
  if arms.isEmpty then warn position .emptySwitch
  let value ← value scopes (scopes.offset + 1)
  let inner := scopes.reserve 3
  let (tests, otherwise) ← testGroups inner groups
  checkUnreachable inner (arms.flatMap (·.unreachable))
  let last :=
    match otherwise with
    | some body => left 2 ++ loop (dec 1 ++ right 3 ++ body ++ left 3)
    | none => left 2 ++ clear
  return clear ++ inc 1 ++ right 1 ++ value ++ tests ++ last

end TapeC.Lowering
