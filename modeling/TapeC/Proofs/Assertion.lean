import TapeC.Compile

/-! Lowering that tests what it takes for granted about cells: that an expression is lowered
at a free cell, that a cell whose distance from the head is taken is not right of the head, and
that scopes are left as they were entered. The scopes are passed on from each step to the next
one, so that leaving a scope and giving back cells without a name are steps of their own. A test
that fails ends the lowering with a fault. -/

namespace TapeC.Layout.Scopes

/-- What the names of variables mean. -/
def visible (s : Scopes) : List Variable :=
  ((s.inner :: s.outer).flatMap Scope.vars).filterMap fun v => s.find? v.name

theorem find?_eq (s : Scopes) (name : String) :
    s.find? name = ((s.inner :: s.outer).flatMap Scope.vars).find? (·.name == name) := by
  rw [List.find?_flatMap]
  rfl

theorem mem_visible {s : Scopes} {v : Variable} : v ∈ s.visible ↔ ∃ name, s.find? name = some v := by
  rw [visible, List.mem_filterMap]
  constructor
  · rintro ⟨u, -, hu⟩
    exact ⟨u.name, hu⟩
  · rintro ⟨name, hv⟩
    have hmem := s.find?_eq name ▸ hv
    have hname : v.name = name := by simpa using List.find?_some hmem
    exact ⟨v, List.mem_of_find?_eq_some hmem, hname ▸ hv⟩

end TapeC.Layout.Scopes

namespace TapeC.Lowering

open Layout Program Tape Routine Code

/-- What lowering takes for granted. -/
inductive Assertion where
  /-- An expression is lowered at a free cell, right of the returned value and of all variables
  that have a name. -/
  | arrival
  /-- A function is expanded behind the global variables. -/
  | enter
  /-- A scope ends where it starts or to the right of that. -/
  | exit
  /-- Cells that are given back have been taken in the scope. -/
  | release
  /-- The returned value is not right of the head. -/
  | giveBack
  /-- A place at a fixed distance is not right of the head. -/
  | place
  /-- There are as many contents as cells to be filled. -/
  | laidOut
  /-- The place that a walk leads on from is not right of the cell where the index is. -/
  | walk
  /-- Nor is it right of the head behind the walk, two cells further on. -/
  | walked
deriving DecidableEq

/-- The fault of each assertion that is tested. -/
abbrev Assertions := Assertion → Option CompileFault

namespace Assertions

/-- The places that walks lead on from are tested. -/
def Walks (A : Assertions) : Prop := A .walk ≠ none ∨ A .walked ≠ none

def check (A : Assertions) (a : Assertion) (holds : Prop) [Decidable holds] : Lower Unit :=
  match A a with
  | some fault => if holds then return () else throw fault
  | none => return ()

/-- The distance from a cell to the head. -/
def distance (A : Assertions) (a : Assertion) (head cell : Nat) : Lower Nat := do
  A.check a (cell ≤ head)
  return head - cell

/-- The distance from the place where a walk leads on from to the head behind it. -/
def walkDistance (A : Assertions) (p base : Nat) : Lower Nat := do
  A.check .walk (base ≤ p)
  A.distance .walked (p + 2) base

def enterAt (A : Assertions) (scopes : Scopes) (start : Nat) : Lower Scopes := do
  A.check .enter (scopes.offset ≤ start)
  return scopes.enterAt start

def exit (A : Assertions) (scopes : Scopes) : Lower (Nat × Scopes) := do
  A.check .exit (scopes.inner.start ≤ scopes.inner.next)
  return scopes.exit

def release (A : Assertions) (scopes : Scopes) (cells : Nat) : Lower Scopes := do
  A.check .release (scopes.inner.start + cells ≤ scopes.inner.next)
  return scopes.release cells

/-- Code for an expression, which is lowered at a cell that is free. -/
def arrive (A : Assertions) (act : Activation) (scopes : Scopes) (code : CodeAt) : CodeAt := fun p => do
  A.check .arrival (scopes.offset ≤ p ∧ act.returnCell < p ∧ ∀ v ∈ scopes.visible, v.stop ≤ scopes.offset)
  code p

end Assertions

namespace Asserted

variable (A : Assertions)

/-! ### Places -/

/-- A term that is scaled is an expression of its own, and so is the factor. -/
def term (act : Activation) (scopes : Scopes) (t : Term CodeAt) : CodeAt :=
  if t.stride = 1 then t.code
  else A.arrive act scopes (onPair multiply t.code (A.arrive act scopes (constant (Cell.ofInt t.stride))))

/-- Each sum of terms is an expression of its own. -/
def sum (act : Activation) (scopes : Scopes) (first : CodeAt) : List (Term CodeAt) → CodeAt
  | [] => first
  | t :: ts => sum act scopes (A.arrive act scopes (onPair add first (term A act scopes t))) ts

def onPlace (act : Activation) (scopes : Scopes) (place : Place CodeAt) (work : Nat → Code) : CodeAt := fun p =>
  match place.terms with
  | [] => return work (← A.distance .place p place.base)
  | t :: ts => do
    let index ← sum A act scopes (term A act scopes t) ts p
    let d ← A.walkDistance p place.base
    return index ++ Code.within (place.stop - place.base) ++ walkRight ++ work d ++ left 1 ++ bringBack

def read (act : Activation) (scopes : Scopes) (name : String) (path : List (Selector (Index CodeAt)))
    (position : Position) : CodeAt := fun p => do
  let place ← place scopes name path position
  if !place.shape.isCell then fail position (.readOfMany name)
  onPlace A act scopes place copyFrom p

def assign (act : Activation) (scopes : Scopes) (name : String) (path : List (Selector (Index CodeAt)))
    (position : Position) (value : CodeAt) : CodeAt := fun p => do
  let place ← place scopes name path position
  if !place.shape.isCell then fail position (.assignmentToMany name)
  match place.terms with
  | [] =>
    let value ← value p
    return value ++ left 1 ++ copyTo (← A.distance .place p place.base) ++ right 1
  | t :: ts =>
    let index ← sum A act scopes (term A act scopes t) ts p
    let value ← value (p + 2)
    let d ← A.walkDistance p place.base
    return index ++ Code.within (place.stop - place.base) ++ clear ++ right 1 ++ value ++
      walkRightCarrying ++ copyTo d ++ bringBack

def update (act : Activation) (scopes : Scopes) (name : String) (path : List (Selector (Index CodeAt)))
    (position : Position) (op : UpdateOp) (before : Bool) : CodeAt := fun p => do
  let place ← place scopes name path position
  if !place.shape.isCell then fail position (.updateOfMany op.spelling)
  onPlace A act scopes place (if before then updateThenRead (change op) else readThenUpdate (change op)) p

def store (base p : Nat) : List (Content Leaf) → Lower Code
  | [] => return skip
  | c :: cs => do
    let code ← Content.code c p
    let d ← A.distance .place p base
    return code ++ left 1 ++ moveTo d ++ (← store (base + 1) p cs)

def fill (scopes : Scopes) (name : String) (path : List (Selector (Index CodeAt)))
    (position : Position) (contents : Initializer Leaf) : CodeAt := fun p => do
  let place ← place scopes name path position
  if !place.terms.isEmpty then fail position (.fillAtRuntimeIndex name)
  let cells ← layOutContents Leaf.position name position place.shape contents
  A.check .laidOut (cells.length = place.shape.size)
  return (← store A place.base p cells) ++ clear ++ right 1

/-! ### Expressions -/

mutual
def expr (act : Activation) (scopes : Scopes) : Expr → CodeAt
  | .number n _ => A.arrive act scopes (constant (Cell.ofInt n))
  | .char c _ => A.arrive act scopes (constant c)
  | .bool b _ => A.arrive act scopes (constant (Cell.ofBool b))
  | .access name path p => A.arrive act scopes (read A act scopes name (indices act scopes path) p)
  | .binary op a b p =>
    A.arrive act scopes (binary op b.constant? p (expr act scopes a) (expr act scopes b))
  | .unary op e _ => A.arrive act scopes (unary op (expr act scopes e))
  | .update op before target _ =>
    A.arrive act scopes <|
      match target with
      | .access name path p => update A act scopes name (indices act scopes path) p op before
      | other => notAssignable op.spelling other
  | .assign target none value _ =>
    A.arrive act scopes <|
      match target with
      | .access name path p => assign A act scopes name (indices act scopes path) p (expr act scopes value)
      | other => notAssignable "assignment" other
  | .assign target (some op) value p =>
    -- `target op value` is an expression of its own
    let combined := A.arrive act scopes
      (binary op value.constant? p (expr act scopes target) (expr act scopes value))
    A.arrive act scopes <|
      match target with
      | .access name path p => assign A act scopes name (indices act scopes path) p combined
      | other => notAssignable "assignment" other
  | .fill target contents _ =>
    A.arrive act scopes <|
      match target with
      | .access name path p => fill A scopes name (indices act scopes path) p (leaves act scopes contents)
      | other => notAssignable "assignment" other
  | .call name args p => A.arrive act scopes (call act name (exprs act scopes args) p)

def indices (act : Activation) (scopes : Scopes) : List (Selector Expr) → List (Selector (Index CodeAt))
  | [] => []
  | .field name :: rest => .field name :: indices act scopes rest
  | .index e :: rest => .index ⟨e.constant?, e.position, expr act scopes e⟩ :: indices act scopes rest

def exprs (act : Activation) (scopes : Scopes) : List Expr → List CodeAt
  | [] => []
  | e :: rest => expr act scopes e :: exprs act scopes rest

def leaves (act : Activation) (scopes : Scopes) : Initializer Expr → Initializer Leaf
  | .single e => .single ⟨e.position, expr act scopes e⟩
  | .list items p => .list (leavesOfItems act scopes items) p
  | .text s p => .text s p

def leavesOfItems (act : Activation) (scopes : Scopes) : List (Initializer Expr) → List (Initializer Leaf)
  | [] => []
  | i :: rest => leaves act scopes i :: leavesOfItems act scopes rest
end

/-! ### Branches and loops -/

def inScope (body : CodeIn) : CodeIn := fun scopes => do
  let (code, scopes) ← body scopes.enter
  let (claimed, scopes) ← A.exit scopes
  return (code ++ left claimed, scopes)

def giveBack (act : Activation) (position : Position) (value : Option (Scopes → CodeAt)) (scopes : Scopes) :
    Lower Code :=
  match value, act.returns with
  | none, _ => return skip
  | some _, .void => fail position .valueFromVoid
  | some value, .int => do
    let value ← value scopes scopes.offset
    return value ++ left 1 ++ moveTo (← A.distance .giveBack scopes.offset act.returnCell)

def branch (condition : Scopes → CodeAt) (thenArm : CodeIn) (elseArm : Option CodeIn) : CodeIn := fun scopes => do
  let condition ← condition scopes scopes.offset
  let (thenArm, scopes) ← inScope A thenArm (scopes.reserve 2)
  match elseArm with
  | none => return (ifThen condition thenArm, ← A.release scopes 2)
  | some elseArm => do
    let (elseArm, scopes) ← inScope A elseArm scopes
    return (ifThenElse condition thenArm elseArm, ← A.release scopes 2)

def whileLoop (condition : Scopes → CodeAt) (body : CodeIn) : CodeIn := fun scopes => do
  let condition ← condition scopes scopes.offset
  let (body, scopes) ← inScope A body scopes
  return (repeatWhile condition body, scopes)

def doLoop (body : CodeIn) (condition : Scopes → CodeAt) : CodeIn := fun scopes => do
  let (body, scopes) ← inScope A body scopes
  let condition ← condition scopes scopes.offset
  return (repeatUntil body condition, scopes)

def forLoop (init : Option CodeIn) (condition step : Option (Scopes → CodeAt)) (body : CodeIn) : CodeIn :=
  inScope A fun scopes => do
    let (init, scopes) ←
      match init with
      | some init => init scopes
      | none => pure (skip, scopes)
    let condition ← (condition.getD fun _ => constant 1) scopes scopes.offset
    let (body, scopes) ← inScope A body scopes
    let step ←
      match step with
      | some step => discard step scopes
      | none => pure skip
    return (init ++ repeatWhile condition (body ++ step), scopes)

/-! ### Switches -/

def testGroups : List Group → Scopes → Lower ((Code × Option Code) × Scopes)
  | [], scopes => return ((skip, none), scopes)
  | group :: rest, scopes => do
    let ((tests, otherwise), scopes) ← testGroups rest scopes
    let (body, scopes) ← inScope A (armsCode group.arms) scopes
    if group.hasDefault then return ((tests, some body), scopes)
    else
      return ((tests ++ clear ++ concat (group.labels.map testLabel) ++ runArm body 2, otherwise), scopes)

def checkUnreachable : List CodeIn → Scopes → Lower Scopes
  | [], scopes => return scopes
  | body :: rest, scopes => do
    let (_, scopes) ← inScope A body scopes
    checkUnreachable rest scopes

def switch (value : Scopes → CodeAt) (arms : List Arm) (position : Position) : CodeIn := fun scopes => do
  let groups ← groupArms {} {} arms
  if arms.isEmpty then warn position .emptySwitch
  let value ← value scopes (scopes.offset + 1)
  let ((tests, otherwise), scopes) ← testGroups A groups (scopes.reserve 3)
  let scopes ← checkUnreachable A (arms.flatMap (·.unreachable)) scopes
  let scopes ← A.release scopes 3
  let last :=
    match otherwise with
    | some body => left 2 ++ loop (dec 1 ++ right 3 ++ body ++ left 3)
    | none => left 2 ++ clear
  return (clear ++ inc 1 ++ right 1 ++ value ++ tests ++ last, scopes)

/-! ### Statements -/

mutual
def statement (act : Activation) : Statement → CodeIn
  | .declare d => noted act (.declare d) (declare act d fun scopes => d.contents.map (leaves A act scopes))
  | .expr e => noted act (.expr e) (plain (discard fun scopes => expr A act scopes e))
  | .print text p => noted act (.print text p) (plain fun _ => return writeBytes (Text.bytes text.toList))
  | .block body _ => inScope A (statements act body)
  | .ifElse c a b p =>
    noted act (.ifElse c a b p)
      (branch A (fun scopes => expr A act scopes c) (statement act a) (statement? act b))
  | .whileLoop c body p =>
    noted act (.whileLoop c body p) (whileLoop A (fun scopes => expr A act scopes c) (statement act body))
  | .doLoop body c p =>
    noted act (.doLoop body c p) (doLoop A (statement act body) fun scopes => expr A act scopes c)
  | .forLoop init c step body p =>
    noted act (.forLoop init c step body p) fun scopes => do
      checkLoopInit init
      forLoop A (statement? act init) (c.map fun e scopes => expr A act scopes e)
        (step.map fun e scopes => expr A act scopes e) (statement act body) scopes
  | .switch value cases p =>
    noted act (.switch value cases p) (switch A (fun scopes => expr A act scopes value) (arms act cases) p)
  | .returns value p =>
    noted act (.returns value p) (plain (giveBack A act p (value.map fun e scopes => expr A act scopes e)))
  | .breaks p => fun _ => throw (.unsupported p .breakOutsideCase)
  | .continues p => fun _ => throw (.unsupported p .continue)
  | .empty => plain fun _ => return skip

def statement? (act : Activation) : Option Statement → Option CodeIn
  | none => none
  | some s => some (statement act s)

def statements (act : Activation) : List Statement → CodeIn
  | [] => fun scopes => return (skip, scopes)
  | s :: rest => fun scopes => do
    checkReturn s rest
    let (code, scopes) ← statement act s scopes
    let (more, scopes) ← statements act rest scopes
    return (code ++ more, scopes)

def statementList (act : Activation) : List Statement → List CodeIn
  | [] => []
  | s :: rest => statement act s :: statementList act rest

def arms (act : Activation) : List (Case Statement) → List Arm
  | [] => []
  | ⟨label, body, hasBreak, unreachable, p⟩ :: rest =>
    ⟨⟨label, body, hasBreak, unreachable, p⟩, statements act body, statementList act unreachable⟩ ::
      arms act rest
end

/-! ### Functions and programs -/

def functionBody (act : Activation) (d : FunctionDef) : Lower Code := do
  let scopes ← A.enterAt (Scopes.ofGlobals act.definitions.globals) (act.returnCell + 1)
  let scopes ← declareParameters scopes d.params
  let (body, scopes) ← statements A act d.body scopes
  let (claimed, _) ← A.exit scopes
  return act.note ("call " ++ d.name) ++ right (1 + d.params.length) ++ body ++
    left claimed ++ left 1 ++ act.note ("end " ++ d.name)

def inlineCall (definitions : Definitions) (annotate : Bool) :
    (depth : Nat) → (active : List String) → FunctionDef → Position → CodeAt
  | 0, _, d, position, _ => fail position (.recursion d.name)
  | depth + 1, active, d, position, p =>
    if active.contains d.name then fail position (.recursion d.name)
    else
      functionBody A
        { definitions, annotate
          returns := d.returns
          returnCell := p
          inline := inlineCall definitions annotate depth (d.name :: active) }
        d

def outermost (definitions : Definitions) (annotate : Bool) (returnCell : Nat) : Activation :=
  { definitions, annotate, returnCell
    returns := .void
    inline := inlineCall A definitions annotate definitions.functions.length [] }

def callMain (definitions : Definitions) (annotate : Bool) : Lower Code :=
  match definitions.functions.find? (·.name == "main") with
  | none => fail .start .noMain
  | some main =>
    if main.params.isEmpty then
      let start := definitions.globalsSize
      call (outermost A definitions annotate start) "main" [] main.position start
    else fail main.position .mainWithParameters

def lower (annotate : Bool) (p : Program) : Except CompileFault (Code × Nat × List Warning) := do
  let definitions ← Definitions.ofProgram p
  let (body, warnings) ← (callMain A definitions annotate).run []
  return (definitions.globalCode ++ body, definitions.globalsSize, warnings.reverse.eraseDups)

/-- Compiling a program with assertions. -/
def compile (options : Options) (p : Program) : Except CompileFault Compiled := do
  let p := if options.optimize then p.optimize 2 else p
  let (code, globalsSize, warnings) ← lower A options.annotate p
  return { code, globalsSize, warnings, minified := options.minify }

end Asserted
end TapeC.Lowering
