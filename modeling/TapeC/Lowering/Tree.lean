import TapeC.Lowering.Switch

/-! The code of expressions and statements, by recursion on their trees. -/

namespace TapeC.Lowering

open Layout Program Tape Routine Code

/-! ### Expressions -/

/-- The path of an expression that names a place, which `operation` needs. -/
def notAssignable (operation : String) (e : Expr) : CodeAt :=
  fun _ => fail e.position (.notAssignable operation)

mutual
/-- The code of an expression among the given scopes. -/
def expr (act : Activation) (scopes : Scopes) : Expr → CodeAt
  | .number n _ => constant (Cell.ofInt n)
  | .char c _ => constant c
  | .bool b _ => constant (Cell.ofBool b)
  | .access name path p => read scopes name (indices act scopes path) p
  | .binary op a b p => binary op b.constant? p (expr act scopes a) (expr act scopes b)
  | .unary op e _ => unary op (expr act scopes e)
  | .update op before target _ =>
    match target with
    | .access name path p => update scopes name (indices act scopes path) p op before
    | other => notAssignable op.spelling other
  | .assign target none value _ =>
    match target with
    | .access name path p =>
      assign scopes name (indices act scopes path) p (expr act scopes value)
    | other => notAssignable "assignment" other
  | .assign target (some op) value p =>
    let combined := binary op value.constant? p (expr act scopes target) (expr act scopes value)
    match target with
    | .access name path p => assign scopes name (indices act scopes path) p combined
    | other => notAssignable "assignment" other
  | .fill target contents _ =>
    match target with
    | .access name path p =>
      fill scopes name (indices act scopes path) p (leaves act scopes contents)
    | other => notAssignable "assignment" other
  | .call name args p => call act name (exprs act scopes args) p

/-- A path with the code of its indices. -/
def indices (act : Activation) (scopes : Scopes) :
    List (Selector Expr) → List (Selector (Index CodeAt))
  | [] => []
  | .field name :: rest => .field name :: indices act scopes rest
  | .index e :: rest =>
    .index ⟨e.constant?, e.position, expr act scopes e⟩ :: indices act scopes rest

def exprs (act : Activation) (scopes : Scopes) : List Expr → List CodeAt
  | [] => []
  | e :: rest => expr act scopes e :: exprs act scopes rest

/-- An initializer with the code of its expressions. -/
def leaves (act : Activation) (scopes : Scopes) : Initializer Expr → Initializer Leaf
  | .single e => .single ⟨e.position, expr act scopes e⟩
  | .list items p => .list (leavesOfItems act scopes items) p
  | .text s p => .text s p

def leavesOfItems (act : Activation) (scopes : Scopes) :
    List (Initializer Expr) → List (Initializer Leaf)
  | [] => []
  | i :: rest => leaves act scopes i :: leavesOfItems act scopes rest
end

/-! ### Statements -/

/-- The comment in front of the code of a statement. -/
def noteText? : Statement → Option String
  | .declare d => some s!"{d.position.line}: declare {d.name}"
  | .expr e => some s!"{e.position.line}: expression"
  | .print _ p => some s!"{p.line}: print"
  | .ifElse _ _ _ p => some s!"{p.line}: if"
  | .whileLoop _ _ p => some s!"{p.line}: while"
  | .doLoop _ _ p => some s!"{p.line}: do while"
  | .forLoop _ _ _ _ p => some s!"{p.line}: for"
  | .switch _ _ p => some s!"{p.line}: switch"
  | .returns _ p => some s!"{p.line}: return"
  | .block _ _ | .breaks _ | .continues _ | .empty => none

/-- Code behind the comment of its statement. -/
def noted (act : Activation) (s : Statement) (body : CodeIn) : CodeIn := fun scopes => do
  let (code, scopes) ← body scopes
  return (((noteText? s).map act.note).getD skip ++ code, scopes)

/-- The warning that a loop variable has no value. -/
def checkLoopInit : Option Statement → Lower Unit
  | some (.declare ⟨_, name, _, none, p⟩) => warn p (.loopVariable name)
  | _ => return ()

/-- The warning that a return is not the last statement. -/
def checkReturn (s : Statement) (rest : List Statement) : Lower Unit :=
  match s with
  | .returns _ p => if rest.any (!·.isEmpty) then warn p .afterReturn else return ()
  | _ => return ()

mutual
/-- The code of a statement. -/
def statement (act : Activation) : Statement → CodeIn
  | .declare d =>
    noted act (.declare d) (declare act d fun scopes => d.contents.map (leaves act scopes))
  | .expr e => noted act (.expr e) (plain (discard fun scopes => expr act scopes e))
  | .print text p =>
    noted act (.print text p) (plain fun _ => return writeBytes (Text.bytes text.toList))
  | .block body _ => plain (inScope (statements act body))
  | .ifElse c a b p =>
    noted act (.ifElse c a b p)
      (plain (branch (fun scopes => expr act scopes c) (statement act a) (statement? act b)))
  | .whileLoop c body p =>
    noted act (.whileLoop c body p)
      (plain (whileLoop (fun scopes => expr act scopes c) (statement act body)))
  | .doLoop body c p =>
    noted act (.doLoop body c p)
      (plain (doLoop (statement act body) fun scopes => expr act scopes c))
  | .forLoop init c step body p =>
    noted act (.forLoop init c step body p)
      (plain fun scopes => do
        checkLoopInit init
        forLoop (statement? act init) (c.map fun e scopes => expr act scopes e)
          (step.map fun e scopes => expr act scopes e) (statement act body) scopes)
  | .switch value cases p =>
    noted act (.switch value cases p)
      (plain (switch (fun scopes => expr act scopes value) (arms act cases) p))
  | .returns value p =>
    noted act (.returns value p)
      (plain (giveBack act p (value.map fun e scopes => expr act scopes e)))
  | .breaks p => fun _ => throw (.unsupported p .breakOutsideCase)
  | .continues p => fun _ => throw (.unsupported p .continue)
  | .empty => plain fun _ => return skip

def statement? (act : Activation) : Option Statement → Option CodeIn
  | none => none
  | some s => some (statement act s)

/-- The code of statements, one after another. -/
def statements (act : Activation) : List Statement → CodeIn
  | [] => fun scopes => return (skip, scopes)
  | s :: rest => fun scopes => do
    checkReturn s rest
    let (code, scopes) ← statement act s scopes
    let (more, scopes) ← statements act rest scopes
    return (code ++ more, scopes)

def statementList (act : Activation) : List Statement → List CodeIn
  | [] => []
  | s :: rest => statement act s :: statementList act rest

/-- The arms of a switch with the code of their statements. -/
def arms (act : Activation) : List (Case Statement) → List Arm
  | [] => []
  | ⟨label, body, hasBreak, unreachable, p⟩ :: rest =>
    ⟨⟨label, body, hasBreak, unreachable, p⟩, statements act body, statementList act unreachable⟩ ::
      arms act rest
end

end TapeC.Lowering
