import TapeC.Layout.Definitions
import TapeC.Proofs.Builtin
import TapeC.Proofs.Place

/-! What a program of the source language means. Variables are named objects whose cells
hold a byte each, or nothing until one is stored; expressions are evaluated from left to
right. An evaluation goes wrong where the tape may be read or written out of place: if
a cell is read that nothing was stored in, and if an index that is not constant is
outside its array. -/

namespace TapeC.Evaluation

open Layout Program Routine

inductive Wrong where
  /-- A cell is read in which nothing was stored. -/
  | unset
  /-- An index is not inside its array. -/
  | outOfRange
deriving DecidableEq

/-- A variable and what its cells hold. -/
structure Object where
  name : String
  shape : Shape
  cells : List (Option Cell)

/-- The state of an evaluation. Of the variables the latest come first. -/
structure Store where
  locals : List Object
  globals : List Object
  /-- What the function yields that is being evaluated. -/
  returned : Cell
  input : List Cell
  output : List Cell

abbrev Eval := StateT Store (Comp Wrong)

def wrong {α : Type} (w : Wrong) : Eval α := fun _ => .wrong w

/-- A division by zero has no end, nor has a call that waits for a line feed which never
comes. What no program that is accepted does has none either. -/
def never {α : Type} : Eval α := fun _ => .never

/-! ### Objects -/

def Object.set (i : Nat) (v : Cell) (o : Object) : Object := { o with cells := o.cells.set i (some v) }

/-- Changes the first object of a name. -/
def change (name : String) (f : Object → Object) : List Object → List Object
  | [] => []
  | o :: os => if o.name == name then f o :: os else o :: change name f os

namespace Store

def find? (σ : Store) (name : String) : Option Object :=
  (σ.locals ++ σ.globals).find? (·.name == name)

/-- Changes the innermost object of a name. -/
def change (name : String) (f : Object → Object) (σ : Store) : Store :=
  if σ.locals.any (·.name == name) then
    { σ with locals := Evaluation.change name f σ.locals }
  else { σ with globals := Evaluation.change name f σ.globals }

def declare (o : Object) (σ : Store) : Store := { σ with locals := o :: σ.locals }

/-- Forgets all local objects but the first `n`. -/
def leave (n : Nat) (σ : Store) : Store := { σ with locals := σ.locals.drop (σ.locals.length - n) }

end Store

/-- A cell of the object of a name. -/
structure Target where
  name : String
  offset : Nat

def load (t : Target) : Eval Cell := do
  match ((← get).find? t.name).bind (·.cells[t.offset]?) with
  | some (some v) => return v
  | some none => wrong .unset
  | none => wrong .outOfRange

def store (t : Target) (v : Cell) : Eval Unit := modify (·.change t.name (·.set t.offset v))

/-! ### Places -/

/-- A path with its indices evaluated, from left to right. -/
def evaluated : List (Selector (Index (Eval Cell))) → Eval (List (Selector (Index Cell)))
  | [] => return []
  | .field name :: rest => return .field name :: (← evaluated rest)
  | .index i :: rest => do
    let v ← i.code
    return .index ⟨some v, i.position, v⟩ :: (← evaluated rest)

/-- The place of a path with values, which is that of the same path with constants.
From the place where the indices that are not constant are zero, the `origin`, it is a
distance away that is computed as all values are, modulo the values of a cell. -/
def select (name : String) (position : Position) (origin path : List (Selector (Index Cell))) :
    Eval (Target × Shape) := do
  match (← get).find? name with
  | none => never
  | some o =>
    match Place.ofPath ⟨name, o.shape, 0⟩ position origin, Place.ofPath ⟨name, o.shape, 0⟩ position path with
    | .ok start, .ok place =>
      return (⟨name, start.base + (place.base - start.base) % Cell.modulus⟩, place.shape)
    | _, _ => wrong .outOfRange

/-- The place that a path selects. -/
def place (name : String) (path : List (Selector (Index (Eval Cell)))) (position : Position) :
    Eval (Target × Shape) := do
  select name position (filled path []) (← evaluated path)

/-- The cell that a path selects. -/
def cellPlace (name : String) (path : List (Selector (Index (Eval Cell)))) (position : Position) :
    Eval Target := do
  let (target, shape) ← place name path position
  if shape.isCell then return target else never

/-! ### Operations -/

/-- An operation, which has no end if it divides by zero. -/
def operate (op : BinaryOp) (a b : Cell) : Eval Cell :=
  match op.eval? a b with
  | some v => return v
  | none => never

/-- An operator between operands. The second one is not evaluated if the first one
decides the value. -/
def binary (op : BinaryOp) (a b : Eval Cell) : Eval Cell :=
  match op with
  | .and => do if (← a) = 0 then return 0 else return Cell.ofBool ((← b) != 0)
  | .or => do if (← a) = 0 then return Cell.ofBool ((← b) != 0) else return 1
  | op => do operate op (← a) (← b)

def updated : UpdateOp → Cell → Cell
  | .increment, v => v + 1
  | .decrement, v => v - 1
  | .timesOne, v => v * 1
  | .overOne, v => v / 1
  | .moduloOne, v => v % 1

/-- Changes a place; the value is the new one or the old one. -/
def update (name : String) (path : List (Selector (Index (Eval Cell)))) (position : Position)
    (op : UpdateOp) (before : Bool) : Eval Cell := do
  let target ← cellPlace name path position
  let old ← load target
  store target (updated op old)
  return if before then updated op old else old

def assign (name : String) (path : List (Selector (Index (Eval Cell)))) (position : Position)
    (value : Eval Cell) : Eval Cell := do
  let target ← cellPlace name path position
  let v ← value
  store target v
  return v

def content : Content (Eval Cell) → Eval Cell
  | .byte value => return value
  | .value e => e

/-- Stores contents one after another, from a place on. -/
def storeAll (name : String) : Nat → List (Content (Eval Cell)) → Eval Unit
  | _, [] => return
  | offset, c :: cs => do
    store ⟨name, offset⟩ (← content c)
    storeAll name (offset + 1) cs

/-- The contents of cells of a shape. -/
def laidOut (name : String) (position : Position) (shape : Shape) (contents : Initializer (Eval Cell)) :
    Eval (List (Content (Eval Cell))) :=
  match layOutContents (fun _ => position) name position shape contents with
  | .ok cells => return cells
  | .error _ => never

def fill (name : String) (path : List (Selector (Index (Eval Cell)))) (position : Position)
    (contents : Initializer (Eval Cell)) : Eval Cell := do
  let (target, shape) ← place name path position
  storeAll name target.offset (← laidOut name position shape contents)
  return 0

/-- What the functions of the program are and what a call of one yields. -/
structure Context where
  definitions : Definitions
  invoke : FunctionDef → List Cell → Eval Cell

def callBuiltin (b : Builtin) (argument : Cell) : Eval Cell := do
  let σ ← get
  match b.effect? argument σ.input with
  | some (v, input, written) =>
    set { σ with input, output := σ.output ++ written }
    return v
  | none => never

def arguments : List (Eval Cell) → Eval (List Cell)
  | [] => return []
  | a :: as => do return (← a) :: (← arguments as)

def call (ctx : Context) (name : String) (args : List (Eval Cell)) : Eval Cell := do
  let args ← arguments args
  match ctx.definitions.callable? name with
  | none => never
  | some (.builtin b) => callBuiltin b (args.headD 0)
  | some (.defined d) => ctx.invoke d args

/-! ### Expressions -/

mutual
/-- The value of an expression. -/
def expr (ctx : Context) : Expr → Eval Cell
  | .number n _ => return Cell.ofInt n
  | .char c _ => return c
  | .bool b _ => return Cell.ofBool b
  | .access name path p => do load (← cellPlace name (indices ctx path) p)
  | .binary op a b _ => binary op (expr ctx a) (expr ctx b)
  | .unary op e _ => op.eval <$> expr ctx e
  | .update op before target _ =>
    match target with
    | .access name path p => update name (indices ctx path) p op before
    | _ => never
  | .assign target none value _ =>
    match target with
    | .access name path p => assign name (indices ctx path) p (expr ctx value)
    | _ => never
  | .assign target (some op) value _ =>
    let combined := binary op (expr ctx target) (expr ctx value)
    match target with
    | .access name path p => assign name (indices ctx path) p combined
    | _ => never
  | .fill target contents _ =>
    match target with
    | .access name path p => fill name (indices ctx path) p (leaves ctx contents)
    | _ => never
  | .call name args _ => call ctx name (exprs ctx args)

def indices (ctx : Context) : List (Selector Expr) → List (Selector (Index (Eval Cell)))
  | [] => []
  | .field name :: rest => .field name :: indices ctx rest
  | .index e :: rest => .index ⟨e.constant?, e.position, expr ctx e⟩ :: indices ctx rest

def exprs (ctx : Context) : List Expr → List (Eval Cell)
  | [] => []
  | e :: rest => expr ctx e :: exprs ctx rest

def leaves (ctx : Context) : Initializer Expr → Initializer (Eval Cell)
  | .single e => .single (expr ctx e)
  | .list items p => .list (leavesOfItems ctx items) p
  | .text s p => .text s p

def leavesOfItems (ctx : Context) : List (Initializer Expr) → List (Initializer (Eval Cell))
  | [] => []
  | i :: rest => leaves ctx i :: leavesOfItems ctx rest
end

/-! ### Parts of statements -/

/-- Forgets what is declared inside. -/
def inScope (x : Eval Unit) : Eval Unit := do
  let outside ← get
  x
  modify (·.leave outside.locals.length)

/-- Declares a variable, which its own contents do not see yet. -/
def declare (ctx : Context) (d : Declaration) (contents : Option (Initializer (Eval Cell))) :
    Eval Unit :=
  match resolveType ctx.definitions.structs d.position d.type with
  | .error _ => never
  | .ok type => do
    let shape : Shape := ⟨type, d.dims⟩
    let cells ←
      match contents with
      | none => pure (List.replicate shape.size none)
      | some contents =>
        let cells ← laidOut d.name d.position shape contents
        (·.map some) <$> arguments (cells.map content)
    modify (·.declare ⟨d.name, shape, cells⟩)

/-- Repeats `round` for as long as it yields true, given what the last one yielded. -/
def repeatFrom (v : Cell) (round : Eval Cell) : Eval Unit := fun σ =>
  (fun r => ((), r.2)) <$> Comp.loop (fun r : Cell × Store => r.1 != 0) (fun r => round.run r.2) (v, σ)

def repeatWhile (condition : Eval Cell) (body : Eval Unit) : Eval Unit := do
  let v ← condition
  repeatFrom v (do body; condition)

def repeatUntil (body : Eval Unit) (condition : Eval Cell) : Eval Unit :=
  repeatFrom 1 (do body; condition)

/-- An arm of a switch; `none` is the label of the arm for all other values. -/
structure Arm where
  label : Option Cell
  body : Eval Unit
  hasBreak : Bool

/-- Runs arms up to the first that ends with `break`. -/
def runArms : List Arm → Eval Unit
  | [] => return
  | arm :: rest => do
    arm.body
    if arm.hasBreak then return else runArms rest

/-- The arms from the first on that has a label. -/
def armsFrom (label : Option Cell) (arms : List Arm) : List Arm := arms.dropWhile (·.label != label)

def switch (value : Eval Cell) (arms : List Arm) : Eval Unit := do
  let v ← value
  let selected := if arms.any (·.label == some v) then armsFrom (some v) arms else armsFrom none arms
  inScope (runArms selected)

/-! ### Statements -/

mutual
def statement (ctx : Context) : Statement → Eval Unit
  | .declare d => declare ctx d (d.contents.map (leaves ctx))
  | .expr e => do let _ ← expr ctx e
  | .print text _ => modify fun σ => { σ with output := σ.output ++ Text.bytes text.toList }
  | .block body _ => inScope (statements ctx body)
  | .ifElse c a b _ => do
    if (← expr ctx c) ≠ 0 then inScope (statement ctx a) else inScope (statement? ctx b)
  | .whileLoop c body _ => repeatWhile (expr ctx c) (inScope (statement ctx body))
  | .doLoop body c _ => repeatUntil (inScope (statement ctx body)) (expr ctx c)
  | .forLoop init c step body _ =>
    inScope do
      statement? ctx init
      repeatWhile ((c.map (expr ctx)).getD (return 1)) do
        inScope (statement ctx body)
        let _ ← (step.map (expr ctx)).getD (return 0)
  | .switch value cases _ => switch (expr ctx value) (arms ctx cases)
  | .returns (some e) _ => do
    let v ← expr ctx e
    modify ({ · with returned := v })
  | .returns none _ => return
  | .breaks _ | .continues _ => never
  | .empty => return

def statement? (ctx : Context) : Option Statement → Eval Unit
  | none => return
  | some s => statement ctx s

def statements (ctx : Context) : List Statement → Eval Unit
  | [] => return
  | s :: rest => do
    statement ctx s
    statements ctx rest

def arms (ctx : Context) : List (Case Statement) → List Arm
  | [] => []
  | ⟨.value e, body, hasBreak, _, _⟩ :: rest =>
    ⟨e.constant?, statements ctx body, hasBreak⟩ :: arms ctx rest
  | ⟨.default, body, hasBreak, _, _⟩ :: rest => ⟨none, statements ctx body, hasBreak⟩ :: arms ctx rest
end

/-! ### Functions and programs -/

/-- The objects of parameters, the last one first. -/
def parameters (params : List Parameter) (args : List Cell) : List Object :=
  ((params.zip args).map fun (p, v) => ⟨p.name, .cell, [some v]⟩).reverse

/-- What a call of a function yields if at most `depth` calls are inside each other. A
function sees its parameters and the global variables. -/
def invoke (definitions : Definitions) : (depth : Nat) → FunctionDef → List Cell → Eval Cell
  | 0, _, _ => never
  | depth + 1, d, args => do
    let outside ← get
    set { outside with locals := parameters d.params args, returned := 0 }
    statements ⟨definitions, invoke definitions depth⟩ d.body
    let inside ← get
    set { inside with locals := outside.locals, returned := outside.returned }
    return inside.returned

/-- A global variable with its first contents, which are zero if there are none. -/
def globalObject (structs : List StructLayout) (d : Declaration) : Except CompileFault Object := do
  let shape : Shape := ⟨← resolveType structs d.position d.type, d.dims⟩
  match d.contents with
  | none => return ⟨d.name, shape, List.replicate shape.size (some 0)⟩
  | some contents =>
    let cells ← layOutContents Expr.position d.name d.position shape contents
    return ⟨d.name, shape, (← cells.mapM (Definitions.globalCell d.name)).map some⟩

/-- The state in which `main` is called. -/
def start (definitions : Definitions) (globals : List Declaration) (input : List Cell) :
    Except CompileFault Store := do
  let globals ← globals.mapM (globalObject definitions.structs)
  return { locals := [], globals := globals.reverse, returned := 0, input, output := [] }

end Evaluation

open Evaluation in
/-- What a program writes, given what it can read, if at most `depth` calls are inside
each other. -/
def Program.evaluate (depth : Nat) (p : Program) (input : List Cell) : Comp Wrong (List Cell) :=
  match (do
    let definitions ← Layout.Definitions.ofProgram p
    return (definitions, ← start definitions p.globals input)) with
  | .error _ => .never
  | .ok (definitions, σ) =>
    match definitions.functions.find? (·.name == "main") with
    | none => .never
    | some main => (·.2.output) <$> (invoke definitions depth main []).run σ

end TapeC
