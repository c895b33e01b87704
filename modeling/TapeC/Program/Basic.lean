import TapeC.Cell
import TapeC.Position
import TapeC.Program.Operator

/-! Syntax trees of the source language. A program consists of struct definitions,
global variables and functions; every value is one cell, and variables are cells,
structs or arrays of either. A node carries the position of its first token. -/

namespace TapeC.Program

/-- A selector in the access path of a variable. -/
inductive Selector (ε : Type) where
  | index (e : ε)
  | field (name : String)

/-- What a variable or an array is filled with. -/
inductive Initializer (ε : Type) where
  | single (e : ε)
  /-- A list in braces; a nested list fills one row. -/
  | list (items : List (Initializer ε)) (position : Position)
  /-- A string, one byte to a cell. -/
  | text (text : String) (position : Position)

inductive Expr where
  | number (value : Int) (position : Position)
  | char (code : Cell) (position : Position)
  | bool (value : Bool) (position : Position)
  /-- A variable, an element of an array or a field. -/
  | access (name : String) (path : List (Selector Expr)) (position : Position)
  | binary (op : BinaryOp) (left right : Expr) (position : Position)
  | unary (op : UnaryOp) (operand : Expr) (position : Position)
  /-- An update; `before` tells that the operator is written in front of `target`,
  so that the value is taken after the change. -/
  | update (op : UpdateOp) (before : Bool) (target : Expr) (position : Position)
  /-- An assignment, of `target op value` if there is an operator. -/
  | assign (target : Expr) (op : Option BinaryOp) (value : Expr) (position : Position)
  /-- An assignment to all cells of `target`. -/
  | fill (target : Expr) (contents : Initializer Expr) (position : Position)
  | call (name : String) (args : List Expr) (position : Position)

def Expr.position : Expr → Position
  | number _ p | char _ p | bool _ p | access _ _ p | binary _ _ _ p | unary _ _ p | update _ _ _ p
  | assign _ _ _ p | fill _ _ p | call _ _ p => p

/-- The value of a literal. -/
def Expr.literal? : Expr → Option Int
  | number n _ => some n
  | char c _ => some c.toNat
  | bool b _ => some b.toNat
  | _ => none

/-- The type of the elements of a variable, as it is written. -/
inductive TypeName where
  | int
  | struct (name : String)
deriving DecidableEq, Repr

structure FieldDef where
  type : TypeName
  name : String
  dims : List Nat
  position : Position

structure StructDef where
  name : String
  fields : List FieldDef
  position : Position

/-- The declaration of a variable, which is an array if it has dimensions. -/
structure Declaration where
  type : TypeName
  name : String
  dims : List Nat
  contents : Option (Initializer Expr)
  position : Position

inductive CaseLabel where
  | value (e : Expr)
  | default

/-- One arm of a switch. -/
structure Case (σ : Type) where
  label : CaseLabel
  /-- The statements before the `break` of the arm, if it has one. -/
  body : List σ
  /-- Whether the arm ends with `break` and does not go on with the next one. -/
  hasBreak : Bool
  /-- The statements after the `break`. -/
  unreachable : List σ
  position : Position

inductive Statement where
  | declare (decl : Declaration)
  | expr (e : Expr)
  | print (text : String) (position : Position)
  | block (body : List Statement) (position : Position)
  | ifElse (condition : Expr) (thenBranch : Statement) (elseBranch : Option Statement)
      (position : Position)
  | whileLoop (condition : Expr) (body : Statement) (position : Position)
  | doLoop (body : Statement) (condition : Expr) (position : Position)
  | forLoop (init : Option Statement) (condition step : Option Expr) (body : Statement)
      (position : Position)
  | switch (value : Expr) (cases : List (Case Statement)) (position : Position)
  | returns (value : Option Expr) (position : Position)
  | breaks (position : Position)
  | continues (position : Position)
  | empty

def Statement.isEmpty : Statement → Bool
  | empty => true
  | _ => false

/-- Whether calling a function yields a value. -/
inductive ReturnKind where
  | void
  | int
deriving DecidableEq, Repr

structure Parameter where
  name : String
  position : Position

structure FunctionDef where
  returns : ReturnKind
  name : String
  params : List Parameter
  body : List Statement
  position : Position

end Program

/-- A whole program. -/
structure Program where
  structs : List Program.StructDef := []
  globals : List Program.Declaration := []
  functions : List Program.FunctionDef := []

end TapeC
