import TapeC.Program.Constant

/-! Constant folding. Every operator node with a constant value is replaced by that
value, in global initializers and in function bodies. A second pass turns a
statement that prints a constant number into one that prints its digits. -/

namespace TapeC.Program

/-! ### Expressions -/

/-- The expression itself, or the number it is always equal to. -/
def Expr.orConstant (e : Expr) : Expr :=
  match e.constant? with
  | some value => .number value.toNat e.position
  | none => e

mutual
/-- Replaces operator nodes by their constant values. -/
def Expr.fold : Expr → Expr
  | .number n p => .number n p
  | .char c p => .char c p
  | .bool b p => .bool b p
  | .access name path p => .access name (foldPath path) p
  | .binary op a b p => (Expr.binary op a.fold b.fold p).orConstant
  | .unary op e p => (Expr.unary op e.fold p).orConstant
  | .update op before target p => .update op before target.fold p
  | .assign target op value p => .assign target.fold op value.fold p
  | .fill target contents p => .fill target.fold (foldContents contents) p
  | .call name args p => .call name (foldArgs args) p

def foldPath : List (Selector Expr) → List (Selector Expr)
  | [] => []
  | .index e :: rest => .index e.fold :: foldPath rest
  | .field name :: rest => .field name :: foldPath rest

def foldArgs : List Expr → List Expr
  | [] => []
  | e :: rest => e.fold :: foldArgs rest

def foldContents : Initializer Expr → Initializer Expr
  | .single e => .single e.fold
  | .list items p => .list (foldItems items) p
  | .text s p => .text s p

def foldItems : List (Initializer Expr) → List (Initializer Expr)
  | [] => []
  | i :: rest => foldContents i :: foldItems rest
end

mutual
/-- All nodes of an expression, itself included. -/
def Expr.nodes : Expr → List Expr
  | .number n p => [.number n p]
  | .char c p => [.char c p]
  | .bool b p => [.bool b p]
  | .access name path p => .access name path p :: pathNodes path
  | .binary op a b p => .binary op a b p :: (a.nodes ++ b.nodes)
  | .unary op e p => .unary op e p :: e.nodes
  | .update op before target p => .update op before target p :: target.nodes
  | .assign target op value p => .assign target op value p :: (target.nodes ++ value.nodes)
  | .fill target contents p => .fill target contents p :: (target.nodes ++ contentsNodes contents)
  | .call name args p => .call name args p :: argsNodes args

def pathNodes : List (Selector Expr) → List Expr
  | [] => []
  | .index e :: rest => e.nodes ++ pathNodes rest
  | .field _ :: rest => pathNodes rest

def argsNodes : List Expr → List Expr
  | [] => []
  | e :: rest => e.nodes ++ argsNodes rest

def contentsNodes : Initializer Expr → List Expr
  | .single e => e.nodes
  | .list items _ => itemsNodes items
  | .text _ _ => []

def itemsNodes : List (Initializer Expr) → List Expr
  | [] => []
  | i :: rest => contentsNodes i ++ itemsNodes rest
end

/-- Whether a node is an operation with a constant value. -/
def Expr.isFoldable : Expr → Bool
  | .binary op a b p => (Expr.binary op a b p).constant?.isSome
  | .unary op e p => (Expr.unary op e p).constant?.isSome
  | _ => false

/-! ### Statements -/

mutual
def Initializer.map {ε δ : Type} (f : ε → δ) : Initializer ε → Initializer δ
  | .single e => .single (f e)
  | .list items p => .list (mapItems f items) p
  | .text s p => .text s p

def mapItems {ε δ : Type} (f : ε → δ) : List (Initializer ε) → List (Initializer δ)
  | [] => []
  | i :: rest => i.map f :: mapItems f rest
end

mutual
/-- The expressions of an initializer, in order. -/
def Initializer.leaves {ε : Type} : Initializer ε → List ε
  | .single e => [e]
  | .list items _ => leavesOfItems items
  | .text _ _ => []

def leavesOfItems {ε : Type} : List (Initializer ε) → List ε
  | [] => []
  | i :: rest => i.leaves ++ leavesOfItems rest
end

def Declaration.mapExprs (f : Expr → Expr) (d : Declaration) : Declaration :=
  { d with contents := d.contents.map (·.map f) }

def Declaration.exprs (d : Declaration) : List Expr := (d.contents.map (·.leaves)).getD []

def CaseLabel.mapExprs (f : Expr → Expr) : CaseLabel → CaseLabel
  | .value e => .value (f e)
  | .default => .default

def CaseLabel.exprs : CaseLabel → List Expr
  | .value e => [e]
  | .default => []

mutual
/-- Applies a function to each outermost expression of a statement. -/
def Statement.mapExprs (f : Expr → Expr) : Statement → Statement
  | .declare d => .declare (d.mapExprs f)
  | .expr e => .expr (f e)
  | .print text p => .print text p
  | .block body p => .block (mapBody f body) p
  | .ifElse c a b p => .ifElse (f c) (a.mapExprs f) (mapBranch f b) p
  | .whileLoop c body p => .whileLoop (f c) (body.mapExprs f) p
  | .doLoop body c p => .doLoop (body.mapExprs f) (f c) p
  | .forLoop init c step body p =>
    .forLoop (mapBranch f init) (c.map f) (step.map f) (body.mapExprs f) p
  | .switch value cases p => .switch (f value) (mapCases f cases) p
  | .returns value p => .returns (value.map f) p
  | .breaks p => .breaks p
  | .continues p => .continues p
  | .empty => .empty

def mapBranch (f : Expr → Expr) : Option Statement → Option Statement
  | none => none
  | some s => some (s.mapExprs f)

def mapBody (f : Expr → Expr) : List Statement → List Statement
  | [] => []
  | s :: rest => s.mapExprs f :: mapBody f rest

def mapCases (f : Expr → Expr) : List (Case Statement) → List (Case Statement)
  | [] => []
  | ⟨label, body, hasBreak, unreachable, p⟩ :: rest =>
    ⟨label.mapExprs f, mapBody f body, hasBreak, mapBody f unreachable, p⟩ :: mapCases f rest
end

mutual
/-- The outermost expressions of a statement. -/
def Statement.exprs : Statement → List Expr
  | .declare d => d.exprs
  | .expr e => [e]
  | .print _ _ => []
  | .block body _ => bodyExprs body
  | .ifElse c a b _ => c :: (a.exprs ++ branchExprs b)
  | .whileLoop c body _ => c :: body.exprs
  | .doLoop body c _ => body.exprs ++ [c]
  | .forLoop init c step body _ => branchExprs init ++ c.toList ++ step.toList ++ body.exprs
  | .switch value cases _ => value :: casesExprs cases
  | .returns value _ => value.toList
  | .breaks _ => []
  | .continues _ => []
  | .empty => []

def branchExprs : Option Statement → List Expr
  | none => []
  | some s => s.exprs

def bodyExprs : List Statement → List Expr
  | [] => []
  | s :: rest => s.exprs ++ bodyExprs rest

def casesExprs : List (Case Statement) → List Expr
  | [] => []
  | ⟨label, body, _, unreachable, _⟩ :: rest =>
    label.exprs ++ bodyExprs body ++ bodyExprs unreachable ++ casesExprs rest
end

/-! ### Printing constants -/

/-- A statement that prints the digits of a constant number, if `e` prints one. -/
def Expr.printed? : Expr → Option Statement
  | .call "printint" [arg] p => arg.constant?.map fun value => .print (toString value.toNat) p
  | _ => none

mutual
/-- Prints constant numbers as text. The parts that run as statements of their own
change; the header of a `for` and dead statements are not. -/
def Statement.printConstants : Statement → Statement
  | .expr e => (e.printed?).getD (.expr e)
  | .block body p => .block (printConstantsIn body) p
  | .ifElse c a b p => .ifElse c a.printConstants (printConstantsBranch b) p
  | .whileLoop c body p => .whileLoop c body.printConstants p
  | .doLoop body c p => .doLoop body.printConstants c p
  | .forLoop init c step body p => .forLoop init c step body.printConstants p
  | .switch value cases p => .switch value (printConstantsCases cases) p
  | .declare d => .declare d
  | .print text p => .print text p
  | .returns value p => .returns value p
  | .breaks p => .breaks p
  | .continues p => .continues p
  | .empty => .empty

def printConstantsBranch : Option Statement → Option Statement
  | none => none
  | some s => some s.printConstants

def printConstantsIn : List Statement → List Statement
  | [] => []
  | s :: rest => s.printConstants :: printConstantsIn rest

def printConstantsCases : List (Case Statement) → List (Case Statement)
  | [] => []
  | ⟨label, body, hasBreak, unreachable, p⟩ :: rest =>
    ⟨label, printConstantsIn body, hasBreak, unreachable, p⟩ :: printConstantsCases rest
end

/-! ### Programs -/

/-- The outermost expressions of a program. -/
def exprs (p : Program) : List Expr :=
  p.globals.flatMap (·.exprs) ++ p.functions.flatMap (bodyExprs ·.body)

def mapExprs (f : Expr → Expr) (p : Program) : Program :=
  { p with
    globals := p.globals.map (·.mapExprs f)
    functions := p.functions.map fun d => { d with body := mapBody f d.body } }

def fold (p : Program) : Program := p.mapExprs Expr.fold

/-- The number of nodes that folding replaces. -/
def foldCount (p : Program) : Nat := (p.exprs.flatMap Expr.nodes).countP Expr.isFoldable

def printConstants (p : Program) : Program :=
  { p with functions := p.functions.map fun d => { d with body := printConstantsIn d.body } }

/-- Nothing at level zero, folding from level one on, and constants printed as text
from level two on. -/
def optimize (level : Nat) (p : Program) : Program :=
  let p := if 1 ≤ level then p.fold else p
  if 2 ≤ level then p.printConstants else p

/-- The number of nodes that `optimize` replaces by their values. -/
def optimizeCount (level : Nat) (p : Program) : Nat := if 1 ≤ level then p.foldCount else 0

end TapeC.Program
