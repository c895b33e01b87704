import TapeC.Grammar.Program

/-! Syntax trees as token lists. An expression stands in parentheses only where its operator
binds more loosely than the place allows: a level is told by a number, and an expression may
stand where no tighter level is asked for. -/

namespace TapeC

namespace Program

open Grammar

/-! ### Operators -/

def BinaryOp.kind : BinaryOp → Kind
  | .or => .symbol .orOr
  | .and => .symbol .andAnd
  | .bitOr => .symbol .pipe
  | .bitXor => .symbol .caret
  | .bitAnd => .symbol .ampersand
  | .equal => .symbol .equal
  | .notEqual => .symbol .notEqual
  | .less => .symbol .less
  | .lessOrEqual => .symbol .lessOrEqual
  | .greater => .symbol .greater
  | .greaterOrEqual => .symbol .greaterOrEqual
  | .shiftLeft => .symbol .shiftLeft
  | .shiftRight => .symbol .shiftRight
  | .add => .symbol .plus
  | .subtract => .symbol .minus
  | .multiply => .symbol .star
  | .divide => .symbol .slash
  | .modulo => .symbol .percent

def UnaryOp.kind : UnaryOp → Kind
  | .not => .symbol .bang
  | .complement => .symbol .tilde
  | .negate => .symbol .minus

def UpdateOp.kind : UpdateOp → Kind
  | .increment => .symbol .plusPlus
  | .decrement => .symbol .minusMinus
  | .timesOne => .symbol .starStar
  | .overOne => .symbol .slashSlash
  | .moduloOne => .symbol .percentPercent

/-- The kind of the token between the sides of an assignment. -/
def assignKind : Option BinaryOp → Kind
  | none => .symbol .assign
  | some op => .compound op.kind

/-! ### Expressions -/

/-- Where an expression may stand: 0 is an operand by itself, 1 with updates behind it and 2 with
operators in front of it; the levels of operators between two operands come next, and an
assignment last. -/
def Expr.level : Expr → Nat
  | .number _ _ | .char _ _ | .bool _ _ | .access _ _ _ | .call _ _ _ => 0
  | .update _ false _ _ => 1
  | .update _ true _ _ | .unary _ _ _ => 2
  | .binary op _ _ _ => looseness op + 3
  | .assign _ _ _ _ | .fill _ _ _ => levels + 3

/-- Where the left operand may stand: operators of one level join to the left, but comparisons do
not join. -/
def leftLevel (op : BinaryOp) : Nat :=
  if looseness op = comparisonLevel then looseness op + 2 else looseness op + 3

/-- The kinds of an expression that has to be of a level up to `n`. -/
def within (n : Nat) (e : Expr) (kinds : List Kind) : List Kind :=
  if e.level ≤ n then kinds else .symbol .leftParen :: kinds ++ [.symbol .rightParen]

mutual
/-- The kinds of the tokens of an expression. -/
def Expr.kinds : Expr → List Kind
  | .number n _ => [.number n]
  | .char c _ => [.char c]
  | .bool b _ => [.keyword (if b then .true else .false)]
  | .access name path _ => .identifier name :: pathKinds path
  | .binary op a b _ => within (leftLevel op) a a.kinds ++ op.kind :: within (looseness op + 2) b b.kinds
  | .unary op e _ => op.kind :: within 2 e e.kinds
  | .update op true target _ => op.kind :: within 1 target target.kinds
  | .update op false target _ => within 1 target target.kinds ++ [op.kind]
  | .assign target op value _ => within (levels + 2) target target.kinds ++ assignKind op :: value.kinds
  | .fill target contents _ => within (levels + 2) target target.kinds ++ assignKind none :: contentsKinds contents
  | .call name args _ => .identifier name :: .symbol .leftParen :: argKinds args ++ [.symbol .rightParen]

def pathKinds : List (Selector Expr) → List Kind
  | [] => []
  | .index e :: path => .symbol .leftBracket :: e.kinds ++ .symbol .rightBracket :: pathKinds path
  | .field name :: path => .symbol .dot :: .identifier name :: pathKinds path

def argKinds : List Expr → List Kind
  | [] => []
  | e :: es => e.kinds ++ moreArgKinds es

/-- The kinds of arguments that follow others. -/
def moreArgKinds : List Expr → List Kind
  | [] => []
  | e :: es => .symbol .comma :: e.kinds ++ moreArgKinds es

def contentsKinds : Initializer Expr → List Kind
  | .single e => e.kinds
  | .list items _ => .symbol .leftBrace :: itemKinds items ++ [.symbol .rightBrace]
  | .text text _ => [.string text]

def itemKinds : List (Initializer Expr) → List Kind
  | [] => []
  | i :: items => contentsKinds i ++ moreItemKinds items

def moreItemKinds : List (Initializer Expr) → List Kind
  | [] => []
  | i :: items => .symbol .comma :: contentsKinds i ++ moreItemKinds items
end

/-! ### Declarations and statements -/

def TypeName.kinds : TypeName → List Kind
  | .int => [.keyword .int]
  | .struct name => [.keyword .struct, .identifier name]

def dimKinds (dims : List Nat) : List Kind :=
  dims.flatMap fun n : Nat => [.symbol .leftBracket, .number (n : Int), .symbol .rightBracket]

/-- The kinds of what a declared variable is filled with, if that is given. -/
def givenKinds : Option (Initializer Expr) → List Kind
  | none => []
  | some i => .symbol .assign :: contentsKinds i

def Declaration.kinds (d : Declaration) : List Kind :=
  d.type.kinds ++ .identifier d.name :: dimKinds d.dims ++ givenKinds d.contents ++ [.symbol .semicolon]

def CaseLabel.kinds : CaseLabel → List Kind
  | .value e => .keyword .case :: e.kinds ++ [.symbol .colon]
  | .default => [.keyword .default, .symbol .colon]

def conditionKinds (e : Expr) : List Kind := .symbol .leftParen :: e.kinds ++ [.symbol .rightParen]

/-- The kinds of an expression that may be missing. -/
def optionKinds : Option Expr → List Kind
  | none => []
  | some e => e.kinds

mutual
/-- The kinds of the tokens of a statement. -/
def Statement.kinds : Statement → List Kind
  | .declare d => d.kinds
  | .expr e => e.kinds ++ [.symbol .semicolon]
  | .print text _ =>
    [.keyword .print, .symbol .leftParen, .string text, .symbol .rightParen, .symbol .semicolon]
  | .block body _ => .symbol .leftBrace :: bodyKinds body ++ [.symbol .rightBrace]
  | .ifElse c a b _ => .keyword .if :: conditionKinds c ++ a.kinds ++ branchKinds b
  | .whileLoop c body _ => .keyword .while :: conditionKinds c ++ body.kinds
  | .doLoop body c _ => .keyword .do :: body.kinds ++ .keyword .while :: conditionKinds c ++ [.symbol .semicolon]
  | .forLoop init c step body _ => .keyword .for :: .symbol .leftParen :: initKinds init ++
    optionKinds c ++ .symbol .semicolon :: optionKinds step ++ .symbol .rightParen :: body.kinds
  | .switch e cases _ =>
    .keyword .switch :: conditionKinds e ++ .symbol .leftBrace :: caseKinds cases ++ [.symbol .rightBrace]
  | .returns e _ => .keyword .return :: optionKinds e ++ [.symbol .semicolon]
  | .breaks _ => [.keyword .break, .symbol .semicolon]
  | .continues _ => [.keyword .continue, .symbol .semicolon]
  | .empty => [.symbol .semicolon]

def bodyKinds : List Statement → List Kind
  | [] => []
  | s :: body => s.kinds ++ bodyKinds body

def branchKinds : Option Statement → List Kind
  | none => []
  | some s => .keyword .else :: s.kinds

/-- The kinds of the first part of the header of a `for`, with its semicolon. -/
def initKinds : Option Statement → List Kind
  | none => [.symbol .semicolon]
  | some s => s.kinds

def caseKinds : List (Case Statement) → List Kind
  | [] => []
  | ⟨label, body, hasBreak, unreachable, _⟩ :: cases => label.kinds ++ bodyKinds body ++
    (if hasBreak then [.keyword .break, .symbol .semicolon] else []) ++ bodyKinds unreachable ++ caseKinds cases
end

/-! ### Programs -/

def FieldDef.kinds (f : FieldDef) : List Kind :=
  f.type.kinds ++ .identifier f.name :: dimKinds f.dims ++ [.symbol .semicolon]

def StructDef.kinds (d : StructDef) : List Kind :=
  .keyword .struct :: .identifier d.name :: .symbol .leftBrace :: d.fields.flatMap FieldDef.kinds ++
    [.symbol .rightBrace, .symbol .semicolon]

def moreParameterKinds (ps : List Parameter) : List Kind :=
  ps.flatMap fun p => [.symbol .comma, .keyword .int, .identifier p.name]

def parameterKinds : List Parameter → List Kind
  | [] => []
  | p :: ps => .keyword .int :: .identifier p.name :: moreParameterKinds ps

def ReturnKind.keyword : ReturnKind → Keyword
  | .void => .void
  | .int => .int

def FunctionDef.kinds (f : FunctionDef) : List Kind :=
  .keyword f.returns.keyword :: .identifier f.name :: .symbol .leftParen :: parameterKinds f.params ++
    .symbol .rightParen :: .symbol .leftBrace :: bodyKinds f.body ++ [.symbol .rightBrace]

/-! ### Trees without places -/

mutual
/-- The expression with all its nodes at the first position. -/
def Expr.atStart : Expr → Expr
  | .number n _ => .number n .start
  | .char c _ => .char c .start
  | .bool b _ => .bool b .start
  | .access name path _ => .access name (pathAtStart path) .start
  | .binary op a b _ => .binary op a.atStart b.atStart .start
  | .unary op e _ => .unary op e.atStart .start
  | .update op before target _ => .update op before target.atStart .start
  | .assign target op value _ => .assign target.atStart op value.atStart .start
  | .fill target contents _ => .fill target.atStart (contentsAtStart contents) .start
  | .call name args _ => .call name (argsAtStart args) .start

def pathAtStart : List (Selector Expr) → List (Selector Expr)
  | [] => []
  | .index e :: path => .index e.atStart :: pathAtStart path
  | .field name :: path => .field name :: pathAtStart path

def argsAtStart : List Expr → List Expr
  | [] => []
  | e :: es => e.atStart :: argsAtStart es

def contentsAtStart : Initializer Expr → Initializer Expr
  | .single e => .single e.atStart
  | .list items _ => .list (itemsAtStart items) .start
  | .text text _ => .text text .start

def itemsAtStart : List (Initializer Expr) → List (Initializer Expr)
  | [] => []
  | i :: items => contentsAtStart i :: itemsAtStart items
end

def Declaration.atStart (d : Declaration) : Declaration :=
  ⟨d.type, d.name, d.dims, d.contents.map contentsAtStart, .start⟩

def CaseLabel.atStart : CaseLabel → CaseLabel
  | .value e => .value e.atStart
  | .default => .default

mutual
/-- The statement with all its nodes at the first position. -/
def Statement.atStart : Statement → Statement
  | .declare d => .declare d.atStart
  | .expr e => .expr e.atStart
  | .print text _ => .print text .start
  | .block body _ => .block (bodyAtStart body) .start
  | .ifElse c a b _ => .ifElse c.atStart a.atStart (branchAtStart b) .start
  | .whileLoop c body _ => .whileLoop c.atStart body.atStart .start
  | .doLoop body c _ => .doLoop body.atStart c.atStart .start
  | .forLoop init c step body _ =>
    .forLoop (branchAtStart init) (c.map Expr.atStart) (step.map Expr.atStart) body.atStart .start
  | .switch e cases _ => .switch e.atStart (casesAtStart cases) .start
  | .returns e _ => .returns (e.map Expr.atStart) .start
  | .breaks _ => .breaks .start
  | .continues _ => .continues .start
  | .empty => .empty

def bodyAtStart : List Statement → List Statement
  | [] => []
  | s :: body => s.atStart :: bodyAtStart body

def branchAtStart : Option Statement → Option Statement
  | none => none
  | some s => some s.atStart

def casesAtStart : List (Case Statement) → List (Case Statement)
  | [] => []
  | ⟨label, body, hasBreak, unreachable, _⟩ :: cases =>
    ⟨label.atStart, bodyAtStart body, hasBreak, bodyAtStart unreachable, .start⟩ :: casesAtStart cases
end

def FieldDef.atStart (f : FieldDef) : FieldDef := { f with position := .start }

def StructDef.atStart (d : StructDef) : StructDef := ⟨d.name, d.fields.map FieldDef.atStart, .start⟩

def FunctionDef.atStart (f : FunctionDef) : FunctionDef :=
  ⟨f.returns, f.name, f.params.map fun p => ⟨p.name, .start⟩, bodyAtStart f.body, .start⟩

end Program

namespace Program

/-- The kinds of the tokens of a program: the structs, the global variables and the functions. -/
def kinds (p : Program) : List Kind :=
  p.structs.flatMap StructDef.kinds ++ p.globals.flatMap Declaration.kinds ++ p.functions.flatMap FunctionDef.kinds

/-- The program with all its nodes at the first position. -/
def atStart (p : Program) : Program :=
  ⟨p.structs.map StructDef.atStart, p.globals.map Declaration.atStart, p.functions.map FunctionDef.atStart⟩

end Program

/-- A token of a kind, at the first position. -/
def Token.ofKind (k : Kind) : Token := ⟨k, k.text, .start⟩

/-- The tokens of a program, with the mark of the end. -/
def Program.tokens (p : Program) : List Token := (p.kinds ++ [Kind.endOfFile]).map Token.ofKind

end TapeC
