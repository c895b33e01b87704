import TapeC.Grammar.Expression

/-! The grammar of declarations and statements. -/

namespace TapeC.Grammar

open Program

/-! ### Declarations -/

/-- The name of a type. -/
def typeName (fin : Position) : (ts : List Token) → Step TypeName ts.length
  | [] => refuse fin [] (.expectedType .endOfFile)
  | t :: ts =>
    match t.kind with
    | .keyword .int => .ok (.first .int t ts)
    | .keyword .struct => do
      let r ← identifier ts
      return (r.map .struct).after t
    | got => .error (.refused t.position (.expectedType got))

/-- The number of elements in a dimension. -/
def dimension (fin : Position) : (ts : List Token) → Step Nat ts.length
  | [] => refuse fin [] .dimension
  | t :: ts =>
    match t.kind with
    | .number n =>
      if 0 < n then .ok (.first n.toNat t ts) else .error (.refused t.position .dimension)
    | _ => .error (.refused t.position .dimension)

/-- The dimensions behind a declared name. -/
def dimensions (fin : Position) (ts : List Token) : Step (List Nat) (ts.length + 1) :=
  match ts with
  | [] => .ok (.stay [] [])
  | t :: ts =>
    if t.kind = .symbol .leftBracket then do
      let ⟨n, rest, h⟩ ← dimension fin ts
      let ⟨_, rest, h'⟩ ← symbol .rightBracket rest
      let r ← dimensions fin rest
      return (r.map (n :: ·)).upTo h' |>.behind h |>.after t |>.weaken
    else .ok (.stay [] (t :: ts))
termination_by ts.length

/-- What a declared variable is filled with, if that is given. -/
def contents? (fin : Position) : (ts : List Token) → Step (Option (Initializer Expr)) (ts.length + 1)
  | [] => .ok (.stay none [])
  | t :: ts =>
    if t.kind = .symbol .assign then do
      let r ← contents fin ts
      return (r.map some).after t |>.weaken
    else .ok (.stay none (t :: ts))

/-- A declaration of a variable. -/
def declaration (fin : Position) (ts : List Token) : Step Declaration ts.length := do
  let ⟨type, rest, h₁⟩ ← typeName fin ts
  let position := here fin rest
  let ⟨name, rest, h₂⟩ ← identifier rest
  let ⟨dims, rest, h₃⟩ ← dimensions fin rest
  let ⟨contents, rest, h₄⟩ ← contents? fin rest
  let ⟨_, rest, h₅⟩ ← symbol .semicolon rest
  return (Parsed.mk ⟨type, name, dims, contents, position⟩ rest h₅).behind h₄ |>.upTo h₃
    |>.upTo h₂ |>.behind h₁

/-! ### Parts of statements -/

/-- An expression in parentheses. -/
def parenthesized (fin : Position) (ts : List Token) : Step Expr ts.length := do
  let ⟨_, rest, h₁⟩ ← symbol .leftParen ts
  let ⟨e, rest, h₂⟩ ← expression fin rest
  let ⟨_, rest, h₃⟩ ← symbol .rightParen rest
  return (Parsed.mk e rest h₃).behind h₂ |>.behind h₁

/-- An expression that may be left out in front of the symbol `s`, and the symbol. -/
def expressionUntil (fin : Position) (s : Symbol) (ts : List Token) :
    Step (Option Expr) ts.length :=
  if startsWith s ts then do
    let r ← symbol s ts
    return r.map fun _ => none
  else do
    let ⟨e, rest, h₁⟩ ← expression fin ts
    let ⟨_, rest, h₂⟩ ← symbol s rest
    return (Parsed.mk (some e) rest h₂).behind h₁

/-- A string literal. -/
def printedText (fin : Position) : (ts : List Token) → Step String ts.length
  | [] => refuse fin [] .printedText
  | t :: ts =>
    match t.kind with
    | .string text => .ok (.first text t ts)
    | _ => .error (.refused t.position .printedText)

/-- A string in parentheses and a semicolon. -/
def printed (fin : Position) (ts : List Token) : Step String ts.length := do
  let ⟨_, rest, h₁⟩ ← symbol .leftParen ts
  let ⟨text, rest, h₂⟩ ← printedText fin rest
  let ⟨_, rest, h₃⟩ ← symbol .rightParen rest
  let ⟨_, rest, h₄⟩ ← symbol .semicolon rest
  return (Parsed.mk text rest h₄).behind h₃ |>.behind h₂ |>.behind h₁

/-- The first part of the header of a `for`, with its semicolon. -/
def loopInit (fin : Position) (ts : List Token) : Step (Option Statement) ts.length :=
  match peek ts with
  | .keyword .int | .keyword .struct => do
    let r ← declaration fin ts
    return r.map fun decl => some (.declare decl)
  | _ => do
    let r ← expressionUntil fin .semicolon ts
    return r.map fun e => e.map .expr

/-- The label of an arm of a switch, with its colon. -/
def caseLabel (fin : Position) : (ts : List Token) → Step CaseLabel ts.length
  | [] => .error .unexpectedEnd
  | t :: ts =>
    match t.kind with
    | .keyword .case => do
      let ⟨e, rest, h₁⟩ ← expression fin ts
      let ⟨_, rest, h₂⟩ ← symbol .colon rest
      return (Parsed.mk (.value e) rest h₂).behind h₁ |>.after t
    | .keyword .default => do
      let r ← symbol .colon ts
      return (r.map fun _ => .default).after t
    | got => .error (.refused t.position (.expectedCase got))

def isBreak : Statement → Bool
  | .breaks _ => true
  | _ => false

/-- An arm of a switch; its first `break` ends what can be reached. -/
def arm (label : CaseLabel) (statements : List Statement) (position : Position) : Case Statement :=
  let (body, others) := statements.span (!isBreak ·)
  ⟨label, body, !others.isEmpty, others.tail, position⟩

/-- Whether a token ends the statements of an arm. -/
def endsArm : Kind → Bool
  | .keyword .case | .keyword .default | .symbol .rightBrace => true
  | _ => false

/-! ### Statements -/

mutual
def statement (fin : Position) (ts : List Token) : Step Statement ts.length :=
  match ts with
  | [] => .error .unexpectedEnd
  | t :: ts =>
    match t.kind with
    | .symbol .leftBrace => do
      let ⟨body, rest, h⟩ ← blockBody fin ts
      return (Parsed.mk (.block body t.position) rest h).after t
    | .keyword .int | .keyword .struct => do
      let r ← declaration fin (t :: ts)
      return r.map .declare
    | .keyword .if => do
      let ⟨condition, rest, h₁⟩ ← parenthesized fin ts
      let ⟨thenBranch, rest, h₂⟩ ← statement fin rest
      let r ← elseBranch fin rest
      return (r.map (.ifElse condition thenBranch · t.position)).upTo h₂ |>.behind h₁ |>.after t
    | .keyword .while => do
      let ⟨condition, rest, h₁⟩ ← parenthesized fin ts
      let ⟨body, rest, h₂⟩ ← statement fin rest
      return (Parsed.mk (.whileLoop condition body t.position) rest h₂).behind h₁ |>.after t
    | .keyword .do => do
      let ⟨body, rest, h₁⟩ ← statement fin ts
      let ⟨_, rest, h₂⟩ ← expect (.keyword .while) rest
      let ⟨condition, rest, h₃⟩ ← parenthesized fin rest
      let ⟨_, rest, h₄⟩ ← symbol .semicolon rest
      return (Parsed.mk (.doLoop body condition t.position) rest h₄).behind h₃ |>.behind h₂
        |>.behind h₁ |>.after t
    | .keyword .for => do
      let ⟨_, rest, h₁⟩ ← symbol .leftParen ts
      let ⟨init, rest, h₂⟩ ← loopInit fin rest
      let ⟨condition, rest, h₃⟩ ← expressionUntil fin .semicolon rest
      let ⟨step, rest, h₄⟩ ← expressionUntil fin .rightParen rest
      let ⟨body, rest, h₅⟩ ← statement fin rest
      return (Parsed.mk (.forLoop init condition step body t.position) rest h₅).behind h₄
        |>.behind h₃ |>.behind h₂ |>.behind h₁ |>.after t
    | .keyword .switch => do
      let ⟨value, rest, h₁⟩ ← parenthesized fin ts
      let ⟨_, rest, h₂⟩ ← symbol .leftBrace rest
      let ⟨cases, rest, h₃⟩ ← arms fin rest
      return (Parsed.mk (.switch value cases t.position) rest h₃).behind h₂ |>.behind h₁ |>.after t
    | .keyword .return => do
      let r ← expressionUntil fin .semicolon ts
      return (r.map (.returns · t.position)).after t
    | .keyword .break => do
      let r ← symbol .semicolon ts
      return (r.map fun _ => .breaks t.position).after t
    | .keyword .continue => do
      let r ← symbol .semicolon ts
      return (r.map fun _ => .continues t.position).after t
    | .keyword .print => do
      let r ← printed fin ts
      return (r.map (.print · t.position)).after t
    | .symbol .semicolon => .ok (.first .empty t ts)
    | _ => do
      let ⟨e, rest, h₁⟩ ← expression fin (t :: ts)
      let ⟨_, rest, h₂⟩ ← symbol .semicolon rest
      return (Parsed.mk (.expr e) rest h₂).behind h₁
termination_by (ts.length, 0)

/-- The second branch of a conditional, if there is one. -/
def elseBranch (fin : Position) (ts : List Token) : Step (Option Statement) (ts.length + 1) :=
  match ts with
  | [] => .ok (.stay none [])
  | t :: ts =>
    if t.kind = .keyword .else then do
      let ⟨s, rest, h⟩ ← statement fin ts
      return (Parsed.mk (some s) rest h).after t |>.weaken
    else .ok (.stay none (t :: ts))
termination_by (ts.length, 0)

/-- Statements up to the closing brace, and the brace. -/
def blockBody (fin : Position) (ts : List Token) : Step (List Statement) ts.length :=
  if startsWith .rightBrace ts then do
    let r ← symbol .rightBrace ts
    return r.map fun _ => []
  else do
    let ⟨s, rest, h⟩ ← statement fin ts
    let ⟨body, rest, h'⟩ ← blockBody fin rest
    return (Parsed.mk (s :: body) rest h').behind h
termination_by (ts.length, 1)

/-- The arms of a switch up to the closing brace, and the brace. -/
def arms (fin : Position) (ts : List Token) : Step (List (Case Statement)) ts.length :=
  if startsWith .rightBrace ts then do
    let r ← symbol .rightBrace ts
    return r.map fun _ => []
  else do
    let position := here fin ts
    let ⟨label, rest, h₁⟩ ← caseLabel fin ts
    let ⟨statements, rest, h₂⟩ ← armBody fin rest
    let ⟨cases, rest, h₃⟩ ← arms fin rest
    return (Parsed.mk (arm label statements position :: cases) rest h₃).behind h₂ |>.upTo h₁
termination_by (ts.length, 0)

/-- Statements up to the next label or closing brace. -/
def armBody (fin : Position) (ts : List Token) : Step (List Statement) (ts.length + 1) :=
  match ts with
  | [] => .ok (.stay [] [])
  | t :: ts =>
    if endsArm t.kind then .ok (.stay [] (t :: ts))
    else do
      let ⟨s, rest, h⟩ ← statement fin (t :: ts)
      let r ← armBody fin rest
      return (r.map (s :: ·)).upTo h |>.weaken
termination_by (ts.length, 1)
end

end TapeC.Grammar
