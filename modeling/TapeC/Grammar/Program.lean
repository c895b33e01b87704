import TapeC.Grammar.Statement

/-! The grammar of programs: struct definitions, functions and global variables, in
any order. -/

namespace TapeC.Grammar

open Program

/-! ### Struct definitions -/

/-- The fields of a struct up to the closing brace, and the brace. -/
def fields (fin : Position) (ts : List Token) : Step (List FieldDef) ts.length :=
  if startsWith .rightBrace ts || ts.isEmpty then do
    let r ← symbol .rightBrace ts
    return r.map fun _ => []
  else do
    let ⟨type, rest, h₁⟩ ← typeName fin ts
    let position := here fin rest
    let ⟨name, rest, h₂⟩ ← identifier rest
    let ⟨dims, rest, h₃⟩ ← dimensions fin rest
    let ⟨_, rest, h₄⟩ ← symbol .semicolon rest
    let ⟨others, rest, h₅⟩ ← fields fin rest
    return (Parsed.mk (⟨type, name, dims, position⟩ :: others) rest h₅).behind h₄ |>.behind h₃
      |>.upTo h₂ |>.behind h₁
termination_by ts.length

/-- A struct definition behind its keyword, which stands at `p`. -/
def structDef (fin p : Position) (ts : List Token) : Step StructDef ts.length := do
  let ⟨name, rest, h₁⟩ ← identifier ts
  let ⟨_, rest, h₂⟩ ← symbol .leftBrace rest
  let ⟨fields, rest, h₃⟩ ← fields fin rest
  let ⟨_, rest, h₄⟩ ← symbol .semicolon rest
  return (Parsed.mk ⟨name, fields, p⟩ rest h₄).behind h₃ |>.behind h₂ |>.behind h₁

/-! ### Functions -/

/-- One or more parameters, separated by commas. -/
def parameterList (fin : Position) (ts : List Token) : Step (List Parameter) ts.length :=
  match ts with
  | [] => refuse fin [] .parameterType
  | t :: ts =>
    if t.kind = .keyword .int then do
      let position := here fin ts
      let ⟨name, rest, h₁⟩ ← identifier ts
      if startsWith .comma rest then
        let ⟨_, rest, h₂⟩ ← symbol .comma rest
        let ⟨others, rest, h₃⟩ ← parameterList fin rest
        return (Parsed.mk (⟨name, position⟩ :: others) rest h₃).behind h₂ |>.behind h₁ |>.after t
      else return (Parsed.mk [⟨name, position⟩] rest h₁).after t
    else .error (.refused t.position .parameterType)
termination_by ts.length

/-- The parameters of a function, with the closing parenthesis. -/
def parameters (fin : Position) (ts : List Token) : Step (List Parameter) ts.length :=
  if startsWith .rightParen ts then do
    let r ← symbol .rightParen ts
    return r.map fun _ => []
  else do
    let ⟨params, rest, h₁⟩ ← parameterList fin ts
    let ⟨_, rest, h₂⟩ ← symbol .rightParen rest
    return (Parsed.mk params rest h₂).behind h₁

/-- A function behind its return type. -/
def functionDef (fin : Position) (returns : ReturnKind) (ts : List Token) :
    Step FunctionDef ts.length := do
  let position := here fin ts
  let ⟨name, rest, h₁⟩ ← identifier ts
  let ⟨_, rest, h₂⟩ ← symbol .leftParen rest
  let ⟨params, rest, h₃⟩ ← parameters fin rest
  let ⟨_, rest, h₄⟩ ← symbol .leftBrace rest
  let ⟨body, rest, h₅⟩ ← blockBody fin rest
  return (Parsed.mk ⟨returns, name, params, body, position⟩ rest h₅).behind h₄ |>.behind h₃
    |>.behind h₂ |>.behind h₁

/-! ### Programs -/

/-- Whether a name and the symbol `s` come next. -/
def namedThen (s : Symbol) (ts : List Token) : Bool :=
  match ts with
  | ⟨.identifier _, _, _⟩ :: rest => startsWith s rest
  | _ => false

/-- A definition at the outermost level. -/
inductive Item where
  | struct (d : StructDef)
  | global (d : Declaration)
  | function (d : FunctionDef)

/-- One definition. -/
def item (fin : Position) (ts : List Token) : Step Item ts.length :=
  match ts with
  | [] => .error .unexpectedEnd
  | t :: ts =>
    let global : Step Item (t :: ts).length := do
      let r ← declaration fin (t :: ts)
      return r.map .global
    match t.kind with
    | .keyword .struct =>
      if namedThen .leftBrace ts then do
        let r ← structDef fin t.position ts
        return (r.map .struct).after t
      else global
    | .keyword .void => do
      let r ← functionDef fin .void ts
      return (r.map .function).after t
    | .keyword .int =>
      if namedThen .leftParen ts then do
        let r ← functionDef fin .int ts
        return (r.map .function).after t
      else global
    | .include path _ => .error (.refused t.position (.unexpandedInclude path))
    | got => .error (.refused t.position (.expectedDefinition got))

/-- Definitions up to the end of the text. -/
def items (fin : Position) (ts : List Token) : Except Fault (List Item) :=
  if ts.isEmpty then .ok []
  else do
    let ⟨i, rest, _⟩ ← item fin ts
    return i :: (← items fin rest)
termination_by ts.length

/-- The program that a list of definitions makes up. -/
def Item.program (is : List Item) : Program where
  structs := is.filterMap fun | .struct d => some d | _ => none
  globals := is.filterMap fun | .global d => some d | _ => none
  functions := is.filterMap fun | .function d => some d | _ => none

/-- The tokens before the first end of the text, and its place. If it is not marked,
the text ends where its last token begins. -/
def untilEnd (ts : List Token) : List Token × Position :=
  let (tokens, others) := ts.span (·.kind != .endOfFile)
  match others, tokens.getLast? with
  | t :: _, _ => (tokens, t.position)
  | [], some t => (tokens, t.position)
  | [], none => ([], .start)

/-- The program of a token list. -/
def program (ts : List Token) : Except Fault Program := do
  let (tokens, fin) := untilEnd ts
  return Item.program (← items fin tokens)

/-- The expression of a token list that holds nothing else. -/
def standalone (ts : List Token) : Except Fault Expr := do
  let (tokens, fin) := untilEnd ts
  let r ← expression fin tokens
  match r.rest with
  | [] => return r.value
  | t :: _ => .error (.refused t.position (.afterExpression t.kind))

end TapeC.Grammar
