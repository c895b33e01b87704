import TapeC.Token.Basic

/-! Reading a token list from its beginning. The list holds no token for the end of
the text; where a message needs its place, that is passed beside the list. A step
returns what it read and the tokens that remain, with a bound on their number
from which the grammar's recursion is seen to end. -/

namespace TapeC.Grammar

/-- Why a token list is not a program, apart from ending too early. -/
inductive Cause where
  | expected (wanted got : Kind)
  | expectedIdentifier (got : Kind)
  | expectedType (got : Kind)
  | expectedDefinition (got : Kind)
  | expectedCase (got : Kind)
  | expectedExpression (got : Kind)
  /-- An expression that is to stand alone is followed by a token. -/
  | afterExpression (got : Kind)
  | unexpandedInclude (path : String)
  | parameterType
  | dimension
  | printedText
  /-- A string literal stands where an expression is expected. -/
  | stringValue
deriving DecidableEq, Repr

def Cause.message : Cause → String
  | expected wanted got => s!"Expected '{wanted.text}', got '{got.text}'"
  | expectedIdentifier got => s!"Expected identifier, got '{got.text}'"
  | expectedType got => s!"Expected a type, got '{got.text}'"
  | expectedDefinition got =>
    s!"Expected a function, struct or global declaration, got '{got.text}'"
  | expectedCase got => s!"Expected 'case' or 'default', got '{got.text}'"
  | expectedExpression got => s!"Expected an expression, got '{got.text}'"
  | afterExpression got => s!"Unexpected '{got.text}' after expression"
  | unexpandedInclude path => s!"Include of '{path}' was not expanded before parsing"
  | parameterType => "Function parameters must be declared as int"
  | dimension => "Array dimension must be a positive integer literal"
  | printedText => "print expects a string literal"
  | stringValue => "String literals are only allowed in print and array initializers"

inductive Fault where
  | unexpectedEnd
  | refused (position : Position) (cause : Cause)
deriving DecidableEq, Repr

/-- What a step has read, and fewer than `n` remaining tokens. -/
structure Parsed (α : Type) (n : Nat) where
  value : α
  rest : List Token
  shorter : rest.length < n

/-- The outcome of a step. -/
abbrev Step (α : Type) (n : Nat) := Except Fault (Parsed α n)

namespace Parsed

variable {α β : Type} {n : Nat}

/-- Nothing has been read. -/
def stay (value : α) (ts : List Token) : Parsed α (ts.length + 1) :=
  ⟨value, ts, Nat.lt_succ_self _⟩

/-- Only the first token has been read. -/
def first (value : α) (t : Token) (ts : List Token) : Parsed α (t :: ts).length :=
  ⟨value, ts, Nat.lt_succ_self _⟩

def map (f : α → β) (r : Parsed α n) : Parsed β n := ⟨f r.value, r.rest, r.shorter⟩

/-- What a step has read, counted from one token earlier. -/
def after (r : Parsed α n) (_ : Token) : Parsed α (n + 1) :=
  ⟨r.value, r.rest, Nat.lt_succ_of_lt r.shorter⟩

/-- The same outcome, told with a weaker bound. -/
def weaken (r : Parsed α n) : Parsed α (n + 1) := ⟨r.value, r.rest, Nat.lt_succ_of_lt r.shorter⟩

/-- What a step has read that began where an earlier one had ended. -/
def behind {ts : List Token} (r : Parsed α ts.length) (h : ts.length < n) : Parsed α n :=
  ⟨r.value, r.rest, Nat.lt_trans r.shorter h⟩

/-- As `behind`, for a step that may read nothing. -/
def upTo {ts : List Token} (r : Parsed α (ts.length + 1)) (h : ts.length < n) : Parsed α n :=
  ⟨r.value, r.rest, Nat.lt_of_lt_of_le r.shorter h⟩

end Parsed

/-- The kind of the first token. -/
def peek : List Token → Kind
  | [] => .endOfFile
  | t :: _ => t.kind

/-- The place of the first token, with the end of the text at `fin`. -/
def here (fin : Position) : List Token → Position
  | [] => fin
  | t :: _ => t.position

/-- Refuses the first token. -/
def refuse {α : Type} (fin : Position) (ts : List Token) (cause : Cause) : Except Fault α :=
  .error (.refused (here fin ts) cause)

/-- Whether the first token is the symbol `s`. -/
def startsWith (s : Symbol) (ts : List Token) : Bool := peek ts == .symbol s

/-- Steps over a token of the given kind. -/
def expect (kind : Kind) : (ts : List Token) → Step Unit ts.length
  | [] => .error .unexpectedEnd
  | t :: ts =>
    if t.kind = kind then .ok (.first () t ts)
    else .error (.refused t.position (.expected kind t.kind))

/-- Steps over a symbol. -/
def symbol (s : Symbol) (ts : List Token) : Step Unit ts.length := expect (.symbol s) ts

/-- Steps over a name. -/
def identifier : (ts : List Token) → Step String ts.length
  | [] => .error .unexpectedEnd
  | t :: ts =>
    match t.kind with
    | .identifier name => .ok (.first name t ts)
    | got => .error (.refused t.position (.expectedIdentifier got))

end TapeC.Grammar
