import TapeC.Text.Blank
import TapeC.Token.Basic

/-! The rules by which a source text is cut into tokens. Each rule tells how long a
lexeme it finds at the beginning of a text and what token the lexeme becomes. The
longest lexeme wins and, of equally long ones, that of the earlier rule, so that
a word is a keyword only if all of it is. -/

namespace TapeC.Token

/-! ### Lexemes -/

def isWordStart (c : Char) : Bool := c.isAlpha || c == '_'

def isWordPart (c : Char) : Bool := c.isAlphanum || c == '_'

def isHexDigit (c : Char) : Bool := (Text.Escaped.digitValue? c).isSome

/-- The length of a word at the beginning of a text, or zero. -/
def wordLength : List Char → Nat
  | c :: cs => if isWordStart c then 1 + (cs.takeWhile isWordPart).length else 0
  | [] => 0

/-- The length of a `0x` number at the beginning of a text, or zero. -/
def hexLength : List Char → Nat
  | '0' :: x :: cs =>
    let digits := (cs.takeWhile isHexDigit).length
    if (x == 'x' || x == 'X') && digits ≠ 0 then 2 + digits else 0
  | _ => 0

/-- The length of the rest of a string literal, with its closing quote. -/
def stringTail? : List Char → Option Nat
  | [] => none
  | '"' :: _ => some 1
  | '\\' :: [] => none
  | '\\' :: c :: cs => if c = '\n' then none else (stringTail? cs).map (· + 2)
  | c :: cs => if c = '\n' then none else (stringTail? cs).map (· + 1)

def stringLength : List Char → Nat
  | '"' :: cs => ((stringTail? cs).map (· + 1)).getD 0
  | _ => 0

/-- The length of the character of a character literal, as it is written, or zero. -/
def literalCharLength : List Char → Nat
  | '\\' :: 'x' :: a :: b :: '\'' :: _ =>
    if isHexDigit a && isHexDigit b then 4 else if a = '\'' then 2 else 0
  | '\\' :: c :: '\'' :: _ => if c = '\n' then 0 else 2
  | c :: '\'' :: _ => if c = '\'' || c = '\\' || c = '\n' then 0 else 1
  | _ => 0

/-- The length of a character literal at the beginning of a text, or zero. -/
def charLength : List Char → Nat
  | '\'' :: cs => if literalCharLength cs = 0 then 0 else literalCharLength cs + 2
  | _ => 0

/-- The length of a comment that goes on to the end of its line, with the line
feed. -/
def lineCommentLength : List Char → Nat
  | '/' :: '/' :: cs =>
    let body := cs.takeWhile (· ≠ '\n')
    if body.length < cs.length then 3 + body.length else 2 + body.length
  | _ => 0

/-- The length of the rest of a bracketed comment, with its end. -/
def blockCommentTail? : List Char → Option Nat
  | [] => none
  | '*' :: '/' :: _ => some 2
  | _ :: cs => (blockCommentTail? cs).map (· + 1)

def blockCommentLength : List Char → Nat
  | '/' :: '*' :: cs => ((blockCommentTail? cs).map (· + 2)).getD 0
  | _ => 0

def includeWord : List Char := "#include".toList

/-- The length of an include directive whose path stands between `opening` and
`closing`, or zero. The path is not empty and stays on its line. -/
def includeLength (opening closing : Char) (cs : List Char) : Nat :=
  if includeWord.isPrefixOf cs then
    let cs := cs.drop includeWord.length
    let blanks := (cs.takeWhile Text.isBlank).length
    match cs.drop blanks with
    | c :: cs =>
      let path := (cs.takeWhile fun d => d ≠ closing && d ≠ '\n').length
      if c = opening && path ≠ 0 && (cs.drop path).head? = some closing then
        includeWord.length + blanks + path + 2
      else 0
    | [] => 0
  else 0

/-! ### Values -/

/-- Why a text cannot be cut into tokens. -/
inductive Fault where
  | numberTooLarge (digits : List Char)
  | escape (fault : Text.Escaped.Fault)
  /-- The character does not fit in a byte. -/
  | wideChar (lexeme : List Char)
  | unidentified (c : Char)
deriving DecidableEq, Repr

def Fault.message : Fault → String
  | numberTooLarge digits => "Number literal '" ++ String.ofList digits ++ "' is too large"
  | escape fault => fault.message
  | wideChar lexeme => "Character literal " ++ String.ofList lexeme ++ " does not fit in a cell"
  | unidentified c => "Unidentified character '" ++ String.ofList (Text.Escaped.shownChar c) ++ "'"

/-- The largest number a literal can stand for. -/
def maxNumber : Nat := 0x7FFFFFFFFFFFFFFF

/-- The value of digits in the given base. -/
def digitsValue (base : Nat) (digits : List Char) : Nat :=
  digits.foldl (fun n c => base * n + (Text.Escaped.digitValue? c).getD 0) 0

def numberKind (base : Nat) (digits : List Char) : Except Fault Kind :=
  let n := digitsValue base digits
  if n ≤ maxNumber then .ok (.number n) else .error (.numberTooLarge digits)

/-- The body of a literal, between its quotes, with escapes resolved. -/
def literalBody (lexeme : List Char) : Except Fault (List Char) :=
  (Text.Escaped.decode (lexeme.drop 1).dropLast).mapError .escape

def charKind (lexeme : List Char) : Except Fault Kind := do
  let body ← literalBody lexeme
  let code := (body.head?.map Char.toNat).getD 0
  if code < 256 then .ok (.char code.toUInt8) else .error (.wideChar lexeme)

/-- The path of an include directive, without the blanks around it. -/
def includePath (opening : Char) (lexeme : List Char) : List Char :=
  Text.trim ((lexeme.dropWhile (· ≠ opening)).drop 1).dropLast

/-! ### The table -/

inductive Rule where
  /-- A token that is always spelled the same. -/
  | fixed (spelling : List Char) (kind : Kind)
  | blanks
  | includeSearched
  | includeQuoted
  | word
  | decimal
  | hexadecimal
  | string
  | char
  | lineComment
  | blockComment
  /-- Any single character; no token begins with it. -/
  | any
deriving DecidableEq, Repr

namespace Rule

/-- The length of the lexeme that a rule finds, or zero if it finds none. -/
def length : Rule → List Char → Nat
  | fixed spelling _, cs => if spelling.isPrefixOf cs then spelling.length else 0
  | blanks, cs => (cs.takeWhile Text.isBlank).length
  | includeSearched, cs => includeLength '<' '>' cs
  | includeQuoted, cs => includeLength '"' '"' cs
  | word, cs => wordLength cs
  | decimal, cs => (cs.takeWhile Char.isDigit).length
  | hexadecimal, cs => hexLength cs
  | string, cs => stringLength cs
  | char, cs => charLength cs
  | lineComment, cs => lineCommentLength cs
  | blockComment, cs => blockCommentLength cs
  | any, cs => if cs.isEmpty then 0 else 1

/-- What a lexeme becomes; blanks and comments become nothing. -/
def kind? : Rule → List Char → Except Fault (Option Kind)
  | fixed _ kind, _ => .ok (some kind)
  | blanks, _ | lineComment, _ | blockComment, _ => .ok none
  | includeSearched, lexeme => .ok (some (.include (String.ofList (includePath '<' lexeme)) false))
  | includeQuoted, lexeme => .ok (some (.include (String.ofList (includePath '"' lexeme)) true))
  | word, lexeme => .ok (some (.identifier (String.ofList lexeme)))
  | decimal, lexeme => some <$> numberKind 10 lexeme
  | hexadecimal, lexeme => some <$> numberKind 16 (lexeme.drop 2)
  | string, lexeme => do return some (.string (String.ofList (← literalBody lexeme)))
  | char, lexeme => some <$> charKind lexeme
  | any, lexeme => .error (.unidentified (lexeme.headD ' '))

/-- Keywords by their spellings. -/
def keywords : List (String × Keyword) :=
  [("bool", .int), ("char", .int)] ++
    [Keyword.void, .int, .struct, .true, .false, .return, .if, .else, .while, .for, .do, .print,
      .break, .continue, .switch, .case, .default].map fun k => (k.spelling, k)

def symbols : List Symbol :=
  [.semicolon, .comma, .colon, .dot, .leftParen, .rightParen, .leftBrace, .rightBrace,
    .leftBracket, .rightBracket, .assign, .lessOrEqual, .greaterOrEqual, .equal, .notEqual, .less,
    .greater, .plusPlus, .minusMinus, .starStar, .slashSlash, .percentPercent, .plus, .minus,
    .star, .slash, .percent, .shiftLeft, .shiftRight, .tilde, .ampersand, .pipe, .caret, .andAnd,
    .orOr, .bang]

/-- The operators that an assignment can be joined with. -/
def compounds : List Symbol :=
  [.plus, .minus, .star, .slash, .percent, .shiftLeft, .shiftRight, .ampersand, .pipe, .caret]

/-- All rules. A keyword comes before the rule for words and the token `//` before
that for comments, which a text can be an equally long lexeme of. -/
def table : List Rule :=
  keywords.map (fun (s, k) => fixed s.toList (.keyword k)) ++
    symbols.map (fun s => fixed s.spelling.toList (.symbol s)) ++
    compounds.map (fun s => fixed (s.spelling ++ "=").toList (.compound (.symbol s))) ++
    [blanks, includeSearched, includeQuoted, word, decimal, hexadecimal, string, char, lineComment,
      blockComment, any]

/-- The first of the longest lexemes that rules find. -/
def longest (cs : List Char) : List Rule → Rule × Nat :=
  List.foldl (fun best rule => if best.2 < rule.length cs then (rule, rule.length cs) else best)
    (any, 0)

end Rule
end TapeC.Token
