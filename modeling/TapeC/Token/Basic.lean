import TapeC.Cell
import TapeC.Position
import TapeC.Text.Escaped

/-! Tokens of the source language. -/

namespace TapeC

inductive Keyword where
  | void
  /-- The type of a cell, also written `bool` and `char`. -/
  | int
  | struct | true | false | return | if | else | while | for | do | print | break | continue
  | switch | case | default
deriving DecidableEq, Repr

def Keyword.spelling : Keyword → String
  | void => "void"
  | int => "int"
  | struct => "struct"
  | .true => "true"
  | .false => "false"
  | .return => "return"
  | .if => "if"
  | .else => "else"
  | .while => "while"
  | .for => "for"
  | .do => "do"
  | print => "print"
  | .break => "break"
  | .continue => "continue"
  | switch => "switch"
  | case => "case"
  | default => "default"

/-- Operators and punctuation. -/
inductive Symbol where
  | semicolon | comma | colon | dot
  | leftParen | rightParen | leftBrace | rightBrace | leftBracket | rightBracket
  | assign
  | lessOrEqual | greaterOrEqual | equal | notEqual | less | greater
  | plusPlus | minusMinus | starStar | slashSlash | percentPercent
  | plus | minus | star | slash | percent
  | shiftLeft | shiftRight | tilde | ampersand | pipe | caret
  | andAnd | orOr | bang
deriving DecidableEq, Repr

def Symbol.spelling : Symbol → String
  | semicolon => ";"
  | comma => ","
  | colon => ":"
  | dot => "."
  | leftParen => "("
  | rightParen => ")"
  | leftBrace => "\x7b"
  | rightBrace => "\x7d"
  | leftBracket => "["
  | rightBracket => "]"
  | assign => "="
  | lessOrEqual => "<="
  | greaterOrEqual => ">="
  | equal => "=="
  | notEqual => "!="
  | less => "<"
  | greater => ">"
  | plusPlus => "++"
  | minusMinus => "--"
  | starStar => "**"
  | slashSlash => "//"
  | percentPercent => "%%"
  | plus => "+"
  | minus => "-"
  | star => "*"
  | slash => "/"
  | percent => "%"
  | shiftLeft => "<<"
  | shiftRight => ">>"
  | tilde => "~"
  | ampersand => "&"
  | pipe => "|"
  | caret => "^"
  | andAnd => "&&"
  | orOr => "||"
  | bang => "!"

/-- What a token is. Literals carry their value with escapes already resolved. -/
inductive Kind where
  | number (value : Int)
  | char (code : Cell)
  | string (text : String)
  | identifier (name : String)
  | keyword (k : Keyword)
  | symbol (s : Symbol)
  /-- An assignment joined with an operator. -/
  | compound (op : Kind)
  /-- A directive; `quoted` tells the file is looked up beside the one that names it. -/
  | include (path : String) (quoted : Bool)
  | endOfFile
deriving DecidableEq, Repr

/-- A kind as messages show it. -/
def Kind.text : Kind → String
  | number n => toString n
  | char c => "'" ++ String.ofList (Text.Escaped.shownChar (Char.ofNat c.toNat)) ++ "'"
  | string s => "\"" ++ String.ofList (Text.Escaped.shown s.toList) ++ "\""
  | identifier name => name
  | keyword k => k.spelling
  | symbol s => s.spelling
  | compound op => op.text ++ "="
  | .include path true => "#include \"" ++ path ++ "\""
  | .include path false => "#include <" ++ path ++ ">"
  | endOfFile => "end of file"

structure Token where
  kind : Kind
  lexeme : String
  position : Position
deriving DecidableEq, Repr

end TapeC
