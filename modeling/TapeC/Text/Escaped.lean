/-! Backslash escapes, in both directions. `shown` writes a text so that each
character outside printable ASCII is visible; `decode` reads the escapes that
string and character literals may hold. -/

namespace TapeC.Text.Escaped

/-- The lower-case hexadecimal digits of a number. -/
def hexDigits (n : Nat) : List Char := Nat.toDigits 16 n

/-- One character, escaped unless it is printable ASCII other than a quote or a
backslash. -/
def shownChar (c : Char) : List Char :=
  match c with
  | '\t' => ['\\', 't']
  | '\r' => ['\\', 'r']
  | '\n' => ['\\', 'n']
  | '\'' => ['\\', '\'']
  | '"' => ['\\', '"']
  | '\\' => ['\\', '\\']
  | c =>
    if 0x20 ≤ c.toNat ∧ c.toNat ≤ 0x7E then [c]
    else ['\\', 'u', '\x7b'] ++ hexDigits c.toNat ++ ['\x7d']

def shown (cs : List Char) : List Char := cs.flatMap shownChar

/-- Why the body of a literal cannot be decoded. -/
inductive Fault where
  /-- `\x` is followed by something that is not a hexadecimal byte. -/
  | hex (digits : List Char)
  /-- The character after the backslash names no escape. -/
  | unknown (c : Char)
  /-- The body ends with a backslash. -/
  | dangling
deriving DecidableEq, Repr

def Fault.message : Fault → String
  | .hex digits => "Invalid escape sequence '\\x" ++ String.ofList digits ++ "'"
  | .unknown c => "Unknown escape sequence '\\" ++ c.toString ++ "'"
  | .dangling => "Dangling backslash in literal"

/-- The value of a hexadecimal digit of either case. -/
def digitValue? (c : Char) : Option Nat :=
  if '0' ≤ c ∧ c ≤ '9' then some (c.toNat - '0'.toNat)
  else if 'a' ≤ c ∧ c ≤ 'f' then some (c.toNat - 'a'.toNat + 10)
  else if 'A' ≤ c ∧ c ≤ 'F' then some (c.toNat - 'A'.toNat + 10)
  else none

/-- The value of a hexadecimal byte: one or two digits, or a plus sign and one
digit. -/
def hexByte? : List Char → Option Nat
  | [a] => digitValue? a
  | ['+', b] => digitValue? b
  | [a, b] => do return 16 * (← digitValue? a) + (← digitValue? b)
  | _ => none

/-- The character a one-letter escape stands for. -/
def simple? : Char → Option Char
  | 'n' => some '\n'
  | 't' => some '\t'
  | 'r' => some '\r'
  | '0' => some '\x00'
  | '\\' => some '\\'
  | '\'' => some '\''
  | '"' => some '"'
  | _ => none

/-- The body of a literal with its escapes replaced. The escape `\x` takes the
two characters after it, or the one that is left. -/
def decode : List Char → Except Fault (List Char)
  | [] => .ok []
  | '\\' :: [] => .error .dangling
  | '\\' :: 'x' :: a :: b :: rest =>
    match hexByte? [a, b] with
    | some n => do return Char.ofNat n :: (← decode rest)
    | none => .error (.hex [a, b])
  | '\\' :: 'x' :: short =>
    match hexByte? short with
    | some n => .ok [Char.ofNat n]
    | none => .error (.hex short)
  | '\\' :: c :: rest =>
    match simple? c with
    | some d => do return d :: (← decode rest)
    | none => .error (.unknown c)
  | c :: rest => do return c :: (← decode rest)

end TapeC.Text.Escaped
