import TapeC.Text.Quoted

/-! Structured documents and their text. Each item of a list and each field of a
record stands on a line of its own, two spaces further in than what holds it. -/

namespace TapeC

inductive Document where
  | null
  | bool (value : Bool)
  | int (value : Int)
  | text (value : String)
  | list (items : List Document)
  /-- Named values, in the order in which they are written. -/
  | record (fields : List (String × Document))

namespace Document

/-- One value under a name, as the kind of a node is told. -/
def tagged (name : String) (value : Document) : Document := record [(name, value)]

def ofOption {α : Type} (f : α → Document) : Option α → Document
  | none => null
  | some a => f a

def ofList {α : Type} (f : α → Document) (as : List α) : Document := list (as.map f)

/-! ### Text -/

/-- The start of a new line, `depth` levels in. -/
def newline (depth : Nat) : String := String.ofList ('\n' :: List.replicate (2 * depth) ' ')

mutual
/-- The text of a document that stands `depth` levels in. -/
def renderAt (depth : Nat) : Document → String
  | null => "null"
  | bool value => if value then "true" else "false"
  | int value => toString value
  | text value => Text.Quoted.encode value
  | list [] => "[]"
  | list (d :: ds) =>
    "[" ++ newline (depth + 1) ++ renderAt (depth + 1) d ++ renderItems (depth + 1) ds ++
      newline depth ++ "]"
  | record [] => "\x7b\x7d"
  | record ((name, d) :: fields) =>
    "\x7b" ++ newline (depth + 1) ++ renderField (depth + 1) name d ++
      renderFields (depth + 1) fields ++ newline depth ++ "\x7d"

/-- The items after the first one. -/
def renderItems (depth : Nat) : List Document → String
  | [] => ""
  | d :: ds => "," ++ newline depth ++ renderAt depth d ++ renderItems depth ds

def renderField (depth : Nat) (name : String) (d : Document) : String :=
  Text.Quoted.encode name ++ ": " ++ renderAt depth d

/-- The fields after the first one. -/
def renderFields (depth : Nat) : List (String × Document) → String
  | [] => ""
  | (name, d) :: fields =>
    "," ++ newline depth ++ renderField depth name d ++ renderFields depth fields
end

def render (d : Document) : String := d.renderAt 0

end Document
end TapeC
