import TapeC.Text.Bytes
import TapeC.Layout.Shape

/-! What the cells of a variable start out with. An initializer is laid out over a
region of cells: nested lists fill one row each, strings give their bytes, and
what is too short is filled up with zeros. -/

namespace TapeC.Layout

open Program

/-- What one cell starts out with. -/
inductive Content (ε : Type) where
  | byte (value : Cell)
  | value (e : ε)

/-- Whether an initializer is a list in braces. -/
def isList {ε : Type} : Initializer ε → Bool
  | .list _ _ => true
  | _ => false

/-- The contents of a region of `room` cells, filled up with zeros if `fill` holds.
More contents than cells are refused. -/
def bounded {ε : Type} (name : String) (position : Position) (room : Nat) (fill : Bool)
    (cells : List (Content ε)) : Except CompileFault (List (Content ε)) :=
  if room < cells.length then
    .error (.semantic position (.tooManyValues name cells.length room))
  else if fill then .ok (cells ++ List.replicate (room - cells.length) (.byte 0))
  else .ok cells

mutual
/-- Lays out an initializer over elements of `size` cells in the given dimensions. -/
def region {ε : Type} (name : String) (position : Position) (dims : List Nat) (size : Nat)
    (fill : Bool) : Initializer ε → Except CompileFault (List (Content ε))
  | .single e => bounded name position (elements dims * size) fill [.value e]
  | .text s _ => bounded name position (elements dims * size) fill ((Text.bytes s.toList).map .byte)
  | .list items _ => do
    bounded name position (elements dims * size) fill (← regionItems name position dims size items)

/-- Lays out the items of a list. A nested list fills a row, or the rest of an
element; any other item is a single cell. -/
def regionItems {ε : Type} (name : String) (position : Position) (dims : List Nat) (size : Nat) :
    List (Initializer ε) → Except CompileFault (List (Content ε))
  | [] => .ok []
  | item :: items => do
    let cells ←
      if isList item then
        match dims with
        | _ :: rows => region name position rows size true item
        | [] => region name position [] size false item
      else region name position [] 1 false item
    return cells ++ (← regionItems name position dims size items)
end

/-- Lays out the initializer of a variable. A single value fills a single cell. -/
def layOutContents {ε : Type} (place : ε → Position) (name : String) (position : Position)
    (shape : Shape) : Initializer ε → Except CompileFault (List (Content ε))
  | .single e =>
    if shape.size = 1 then .ok [.value e] else .error (.semantic (place e) (.notOneCell name))
  | contents => region name position shape.dims shape.type.size true contents

end TapeC.Layout
