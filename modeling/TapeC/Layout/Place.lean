import TapeC.Layout.Scopes

/-! The cells that an access path selects. Constant indices and fields give a fixed
distance from the first cell of the variable; the other indices give a sum of
terms that is only known at run time. -/

namespace TapeC.Layout

open Program

/-- An index: its value if that is constant, and what computes it. -/
structure Index (κ : Type) where
  constant : Option Cell
  position : Position
  code : κ

/-- An index that is not constant and the cells that it counts in. -/
structure Term (κ : Type) where
  code : κ
  stride : Nat

/-- What a path has selected so far. -/
structure Place (κ : Type) where
  /-- The first cell, but for the terms. -/
  base : Nat
  terms : List (Term κ) := []
  shape : Shape
  /-- The first cell after the variable. -/
  stop : Nat

namespace Place

/-- A path with the indices that follow each other taken together. -/
inductive PathStep (κ : Type) where
  | field (name : String)
  | indices (is : List (Index κ))

def steps {κ : Type} : List (Selector (Index κ)) → List (PathStep κ)
  | [] => []
  | .field name :: rest => .field name :: steps rest
  | .index i :: rest =>
    match steps rest with
    | .indices is :: more => .indices (i :: is) :: more
    | more => .indices [i] :: more

/-- Selects a field of a struct. -/
def select {κ : Type} (name : String) (position : Position) (p : Place κ) (field : String) :
    Except CompileFault (Place κ) :=
  match p.shape with
  | ⟨.struct struct fields, []⟩ =>
    match findField? fields field with
    | some f => .ok { p with base := p.base + f.offset, shape := f.shape }
    | none => .error (.semantic position (.noSuchField struct field))
  | ⟨.struct _ _, _ :: _⟩ => .error (.semantic position (.fieldOfArray name field))
  | ⟨.int, _⟩ => .error (.semantic position (.fieldOfCell name field))

/-- For each dimension its length and the cells that one step in it passes. -/
def strides (size : Nat) : List Nat → List (Nat × Nat)
  | [] => []
  | n :: dims => (n, elements dims * size) :: strides size dims

/-- Moves on by one index. -/
def advance {κ : Type} (name : String) (p : Place κ) (i : Index κ) (length stride : Nat) :
    Except CompileFault (Place κ) :=
  match i.constant with
  | some n =>
    if length ≤ n.toNat then
      .error (.semantic i.position (.outOfBounds n.toNat name length))
    else .ok { p with base := p.base + n.toNat * stride }
  | none => .ok { p with terms := p.terms ++ [⟨i.code, stride⟩] }

/-- Selects an element of an array: by an index for each dimension, or by one index
that runs through all elements. -/
def element {κ : Type} (name : String) (position : Position) (p : Place κ)
    (is : List (Index κ)) : Except CompileFault (Place κ) :=
  let dims := p.shape.dims
  let size := p.shape.type.size
  let p := { p with shape := ⟨p.shape.type, []⟩ }
  if dims.isEmpty then .error (.semantic position (.notAnArray name))
  else if is.length = dims.length then
    (is.zip (strides size dims)).foldlM
      (fun p (i, length, stride) => p.advance name i length stride) p
  else
    match is with
    | [i] => p.advance name i (elements dims) size
    | _ => .error (.semantic position (.indexCount name dims.length is.length))

/-- The place that a path selects in a variable. -/
def ofPath {κ : Type} (v : Variable) (position : Position) (path : List (Selector (Index κ))) :
    Except CompileFault (Place κ) :=
  (steps path).foldlM
    (fun p step =>
      match step with
      | .field field => p.select v.name position field
      | .indices is => p.element v.name position is)
    { base := v.cell, shape := v.shape, stop := v.stop }

end Place
end TapeC.Layout
