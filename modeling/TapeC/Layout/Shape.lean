import TapeC.Diagnostic
import TapeC.Program.Basic

/-! How values are laid out on the tape. A struct is its fields one after another,
and an array is its elements, the last index running fastest. -/

namespace TapeC.Layout

open Program

/-- A field of a struct: `offset` cells from its beginning. -/
structure Field (τ : Type) where
  name : String
  type : τ
  dims : List Nat
  offset : Nat

/-- The type of the elements of a variable. -/
inductive ElementType where
  | int
  | struct (name : String) (fields : List (Field ElementType))

/-- The number of elements of an array; there is one if there are no dimensions. -/
def elements : List Nat → Nat
  | [] => 1
  | n :: dims => n * elements dims

mutual
/-- The cells of one element. -/
def ElementType.size : ElementType → Nat
  | .int => 1
  | .struct _ fields => fieldsSize fields

/-- The cells of fields, one after another. -/
def fieldsSize : List (Field ElementType) → Nat
  | [] => 0
  | ⟨_, type, dims, _⟩ :: rest => elements dims * type.size + fieldsSize rest
end

def ElementType.isInt : ElementType → Bool
  | .int => true
  | .struct _ _ => false

def ElementType.text : ElementType → String
  | .int => "int"
  | .struct name _ => "struct " ++ name

/-- An element, or an array of elements if there are dimensions. -/
structure Shape where
  type : ElementType
  dims : List Nat

namespace Shape

/-- The shape of a single value. -/
def cell : Shape := ⟨.int, []⟩

/-- The cells that a value of this shape takes. -/
def size (s : Shape) : Nat := elements s.dims * s.type.size

/-- Whether a value of this shape is a single one. -/
def isCell (s : Shape) : Bool := s.dims.isEmpty && s.type.isInt

end Shape

def Field.shape (f : Field ElementType) : Shape := ⟨f.type, f.dims⟩

/-! ### Struct definitions -/

/-- A struct with its fields laid out. -/
structure StructLayout where
  name : String
  fields : List (Field ElementType)

namespace StructLayout

def type (s : StructLayout) : ElementType := .struct s.name s.fields

def size (s : StructLayout) : Nat := s.type.size

end StructLayout

def findField? (fields : List (Field ElementType)) (name : String) : Option (Field ElementType) :=
  fields.find? (·.name == name)

/-- The type that a name stands for, among the structs defined so far. -/
def resolveType (structs : List StructLayout) (position : Position) :
    TypeName → Except CompileFault ElementType
  | .int => .ok .int
  | .struct name =>
    match structs.find? (·.name == name) with
    | some s => .ok s.type
    | none => .error (.semantic position (.undefinedStruct name))

/-- One more field behind those laid out so far. -/
def addField (structs : List StructLayout) (struct : String) (fields : List (Field ElementType))
    (f : FieldDef) : Except CompileFault (List (Field ElementType)) := do
  if (findField? fields f.name).isSome then
    throw (.semantic f.position (.fieldRedefined f.name struct))
  if f.type = .struct struct then
    throw (.semantic f.position (.structInItself struct))
  let type ← resolveType structs f.position f.type
  return fields ++ [⟨f.name, type, f.dims, fieldsSize fields⟩]

/-- Lays out a struct whose fields may be of structs defined before it. -/
def layOutStruct (structs : List StructLayout) (d : StructDef) :
    Except CompileFault StructLayout := do
  return ⟨d.name, ← d.fields.foldlM (addField structs d.name) []⟩

end TapeC.Layout
