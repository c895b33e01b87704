import TapeC.Layout.Shape

/-! Scopes and the cells of variables. Scopes are nested; a scope takes cells from
the first one that is free when it is entered, and gives them back, with whatever
they hold, when it is left. A name means its innermost declaration. -/

namespace TapeC.Layout

/-- A declared variable and its first cell. -/
structure Variable where
  name : String
  shape : Shape
  cell : Nat

namespace Variable

def size (v : Variable) : Nat := v.shape.size

/-- The first cell after the variable. -/
def stop (v : Variable) : Nat := v.cell + v.size

end Variable

structure Scope where
  /-- The first cell of the scope. -/
  start : Nat
  /-- The first cell that is free. -/
  next : Nat
  /-- The variables declared in the scope, the latest first. -/
  vars : List Variable := []

namespace Scope

/-- A scope without variables. -/
def startingAt (start : Nat) : Scope := { start, next := start }

/-- The cells taken so far. -/
def claimed (s : Scope) : Nat := s.next - s.start

def find? (s : Scope) (name : String) : Option Variable := s.vars.find? (·.name == name)

end Scope

/-- The scopes around a place in the program, of which there is at least one. -/
structure Scopes where
  inner : Scope
  outer : List Scope := []

namespace Scopes

/-- One scope that starts at cell zero. -/
def empty : Scopes := { inner := .startingAt 0 }

/-- One scope that holds variables placed before. -/
def ofGlobals (globals : List Variable) : Scopes :=
  { inner :=
    { start := 0, next := (globals.map Variable.stop).foldl max 0, vars := globals.reverse } }

/-- The first cell that is free. -/
def offset (s : Scopes) : Nat := s.inner.next

/-- The cells taken by the innermost scope. -/
def claimed (s : Scopes) : Nat := s.inner.claimed

def depth (s : Scopes) : Nat := s.outer.length + 1

/-- Enters a scope that starts at the given cell, which is free. -/
def enterAt (s : Scopes) (start : Nat) : Scopes :=
  { inner := .startingAt start, outer := s.inner :: s.outer }

def enter (s : Scopes) : Scopes := s.enterAt s.offset

/-- Leaves the innermost scope, unless it is the only one. Returns the number of
cells given back. -/
def exit (s : Scopes) : Nat × Scopes :=
  match s.outer with
  | [] => (0, s)
  | scope :: outer => (s.claimed, { inner := scope, outer })

/-- Takes cells without a name. -/
def reserve (s : Scopes) (cells : Nat) : Scopes :=
  { s with inner := { s.inner with next := s.inner.next + cells } }

/-- Gives back the last cells that were taken. -/
def release (s : Scopes) (cells : Nat) : Scopes :=
  { s with inner := { s.inner with next := s.inner.next - cells } }

/-- Declares a variable in the innermost scope, which must not have one of its name. -/
def declare (s : Scopes) (name : String) (shape : Shape) (position : Position) :
    Except CompileFault (Variable × Scopes) :=
  if (s.inner.find? name).isSome then .error (.semantic position (.variableRedefined name))
  else
    let v : Variable := ⟨name, shape, s.offset⟩
    .ok (v, { s with
      inner := { s.inner with next := v.stop, vars := v :: s.inner.vars } })

/-- The innermost variable of a name. -/
def find? (s : Scopes) (name : String) : Option Variable :=
  (s.inner :: s.outer).findSome? (·.find? name)

def lookup (s : Scopes) (name : String) (position : Position) : Except CompileFault Variable :=
  match s.find? name with
  | some v => .ok v
  | none => .error (.semantic position (.undefinedVariable name))

end Scopes
end TapeC.Layout
