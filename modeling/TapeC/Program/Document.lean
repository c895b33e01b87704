import TapeC.Document
import TapeC.Program.Basic

/-! Programs as documents. A node of a syntax tree is told by a record with one value
under the name of its kind, or by that name alone if it carries nothing. -/

namespace TapeC

def Position.document (p : Position) : Document :=
  .record [("line", .int p.line), ("column", .int p.column)]

namespace Program

/-- A field that tells where a node stands. -/
def placeField (p : Position) : String × Document := ("span", p.document)

def dimsField (dims : List Nat) : String × Document :=
  ("dimensions", .ofList (fun n : Nat => .int n) dims)

/-! ### Expressions -/

def BinaryOp.document : BinaryOp → Document
  | add => .text "Add"
  | subtract => .text "Sub"
  | multiply => .text "Mul"
  | divide => .text "Div"
  | modulo => .text "Mod"
  | equal => .text "Eq"
  | notEqual => .text "NotEq"
  | less => .text "Less"
  | lessOrEqual => .text "LessEq"
  | greater => .text "Greater"
  | greaterOrEqual => .text "GreaterEq"
  | bitAnd => .text "BitAnd"
  | bitOr => .text "BitOr"
  | bitXor => .text "BitXor"
  | shiftLeft => .text "Shl"
  | shiftRight => .text "Shr"
  | and => .text "And"
  | or => .text "Or"

def UnaryOp.document : UnaryOp → Document
  | not => .text "Not"
  | complement => .text "BitNot"
  | negate => .text "Negate"

def UpdateOp.document : UpdateOp → Document
  | increment => .text "Increment"
  | decrement => .text "Decrement"
  | timesOne => .text "MulOne"
  | overOne => .text "DivOne"
  | moduloOne => .text "ModOne"

/-- An expression of some kind and its place. -/
def exprDocument (kind : String) (value : Document) (p : Position) : Document :=
  .record [("kind", .tagged kind value), placeField p]

mutual
def Expr.document : Expr → Document
  | .number n p => exprDocument "Number" (.int n) p
  | .char c p => exprDocument "Char" (.int c.toNat) p
  | .bool b p => exprDocument "Bool" (.bool b) p
  | .access name path p =>
    exprDocument "Access" (.record [("name", .text name), ("path", .list (pathDocuments path))]) p
  | .binary op a b p =>
    exprDocument "Binary"
      (.record [("op", op.document), ("left", a.document), ("right", b.document)]) p
  | .unary op e p =>
    exprDocument "Unary" (.record [("op", op.document), ("operand", e.document)]) p
  | .update op before target p =>
    exprDocument "Update"
      (.record [("op", op.document), ("prefix", .bool before), ("target", target.document)]) p
  | .assign target op value p =>
    exprDocument "Assign"
      (.record [("target", target.document), ("op", .ofOption BinaryOp.document op),
        ("value", value.document)]) p
  | .fill target contents p =>
    exprDocument "ArrayAssign"
      (.record [("target", target.document), ("value", contentsDocument contents)]) p
  | .call name args p =>
    exprDocument "Call" (.record [("name", .text name), ("args", .list (argDocuments args))]) p

def pathDocuments : List (Selector Expr) → List Document
  | [] => []
  | .index e :: rest => .tagged "Index" e.document :: pathDocuments rest
  | .field name :: rest => .tagged "Field" (.text name) :: pathDocuments rest

def argDocuments : List Expr → List Document
  | [] => []
  | e :: rest => e.document :: argDocuments rest

def contentsDocument : Initializer Expr → Document
  | .single e => .tagged "Expr" e.document
  | .list items p => .tagged "List" (.list [.list (itemDocuments items), p.document])
  | .text s p => .tagged "String" (.list [.text s, p.document])

def itemDocuments : List (Initializer Expr) → List Document
  | [] => []
  | i :: rest => contentsDocument i :: itemDocuments rest
end

/-! ### Declarations -/

def TypeName.document : TypeName → Document
  | int => .text "Int"
  | struct name => .tagged "Struct" (.text name)

def FieldDef.document (d : FieldDef) : Document :=
  .record [("ty", d.type.document), ("name", .text d.name), dimsField d.dims, placeField d.position]

def StructDef.document (d : StructDef) : Document :=
  .record [("name", .text d.name), ("fields", .ofList FieldDef.document d.fields),
    placeField d.position]

def Declaration.document (d : Declaration) : Document :=
  .record [("ty", d.type.document), ("name", .text d.name), dimsField d.dims,
    ("initializer", .ofOption contentsDocument d.contents), placeField d.position]

/-! ### Statements -/

def CaseLabel.document : CaseLabel → Document
  | value e => .tagged "Value" e.document
  | default => .text "Default"

mutual
def Statement.document : Statement → Document
  | .declare d => .tagged "Declaration" d.document
  | .expr e => .tagged "Expression" e.document
  | .print text p => .tagged "Print" (.record [("text", .text text), placeField p])
  | .block body p => .tagged "Block" (.record [("body", .list (bodyDocuments body)), placeField p])
  | .ifElse c a b p =>
    .tagged "If" (.record [("condition", c.document), ("then_branch", a.document),
      ("else_branch", branchDocument b), placeField p])
  | .whileLoop c body p =>
    .tagged "While" (.record [("condition", c.document), ("body", body.document), placeField p])
  | .doLoop body c p =>
    .tagged "DoWhile" (.record [("body", body.document), ("condition", c.document), placeField p])
  | .forLoop init c step body p =>
    .tagged "For" (.record [("init", branchDocument init),
      ("condition", .ofOption Expr.document c), ("step", .ofOption Expr.document step),
      ("body", body.document), placeField p])
  | .switch value cases p =>
    .tagged "Switch" (.record [("value", value.document), ("cases", .list (caseDocuments cases)),
      placeField p])
  | .returns value p =>
    .tagged "Return" (.record [("value", .ofOption Expr.document value), placeField p])
  | .breaks p => .tagged "Break" (.record [placeField p])
  | .continues p => .tagged "Continue" (.record [placeField p])
  | .empty => .text "Empty"

def branchDocument : Option Statement → Document
  | none => .null
  | some s => s.document

def bodyDocuments : List Statement → List Document
  | [] => []
  | s :: rest => s.document :: bodyDocuments rest

def caseDocuments : List (Case Statement) → List Document
  | [] => []
  | ⟨label, body, hasBreak, unreachable, p⟩ :: rest =>
    .record [("label", label.document), ("body", .list (bodyDocuments body)),
      ("has_break", .bool hasBreak), ("unreachable", .list (bodyDocuments unreachable)),
      placeField p] :: caseDocuments rest
end

/-! ### Functions and programs -/

def ReturnKind.document : ReturnKind → Document
  | void => .text "Void"
  | int => .text "Int"

def Parameter.document (p : Parameter) : Document :=
  .record [("name", .text p.name), placeField p.position]

def FunctionDef.document (d : FunctionDef) : Document :=
  .record [("return_kind", d.returns.document), ("name", .text d.name),
    ("params", .ofList Parameter.document d.params), ("body", .list (bodyDocuments d.body)),
    placeField d.position]

def document (p : Program) : Document :=
  .record [("structs", .ofList StructDef.document p.structs),
    ("globals", .ofList Declaration.document p.globals),
    ("functions", .ofList FunctionDef.document p.functions)]

end Program
end TapeC
