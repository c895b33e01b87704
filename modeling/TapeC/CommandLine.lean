import TapeC.CommandLine.Request
import TapeC.Compile
import TapeC.Program.Document

/-! Answering a request on the command line: a source file is compiled, and its program
text is shown, written to a file or run. -/

namespace TapeC.CommandLine

/-- Why a request fails: what was tried, and what went wrong. -/
structure Failure where
  attempt : String
  cause : String

def Failure.text (f : Failure) : String :=
  let cause := String.join ((f.cause.splitOn "\n").map fun line => "\n    " ++ line)
  s!"Error: {f.attempt}\n\nCaused by:{cause}\n"

/-- What a request yields. -/
inductive Product where
  | shown (bytes : List UInt8)
  | file (path : String) (bytes : List UInt8)

structure Outcome where
  warnings : List Warning := []
  product : Except Failure Product

/-- What a request does beside writing a file. -/
structure Report where
  exit : UInt32
  stdout : List UInt8
  stderr : List UInt8

def Outcome.report (o : Outcome) : Report :=
  let warnings := String.join (o.warnings.map fun w => w.message ++ "\n")
  match o.product with
  | .ok (.shown bytes) => ⟨0, bytes, Text.utf8 warnings⟩
  | .ok (.file _ _) => ⟨0, [], Text.utf8 warnings⟩
  | .error failure => ⟨1, [], Text.utf8 (warnings ++ failure.text)⟩

/-- The outcome when the file could not be written. -/
def Outcome.unwritten (o : Outcome) (path cause : String) : Outcome :=
  { o with product := .error ⟨"Failed to write " ++ path, cause⟩ }

/-- The report on a command line that is no request. -/
def usage : Report :=
  ⟨2, [], Text.utf8 "Usage: tapec [OPTIONS] <INPUT>\n"⟩

/-- A text as a line that is shown. -/
def line (text : String) : Product := .shown (Text.utf8 (text ++ "\n"))

/-- What becomes of a program text. -/
def deliver (r : Request) (stdin : List UInt8) (text : String) : Except Failure Product :=
  if r.run then
    match do (← Tape.Machine.ofString text).run r.limit 0 stdin with
    | .ok s => .ok (.shown s.output.toList)
    | .error fault => .error ⟨"Program did not finish", (Fault.machine fault).message⟩
  else
    match r.output with
    | some path => .ok (.file path (Text.utf8 text))
    | none => .ok (line text)

/-- The outcome of a request, where the file that it yields is still to be written. -/
def answer (disk : Disk) (r : Request) (stdin : List UInt8) : Outcome :=
  if r.tree then
    match parseFile disk r.search r.input with
    | .ok p => { product := .ok (line p.document.render) }
    | .error fault => { product := .error ⟨"Failed to parse " ++ r.input, fault.message⟩ }
  else
    match compileFile ⟨r.optimize, r.annotate, r.minify⟩ disk r.search r.input with
    | .ok c => { warnings := c.warnings, product := deliver r stdin c.text }
    | .error fault => { product := .error ⟨"Failed to compile " ++ r.input, fault.message⟩ }

/-- Writes the file of an outcome. -/
def Outcome.save (o : Outcome) (disk : Disk) : Outcome × Disk :=
  match o.product with
  | .ok (.file path bytes) =>
    match disk.write path bytes with
    | .ok disk => (o, disk)
    | .error fault => (o.unwritten path fault.message, disk)
  | _ => (o, disk)

/-- Answers a command line. -/
def run (disk : Disk) (words : List String) (stdin : List UInt8) : Report × Disk :=
  match Request.ofWords? words with
  | none => (usage, disk)
  | some r =>
    let (o, disk) := (answer disk r stdin).save disk
    (o.report, disk)

end TapeC.CommandLine
