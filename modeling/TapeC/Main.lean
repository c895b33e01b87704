import TapeC.CommandLine

/-! The command line program. The files that a source file names are gathered before it
is compiled; symbolic links are not followed when files are told apart. -/

namespace TapeC.CommandLine

/-- The canonical path of a path that need not exist. -/
def canonical (disk : Disk) (path : String) : CanonicalPath :=
  (path.splitOn "/").foldl
    (fun p part =>
      if Disk.isIdle part then p else if part = ".." then p.dropLast else p ++ [part])
    (disk.origin path)

/-- Adds what a path leads to, and tells whether it is new. -/
def gatherOne (disk : Disk) (path : String) : IO (Disk × Bool) := do
  let p := canonical disk path
  if disk.files.any (·.1 == p) then return (disk, false)
  try
    let bytes ← IO.FS.readBinFile path
    return (disk.put p bytes.toList, true)
  catch _ =>
    try
      let _ ← IO.FS.realPath path
      return ({ disk with directories := p :: disk.directories }, false)
    catch _ => return (disk, false)

/-- The places that the directives of a file may lead to. -/
def mentioned (search : List String) (path : String) (disk : Disk) : List String :=
  match disk.readText path with
  | .error _ => []
  | .ok (_, text) =>
    match Token.scan text with
    | .error _ => []
    | .ok tokens =>
      tokens.flatMap fun token =>
        match token.kind with
        | .include name quoted => Include.candidates search (Disk.parent path) name quoted none
        | _ => []

/-- Gathers files and the files that they name. -/
partial def gather (search : List String) (disk : Disk) : List String → IO Disk
  | [] => return disk
  | path :: paths => do
    let (disk, isNew) ← gatherOne disk path
    gather search disk (if isNew then mentioned search path disk ++ paths else paths)

partial def readAll (stream : IO.FS.Stream) (bytes : ByteArray) : IO ByteArray := do
  let more ← stream.read 65536
  if more.isEmpty then return bytes else readAll stream (bytes ++ more)

/-- Answers a request with real files. -/
def perform (r : Request) : IO Report := do
  let current := ((← IO.currentDir).toString.splitOn "/").filter (· ≠ "")
  let disk ← gather r.search { current } [r.input]
  let stdin ← if r.run then readAll (← IO.getStdin) .empty else pure .empty
  let outcome := answer disk r stdin.toList
  match outcome.product with
  | .ok (.file path bytes) =>
    try
      IO.FS.writeBinFile path ⟨bytes.toArray⟩
      return outcome.report
    catch e => return (outcome.unwritten path (toString e)).report
  | _ => return outcome.report

end TapeC.CommandLine

def main (words : List String) : IO UInt32 := do
  let report ←
    match TapeC.CommandLine.Request.ofWords? words with
    | none => pure TapeC.CommandLine.usage
    | some r => TapeC.CommandLine.perform r
  (← IO.getStdout).write ⟨report.stdout.toArray⟩
  (← IO.getStderr).write ⟨report.stderr.toArray⟩
  return report.exit
