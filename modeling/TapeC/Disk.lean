import TapeC.Text.Bytes

/-! Files by their paths. A disk is a finite list of files under their canonical
paths; the directories are those that hold a file, and some empty ones. A path is
resolved from left to right, so that each part but the last must be a directory. -/

namespace TapeC

/-- The names from the root to a file or a directory. -/
abbrev CanonicalPath := List String

structure Disk where
  files : List (CanonicalPath × List UInt8) := []
  directories : List CanonicalPath := []
  /-- The directory where relative paths start. -/
  current : CanonicalPath := []

namespace Disk

inductive Fault where
  | missing
  | notDirectory
  | isDirectory
  /-- The bytes are not text in UTF-8. -/
  | notText
  /-- The path holds the character that closes names. -/
  | nulInPath
  | tooLong
deriving DecidableEq, Repr

def Fault.message : Fault → String
  | missing => "No such file or directory (os error 2)"
  | notDirectory => "Not a directory (os error 20)"
  | isDirectory => "Is a directory (os error 21)"
  | notText => "stream did not contain valid UTF-8"
  | nulInPath => "file name contained an unexpected NUL byte"
  | tooLong => "File name too long (os error 36)"

/-! ### Paths -/

/-- A canonical path as a text. -/
def render (p : CanonicalPath) : String := "/" ++ "/".intercalate p

/-- Whether a part of a path stays where it is. -/
def isIdle (part : String) : Bool := part = "" || part = "."

/-- The directory in the path of a file: what stands before its last slash, without the
idle parts at the end of that. The first part is kept, as it tells where the path
starts. -/
def parent (path : String) : String :=
  match (path.splitOn "/").dropLast with
  | [] => ""
  | first :: rest =>
    match (rest.reverse.dropWhile isIdle).reverse with
    | [] => if first = "" then "/" else first
    | rest => "/".intercalate (first :: rest)

/-- A path that starts in a directory, unless it starts at the root itself. -/
def join (directory path : String) : String :=
  if path.startsWith "/" || directory.isEmpty then path
  else if directory.endsWith "/" then directory ++ path
  else directory ++ "/" ++ path

/-! ### Looking up -/

/-- What a path leads to. -/
inductive Place where
  | file (path : CanonicalPath) (bytes : List UInt8)
  | directory (path : CanonicalPath)

/-- Whether something lies below a path, so that it is a directory. -/
def isDirectoryAt (d : Disk) (p : CanonicalPath) : Bool :=
  p.isPrefixOf d.current || d.directories.any p.isPrefixOf ||
    d.files.any fun file => p.isPrefixOf file.1 && p.length < file.1.length

/-- What is stored at a canonical path. -/
def at? (d : Disk) (p : CanonicalPath) : Option Place :=
  match d.files.find? (·.1 == p) with
  | some file => some (.file file.1 file.2)
  | none => if d.isDirectoryAt p then some (.directory p) else none

/-- The longest name of a file, in bytes. -/
def nameLimit : Nat := 255

/-- The longest path that can be looked up, in bytes. -/
def pathLimit : Nat := 4095

/-- Follows the parts of a path. -/
def walk (d : Disk) : Place → List String → Except Fault Place
  | place, [] => .ok place
  | .file _ _, _ :: _ => .error .notDirectory
  | .directory p, part :: parts =>
    if isIdle part then d.walk (.directory p) parts
    else if part = ".." then d.walk (.directory p.dropLast) parts
    else if nameLimit < part.utf8ByteSize then .error .tooLong
    else
      match d.at? (p ++ [part]) with
      | some place => d.walk place parts
      | none => .error .missing

/-- Refuses a path that no file can have. -/
def checkPath (path : String) : Except Fault Unit :=
  if path.contains '\x00' then .error .nulInPath
  else if path.isEmpty then .error .missing
  else if pathLimit < path.utf8ByteSize then .error .tooLong
  else .ok ()

/-- Where a path starts. -/
def origin (d : Disk) (path : String) : CanonicalPath :=
  if path.startsWith "/" then [] else d.current

/-- What a path leads to from the current directory. -/
def find (d : Disk) (path : String) : Except Fault Place := do
  checkPath path
  d.walk (.directory (d.origin path)) (path.splitOn "/")

def isFile (d : Disk) (path : String) : Bool :=
  match d.find path with
  | .ok (.file _ _) => true
  | _ => false

/-- The bytes of a file and its canonical path. -/
def read (d : Disk) (path : String) : Except Fault (CanonicalPath × List UInt8) :=
  match d.find path with
  | .ok (.file p bytes) => .ok (p, bytes)
  | .ok (.directory _) => .error .isDirectory
  | .error fault => .error fault

/-- The text of a file and its canonical path. -/
def readText (d : Disk) (path : String) : Except Fault (CanonicalPath × String) :=
  match d.read path with
  | .ok (p, bytes) =>
    match Text.ofUTF8? bytes with
    | some text => .ok (p, text)
    | none => .error .notText
  | .error fault => .error fault

/-! ### Writing -/

/-- Stores a file at a canonical path, in place of one that is there. -/
def put (d : Disk) (p : CanonicalPath) (bytes : List UInt8) : Disk :=
  { d with files := (p, bytes) :: d.files.filter (·.1 != p) }

/-- Writes a file, whose directory must exist. A path that ends in a slash or in dots
can only name a directory. -/
def write (d : Disk) (path : String) (bytes : List UInt8) : Except Fault Disk := do
  checkPath path
  let parts := (path.splitOn "/").filter (· ≠ "")
  match parts.getLast? with
  | none => .error .isDirectory
  | some name =>
    match ← d.walk (.directory (d.origin path)) parts.dropLast with
    | .file _ _ => .error .notDirectory
    | .directory p =>
      if path.endsWith "/" || name = "." || name = ".." then .error .isDirectory
      else if nameLimit < name.utf8ByteSize then .error .tooLong
      else
        match d.at? (p ++ [name]) with
        | some (.directory _) => .error .isDirectory
        | _ => .ok (d.put (p ++ [name]) bytes)

/-! ### Files that are found are on the disk -/

theorem mem_files_of_at? {d : Disk} {p q : CanonicalPath} {bytes : List UInt8}
    (h : d.at? p = some (.file q bytes)) : (q, bytes) ∈ d.files := by
  unfold at? at h
  split at h
  · rename_i file hf
    simp only [Option.some.injEq, Place.file.injEq] at h
    obtain ⟨rfl, rfl⟩ := h
    exact List.mem_of_find?_eq_some hf
  · split at h <;> simp at h

theorem mem_files_of_walk {d : Disk} {q : CanonicalPath} {bytes : List UInt8} (place : Place)
    (parts : List String) (hp : ∀ q bytes, place = .file q bytes → (q, bytes) ∈ d.files)
    (h : d.walk place parts = .ok (.file q bytes)) : (q, bytes) ∈ d.files := by
  induction parts generalizing place with
  | nil => simp only [walk, Except.ok.injEq] at h; exact hp q bytes h
  | cons part parts ih =>
    cases place with
    | file _ _ => simp [walk] at h
    | directory p =>
      simp only [walk] at h
      split at h
      · exact ih _ (by simp) h
      · split at h
        · exact ih _ (by simp) h
        · split at h
          · simp at h
          · split at h
            · rename_i place hat
              exact ih place (fun q bytes hq => mem_files_of_at? (hq ▸ hat)) h
            · simp at h

theorem mem_files_of_read {d : Disk} {path : String} {q : CanonicalPath} {bytes : List UInt8}
    (h : d.read path = .ok (q, bytes)) : (q, bytes) ∈ d.files := by
  unfold read at h
  split at h
  · rename_i p bytes' hf
    simp only [Except.ok.injEq, Prod.mk.injEq] at h
    obtain ⟨rfl, rfl⟩ := h
    unfold find at hf
    cases hc : checkPath path with
    | error _ => simp [hc, bind, Except.bind] at hf
    | ok _ =>
      simp only [hc, bind, Except.bind] at hf
      exact mem_files_of_walk _ _ (by simp) hf
  · simp at h
  · simp at h

theorem mem_files_of_readText {d : Disk} {path : String} {q : CanonicalPath} {text : String}
    (h : d.readText path = .ok (q, text)) : ∃ bytes, (q, bytes) ∈ d.files := by
  unfold readText at h
  split at h
  · rename_i p bytes hr
    split at h
    · simp only [Except.ok.injEq, Prod.mk.injEq] at h
      exact ⟨bytes, h.1 ▸ mem_files_of_read hr⟩
    · simp at h
  · simp at h

end Disk
end TapeC
