import TapeC.Disk
import TapeC.Token.Scan

/-! Include directives. The tokens of an included file take the place of the
directive. A file is included only once, so files that include each other in a
circle do no harm. -/

namespace TapeC

namespace Include

/-- Why a file cannot be included. -/
inductive Cause where
  | unknownName
  | notOnSearchPath
  | unreadable (fault : Disk.Fault)
deriving DecidableEq, Repr

def Cause.message : Cause → String
  | unknownName => "no such file"
  | notOnSearchPath => "not found in any library search path"
  | unreadable fault => fault.message

/-- Where included files come from. A file is known by its key. -/
structure Library where
  /-- The keys of all files. -/
  keys : List String
  /-- The key and the text of the file that a directive names. It is given the key of
  the file that holds the directive, unless that is the first one. -/
  resolve : (path : String) → (quoted : Bool) → (includer : Option String) →
    Except Cause (String × String)
  mem_keys : ∀ {path quoted includer key text},
    resolve path quoted includer = .ok (key, text) → key ∈ keys

/-! ### Libraries -/

/-- Files known by the names that directives give. -/
def Library.ofNames (files : List (String × String)) : Library where
  keys := files.map (·.1)
  resolve path _ _ :=
    match files.find? (·.1 == path) with
    | some file => .ok file
    | none => .error .unknownName
  mem_keys h := by
    split at h
    · rename_i file hf
      simp only [Except.ok.injEq] at h
      have := List.mem_of_find?_eq_some hf
      subst h
      exact List.mem_map_of_mem this
    · simp at h

/-- The file at a path, with its canonical path as the key. -/
def readKeyed (disk : Disk) (path : String) : Except Cause (String × String) :=
  match disk.readText path with
  | .ok (key, text) => .ok (Disk.render key, text)
  | .error fault => .error (.unreadable fault)

/-- Where the file of a directive may be. A quoted path is looked up in the directory
of the file that holds the directive, or in `root` if that is the first one; any other
path is looked up in the directories of `search`, in order. -/
def candidates (search : List String) (root : String) (path : String) (quoted : Bool)
    (includer : Option String) : List String :=
  if quoted then [Disk.join (includer.elim root Disk.parent) path]
  else search.map (Disk.join · path)

/-- The place that is read. A quoted path has to lead to a file; of the places where any
other path may lead, the first one that holds a file is taken. -/
def chosen? (disk : Disk) (places : List String) (quoted : Bool) : Option String :=
  if quoted then places.head? else places.find? disk.isFile

/-- Files on a disk. -/
def Library.ofDisk (disk : Disk) (search : List String) (root : String) : Library where
  keys := disk.files.map fun file => Disk.render file.1
  resolve path quoted includer :=
    match chosen? disk (candidates search root path quoted includer) quoted with
    | some found => readKeyed disk found
    | none => .error .notOnSearchPath
  mem_keys h := by
    have read : ∀ {path key text}, readKeyed disk path = .ok (key, text) →
        key ∈ disk.files.map fun file => Disk.render file.1 := by
      intro path key text h
      unfold readKeyed at h
      split at h
      · rename_i key' text' hr
        simp only [Except.ok.injEq, Prod.mk.injEq] at h
        obtain ⟨bytes, hm⟩ := Disk.mem_files_of_readText hr
        exact List.mem_map.2 ⟨_, hm, h.1⟩
      · simp at h
    split at h
    · exact read h
    · simp at h

/-! ### Expansion -/

/-- Why directives cannot be expanded. -/
inductive Fault where
  | unresolved (path : String) (cause : Cause)
  /-- An included file cannot be cut into tokens. -/
  | lexical (position : Position) (fault : Token.Fault)
deriving DecidableEq, Repr

/-- The number of files that have not been included. -/
def remaining (lib : Library) (included : List String) : Nat :=
  lib.keys.countP (· ∉ included)

theorem remaining_cons_lt {lib : Library} {key : String} {included : List String}
    (h : key ∈ lib.keys) (hn : key ∉ included) :
    remaining lib (key :: included) < remaining lib included := by
  unfold remaining
  generalize lib.keys = keys at h
  induction keys with
  | nil => simp at h
  | cons k keys ih =>
    have le : keys.countP (· ∉ key :: included) ≤ keys.countP (· ∉ included) :=
      List.countP_mono_left fun k _ => by simp +contextual
    by_cases hk : k = key
    · subst hk
      rw [List.countP_cons_of_neg (by simp), List.countP_cons_of_pos (by simpa using hn)]
      exact Nat.lt_succ_of_le le
    · have := ih (by simpa [Ne.symm hk] using h)
      have hk : k ∉ key :: included ↔ k ∉ included := by simp [hk]
      simpa only [List.countP_cons, hk, Nat.add_lt_add_iff_right] using this

/-- A token and the key of the file that holds it, unless that is the first one. -/
abbrev Pending := Option String × Token

/-- The tokens of an included file, without the mark of its end. -/
def enter (key : String) (tokens : List Token) : List Pending :=
  (tokens.filter (·.kind != .endOfFile)).map (some key, ·)

/-- Expands the directives among pending tokens, when some files are included already.
Returns the tokens and all files that are included then. A file is entered by putting
its own tokens in front of those that are pending. -/
def expandFrom (lib : Library) (included : List String) :
    List Pending → Except Fault (List Token × List String)
  | [] => .ok ([], included)
  | (includer, token) :: pending =>
    match token.kind with
    | .include path quoted =>
      match _ : lib.resolve path quoted includer with
      | .error cause => .error (.unresolved path cause)
      | .ok (key, text) =>
        if _ : key ∈ included then expandFrom lib included pending
        else
          match Token.scan text with
          | .error (p, fault) => .error (.lexical p fault)
          | .ok tokens => expandFrom lib (key :: included) (enter key tokens ++ pending)
    | _ => do
      let (tokens, included) ← expandFrom lib included pending
      return (token :: tokens, included)
termination_by pending => (remaining lib included, pending.length)
decreasing_by
  · exact .right _ (by simp)
  · exact .left _ _ (remaining_cons_lt (lib.mem_keys ‹_›) ‹_›)
  · exact .right _ (by simp)

/-- The tokens of a program, whose first file is not counted as included. -/
def expand (lib : Library) (tokens : List Token) : Except Fault (List Token) := do
  let (tokens, _) ← expandFrom lib [] (tokens.map (none, ·))
  return tokens

end Include
end TapeC
