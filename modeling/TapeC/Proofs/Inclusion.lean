import Mathlib
import TapeC.Compile
import TapeC.Proofs.Splice

/-! Files that are named in a circle do no harm as long as none of them is the first: each comes
once. The first file has no key, so that it is not known again when a directive leads back to it. -/

namespace TapeC.Include

variable {tokens body : List Token} {met : List String} {out : List Pending} {includer : Option String}
  {path key : String} {quoted : Bool}

/-! ### Files known by their names -/

section Names

variable {files : List (String × String)} {name text : String}

theorem resolve_ofNames_iff : (Library.ofNames files).resolve path quoted includer = .ok (key, text) ↔
    key = path ∧ files.lookup path = some text := by
  simp only [Library.ofNames]
  induction files with
  | nil => simp
  | cons file files ih =>
    by_cases h : file.1 = path
    · subst h
      simp [List.lookup, Prod.ext_iff, eq_comm]
    · simpa [List.lookup, h, show (path == file.1) = false by simpa using Ne.symm h] using ih

/-- A name is that of a file with these tokens. -/
def Reads (files : List (String × String)) (name : String) (body : List Token) : Prop :=
  ∃ text, files.lookup name = some text ∧ Token.scan text = .ok body

/-- The names that are found when all files are followed. -/
inductive Named (files : List (String × String)) (tokens : List Token) : String → Prop where
  | first {t : Token} {name : String} {quoted : Bool} (ht : t ∈ tokens) (hkind : t.kind = .include name quoted) :
      Named files tokens name
  | within {t : Token} {name name' : String} {quoted : Bool} {body : List Token} (h : Named files tokens name)
      (hreads : Reads files name body) (ht : t ∈ body) (hkind : t.kind = .include name' quoted) :
      Named files tokens name'

theorem finds_ofNames_iff :
    Finds (.ofNames files) path quoted includer key body ↔ key = path ∧ Reads files path body := by
  simp only [Finds, resolve_ofNames_iff, Reads, and_assoc, exists_and_left]

theorem named_iff :
    Named files tokens name ↔ ∃ quoted includer, Asked (.ofNames files) tokens name quoted includer := by
  constructor
  · intro h
    induction h with
    | first ht hkind => exact ⟨_, none, .first ht hkind⟩
    | within _ hreads ht hkind ih =>
      obtain ⟨_, _, ih⟩ := ih
      exact ⟨_, _, .within ih (finds_ofNames_iff.2 ⟨rfl, hreads⟩) ht hkind⟩
  · rintro ⟨quoted, includer, h⟩
    induction h with
    | first ht hkind => exact .first ht hkind
    | within _ hfinds ht hkind ih => exact .within ih (finds_ofNames_iff.1 hfinds).2 ht hkind

theorem faithful_ofNames : (Library.ofNames files).Faithful := by
  intro path path' _ _ _ _ key text text' h h'
  obtain ⟨rfl, h⟩ := resolve_ofNames_iff.1 h
  obtain ⟨rfl, h'⟩ := resolve_ofNames_iff.1 h'
  exact Option.some.inj (h.symm.trans h')

theorem Expands.mem_iff (h : Expands (.ofNames files) tokens out met) : name ∈ met ↔ Named files tokens name := by
  rw [named_iff]
  constructor
  · intro hname
    obtain ⟨path, quoted, includer, _, hasked, hfinds, -⟩ := h.met_asked hname
    obtain ⟨rfl, -⟩ := finds_ofNames_iff.1 hfinds
    exact ⟨quoted, includer, hasked⟩
  · rintro ⟨quoted, includer, hasked⟩
    obtain ⟨key, _, hfinds, hkey⟩ := h.asked_met faithful_ofNames hasked
    obtain ⟨rfl, -⟩ := finds_ofNames_iff.1 hfinds
    exact hkey

/-- Directives can be expanded just when every file that is reached is there and is cut into
tokens. Each of these files takes the place of the first directive that names it, and its own
tokens come once. -/
theorem expand_splices_each_file_once (files : List (String × String)) (tokens : List Token) :
    ((∃ result, expand (.ofNames files) tokens = .ok result) ↔
      ∀ name, Named files tokens name → ∃ body, Reads files name body) ∧
    (∀ result, expand (.ofNames files) tokens = .ok result ↔
      ∃ out met, Expands (.ofNames files) tokens out met ∧ result = out.map Prod.snd) ∧
    ∀ out met, Expands (.ofNames files) tokens out met →
      (∀ t ∈ out.map Prod.snd, isDirective t = false) ∧
      (out.map Prod.snd).filter (·.kind == .endOfFile) = tokens.filter (·.kind == .endOfFile) ∧
      own none out = tokens.filter (!isDirective ·) ∧
      met.Nodup ∧
      ∀ name, (name ∈ met ↔ Named files tokens name) ∧
        if name ∈ met then ∃ body, Reads files name body ∧ own (some name) out = ordinary body
        else own (some name) out = [] := by
  refine ⟨⟨?_, fun h => ?_⟩, fun _ => expand_iff, fun out met hout => ?_⟩
  · rintro ⟨result, h⟩ name hname
    obtain ⟨out, met, hout, -⟩ := expand_iff.1 h
    obtain ⟨quoted, includer, hasked⟩ := named_iff.1 hname
    obtain ⟨_, body, hfinds, -⟩ := hout.asked_met faithful_ofNames hasked
    exact ⟨body, (finds_ofNames_iff.1 hfinds).2⟩
  · refine exists_expand fun name quoted includer hasked => ?_
    obtain ⟨body, hreads⟩ := h name (named_iff.2 ⟨quoted, includer, hasked⟩)
    exact ⟨name, body, finds_ofNames_iff.2 ⟨rfl, hreads⟩⟩
  · refine ⟨?_, hout.ends, hout.own_none, Spliced.nodup hout List.nodup_nil, fun name => ⟨hout.mem_iff, ?_⟩⟩
    · intro t ht
      obtain ⟨p, hp, rfl⟩ := List.mem_map.1 ht
      exact Spliced.no_directive hout p hp
    · rcases hout.own_some name with ⟨hname, hown⟩ | ⟨hname, _, _, _, body, hfinds, hown⟩
      · rw [if_neg hname]
        exact hown
      · rw [if_pos hname]
        obtain ⟨rfl, hreads⟩ := finds_ofNames_iff.1 hfinds
        exact ⟨body, hreads, hown⟩

end Names

/-! ### Files on a disk -/

section Stored

variable {disk : Disk} {search : List String} {root : String}

/-- A key is that of a file with these tokens. -/
def Stored (disk : Disk) (key : String) (body : List Token) : Prop :=
  ∃ file ∈ disk.files, ∃ text,
    Disk.render file.1 = key ∧ Text.ofUTF8? file.2 = some text ∧ Token.scan text = .ok body

theorem mem_files_of_readKeyed {text : String} (h : readKeyed disk path = .ok (key, text)) :
    ∃ file ∈ disk.files, Disk.render file.1 = key ∧ Text.ofUTF8? file.2 = some text := by
  unfold readKeyed Disk.readText at h
  cases hread : disk.read path with
  | error fault =>
    rw [hread] at h
    cases h
  | ok r =>
    rw [hread] at h
    obtain ⟨p, bytes⟩ := r
    cases htext : Text.ofUTF8? bytes with
    | none =>
      simp only [htext] at h
      cases h
    | some text =>
      simp only [htext] at h
      cases h
      exact ⟨(p, bytes), Disk.mem_files_of_read hread, rfl, htext⟩

theorem stored_of_finds (h : Finds (.ofDisk disk search root) path quoted includer key body) :
    Stored disk key body := by
  obtain ⟨text, hfile, hscan⟩ := h
  simp only [Library.ofDisk] at hfile
  split at hfile
  · obtain ⟨file, hmem, hkey, htext⟩ := mem_files_of_readKeyed hfile
    exact ⟨file, hmem, text, hkey, htext, hscan⟩
  · cases hfile

section Opened

variable {path source : String} {lib : Library} {result : List Token}

theorem parseFile_eq (hopen : openSource disk search path = .ok (source, lib)) (hscan : Token.scan source = .ok tokens)
    (hexpand : expand lib tokens = .ok result) :
    parseFile disk search path = (Grammar.program result).mapError .grammar := by
  have htokens : TapeC.tokens source = .ok tokens := by
    rw [TapeC.tokens, hscan]
    rfl
  have hresult : TapeC.expand lib tokens = .ok result := by
    rw [TapeC.expand, hexpand]
    rfl
  rw [parseFile, hopen]
  simp only [bind, Except.bind, parse, htokens, hresult]

theorem compileFile_eq (hopen : openSource disk search path = .ok (source, lib)) (options : Options) :
    compileFile options disk search path =
      (parseFile disk search path).bind fun p => (p.compile options).mapError .compile := by
  rw [compileFile, parseFile, hopen]
  rfl

/-- What is parsed when a source file is opened: each token of that file once, and in the places of
directives the tokens of any file at most once. The first file is not told from the others
there, so that a directive that leads back to it brings its tokens once more. -/
theorem openSource_splices_each_file_once (hopen : openSource disk search path = .ok (source, lib))
    (hscan : Token.scan source = .ok tokens) (hexpand : expand lib tokens = .ok result) :
    parseFile disk search path = (Grammar.program result).mapError .grammar ∧
    (∀ options, compileFile options disk search path =
      (parseFile disk search path).bind fun p => (p.compile options).mapError .compile) ∧
    ∃ out met, Expands lib tokens out met ∧ result = out.map Prod.snd ∧
      own none out = tokens.filter (!isDirective ·) ∧
      met.Nodup ∧
      ∀ key, if key ∈ met then ∃ body, Stored disk key body ∧ own (some key) out = ordinary body
        else own (some key) out = [] := by
  obtain ⟨out, met, hout, hresult⟩ := expand_iff.1 hexpand
  refine ⟨parseFile_eq hopen hscan hexpand, compileFile_eq hopen, out, met, hout, hresult, hout.own_none,
    Spliced.nodup hout List.nodup_nil, fun key => ?_⟩
  rcases hout.own_some key with ⟨hkey, hown⟩ | ⟨hkey, _, _, _, body, hfinds, hown⟩
  · rw [if_neg hkey]
    exact hown
  · rw [if_pos hkey]
    obtain rfl : lib = .ofDisk disk search (Disk.parent path) := by
      rw [openSource] at hopen
      split at hopen <;> cases hopen
      rfl
    exact ⟨body, stored_of_finds hfinds, hown⟩

end Opened

/-- Two files that include each other. -/
def circle : Disk where
  files := [(["a.c"], Text.utf8 "#include \"b.c\"\nint x;"), (["b.c"], Text.utf8 "#include \"a.c\"\nint y;")]

/-- The tokens of a line `#include "path"`. -/
def directive (path : String) : List Token :=
  [⟨.include path true, "#include \"" ++ path ++ "\"", ⟨1, 1⟩⟩]

/-- The tokens of a second line `int name;`. -/
def declaration (name : String) : List Token :=
  [⟨.keyword .int, "int", ⟨2, 1⟩⟩, ⟨.identifier name, name, ⟨2, 5⟩⟩,
    ⟨.symbol .semicolon, ";", ⟨2, 6⟩⟩]

/-- The mark of the end behind a second line of six characters. -/
def ending : List Token := [⟨.endOfFile, "", ⟨2, 7⟩⟩]

theorem eq_ok_of_toOption {ε α : Type} {x : Except ε α} {a : α} (h : x.toOption = some a) : x = .ok a := by
  cases x with
  | error e => cases h
  | ok b => exact congrArg Except.ok (Option.some.inj h)

theorem circle_open : openSource circle [] "a.c" =
    .ok ("#include \"b.c\"\nint x;", .ofDisk circle [] (Disk.parent "a.c")) := by
  rw [openSource, show circle.readText "a.c" = .ok (["a.c"], "#include \"b.c\"\nint x;") by cbv]

theorem circle_scan_first : Token.scan "#include \"b.c\"\nint x;" =
    .ok (directive "b.c" ++ declaration "x" ++ ending) :=
  eq_ok_of_toOption (by decide +kernel)

theorem circle_scan_second : Token.scan "#include \"a.c\"\nint y;" =
    .ok (directive "a.c" ++ declaration "y" ++ ending) :=
  eq_ok_of_toOption (by decide +kernel)

theorem circle_leads_on : (Library.ofDisk circle [] (Disk.parent "a.c")).resolve "b.c" true none =
    .ok ("/b.c", "#include \"a.c\"\nint y;") := by
  cbv

theorem circle_leads_back : (Library.ofDisk circle [] (Disk.parent "a.c")).resolve "a.c" true (some "/b.c") =
    .ok ("/a.c", "#include \"b.c\"\nint x;") := by
  cbv

theorem circle_leads_on_again : (Library.ofDisk circle [] (Disk.parent "a.c")).resolve "b.c" true (some "/a.c") =
    .ok ("/b.c", "#include \"a.c\"\nint y;") := by
  cbv

theorem circle_enter (key path name : String) : enter key (directive path ++ declaration name ++ ending) =
    (directive path ++ declaration name).map (some key, ·) := by
  simp [enter, directive, declaration, ending]

theorem circle_kept {lib : Library} (met : List String) (label : Option String) (name : String) :
    Spliced lib met ((declaration name).map (label, ·)) ((declaration name).map (label, ·)) met :=
  .kept (by simp [declaration, isDirective])

/-- The first file leads to the second one, which leads back to it. -/
theorem circle_expand : expand (.ofDisk circle [] (Disk.parent "a.c")) (directive "b.c" ++ declaration "x" ++ ending) =
    .ok (declaration "x" ++ declaration "y" ++ declaration "x" ++ ending) := by
  have hinner : Spliced (.ofDisk circle [] (Disk.parent "a.c")) ["/a.c", "/b.c"]
      (enter "/a.c" (directive "b.c" ++ declaration "x" ++ ending))
      ((declaration "x").map (some "/a.c", ·)) ["/a.c", "/b.c"] := by
    rw [circle_enter]
    exact .again rfl circle_leads_on_again (by simp) (circle_kept ..)
  have houter : Spliced (.ofDisk circle [] (Disk.parent "a.c")) ["/b.c"]
      (enter "/b.c" (directive "a.c" ++ declaration "y" ++ ending))
      ((declaration "x").map (some "/a.c", ·) ++ (declaration "y").map (some "/b.c", ·)) ["/a.c", "/b.c"] := by
    rw [circle_enter]
    exact .first rfl ⟨_, circle_leads_back, circle_scan_first⟩ (by simp) hinner (circle_kept ..)
  refine expand_iff.2 ⟨_, _, .first rfl ⟨_, circle_leads_on, circle_scan_second⟩
    List.not_mem_nil houter (.kept ?_), ?_⟩
  · simp [declaration, ending, isDirective]
  · simp [declaration, ending]

/-- Of two files that include each other, the first one is read twice. -/
theorem circle_declares_twice :
    (parseFile circle [] "a.c").toOption.map (·.globals.map (·.name)) = some ["x", "y", "x"] := by
  rw [parseFile_eq circle_open circle_scan_first circle_expand]
  decide +kernel

theorem circle_splices_each_file_once : ∃ out met,
    Expands (.ofDisk circle [] (Disk.parent "a.c")) (directive "b.c" ++ declaration "x" ++ ending) out met ∧
    declaration "x" ++ declaration "y" ++ declaration "x" ++ ending = out.map Prod.snd ∧
    own none out = declaration "x" ++ ending ∧ met.Nodup := by
  obtain ⟨-, -, out, met, hout, hresult, hown, hmet, -⟩ :=
    openSource_splices_each_file_once circle_open circle_scan_first circle_expand
  exact ⟨out, met, hout, hresult, hown.trans (by decide +kernel), hmet⟩

end Stored
end TapeC.Include
