import TapeC.Tape.Machine

/-! What is asked for on the command line. Options may stand before, between and
behind the name of the source file; after `--` every word is a name. Short flags may
be joined, and an option takes its value from the rest of its own word or else from
the word after it. -/

namespace TapeC.CommandLine

inductive Flag where
  | run
  | minify
  | noOptimize
  | annotate
  /-- Show the syntax tree and stop. -/
  | tree
deriving DecidableEq, Repr

/-- Options that take a value. -/
inductive Setting where
  | output
  | search
  | limit
deriving DecidableEq, Repr

def longFlag? : String → Option Flag
  | "run" => some .run
  | "minify" => some .minify
  | "no-optimize" => some .noOptimize
  | "annotate" => some .annotate
  | "emit-ast" => some .tree
  | _ => none

def longSetting? : String → Option Setting
  | "output" => some .output
  | "include" => some .search
  | "max-steps" => some .limit
  | _ => none

def shortFlag? : Char → Option Flag
  | 'r' => some .run
  | 'm' => some .minify
  | _ => none

def shortSetting? : Char → Option Setting
  | 'o' => some .output
  | 'I' => some .search
  | _ => none

/-- The words of a command line, sorted. -/
structure Arguments where
  flags : List Flag := []
  settings : List (Setting × String) := []
  names : List String := []

/-! ### Single words -/

/-- What one word that starts with a dash asks for: flags, and a setting whose value
is `none` if it is the word after. -/
structure Word where
  flags : List Flag := []
  setting : Option (Setting × Option String) := none

/-- The characters behind a single dash. -/
def Word.ofShort? : List Char → Option Word
  | [] => some {}
  | c :: cs =>
    match shortFlag? c, shortSetting? c with
    | some flag, _ => (ofShort? cs).map fun w => { w with flags := flag :: w.flags }
    | none, some setting =>
      let value :=
        match cs with
        | [] => none
        | '=' :: value => some (String.ofList value)
        | value => some (String.ofList value)
      some { setting := some (setting, value) }
    | none, none => none

/-- The characters behind two dashes. -/
def Word.ofLong? (cs : List Char) : Option Word :=
  let name := String.ofList (cs.takeWhile (· ≠ '='))
  let value :=
    match cs.dropWhile (· ≠ '=') with
    | [] => none
    | _ :: value => some (String.ofList value)
  match longFlag? name, longSetting? name, value with
  | some flag, _, none => some { flags := [flag] }
  | none, some setting, value => some { setting := some (setting, value) }
  | _, _, _ => none

/-- A word that starts with a dash. -/
def Word.ofString? (word : String) : Option Word :=
  match word.toList with
  | '-' :: '-' :: cs => ofLong? cs
  | _ :: cs => ofShort? cs
  | [] => none

/-- Whether a word can be the value of the option before it. -/
def isValue (word : String) : Bool := word = "-" || !word.startsWith "-"

/-! ### Command lines -/

/-- Sorts the words of a command line. -/
def Arguments.ofWords? : List String → Option Arguments
  | [] => some {}
  | word :: rest =>
    if word = "--" then some { names := rest }
    else if isValue word then (ofWords? rest).map fun a => { a with names := word :: a.names }
    else
      match Word.ofString? word with
      | none => none
      | some ⟨flags, none⟩ => (ofWords? rest).map fun a => { a with flags := flags ++ a.flags }
      | some ⟨flags, some (setting, some value)⟩ =>
        (ofWords? rest).map fun a =>
          { a with flags := flags ++ a.flags, settings := (setting, value) :: a.settings }
      | some ⟨flags, some (setting, none)⟩ =>
        match rest with
        | [] => none
        | value :: rest =>
          if isValue value then
            (ofWords? rest).map fun a =>
              { a with flags := flags ++ a.flags, settings := (setting, value) :: a.settings }
          else none

/-- The values given for a setting. -/
def Arguments.values (a : Arguments) (setting : Setting) : List String :=
  (a.settings.filter (·.1 == setting)).map (·.2)

/-- The largest budget that can be asked for. -/
def maxLimit : Nat := 0xFFFFFFFFFFFFFFFF

/-- A budget of operations, in decimal digits. -/
def limit? (text : String) : Option Nat :=
  let digits := if text.startsWith "+" then text.toList.drop 1 else text.toList
  if digits.isEmpty || !digits.all Char.isDigit then none
  else
    let n := digits.foldl (fun n c => 10 * n + (c.toNat - '0'.toNat)) 0
    if n ≤ maxLimit then some n else none

structure Request where
  /-- The source file. -/
  input : String
  /-- The file that the program text is written to. -/
  output : Option String := none
  run : Bool := false
  minify : Bool := false
  optimize : Bool := true
  annotate : Bool := false
  tree : Bool := false
  /-- The directories where included files are looked up. -/
  search : List String := []
  /-- The budget of a run. -/
  limit : Nat := Tape.defaultLimit

/-- The value of a setting that may be given once and is not empty. -/
def single? (values : List String) : Option (Option String) :=
  match values with
  | [] => some none
  | [value] => if value.isEmpty then none else some (some value)
  | _ => none

/-- The request of a command line, unless it is malformed. -/
def Request.ofWords? (words : List String) : Option Request := do
  let a ← Arguments.ofWords? words
  let [input] := a.names | none
  let search := a.values .search
  if input.isEmpty || search.any String.isEmpty || a.flags.eraseDups.length ≠ a.flags.length then
    none
  let output ← single? (a.values .output)
  let limit ←
    match ← single? (a.values .limit) with
    | none => some Tape.defaultLimit
    | some text => limit? text
  return {
    input, output, search, limit
    run := a.flags.contains .run
    minify := a.flags.contains .minify
    optimize := !a.flags.contains .noOptimize
    annotate := a.flags.contains .annotate
    tree := a.flags.contains .tree }

end TapeC.CommandLine
