/-! Program text for the tape machine. The machine has eight instructions, one
character each; every other character is a comment. A listing is only ever
extended at its end, so that parts which agree on where the head stands between
them are put together by writing one after the other. -/

namespace TapeC.Tape

/-- The instructions: move right and left, add and subtract one, write and read
a byte, begin and end a loop. -/
def instructions : List Char := ['>', '<', '+', '-', '.', ',', '[', ']']

def isInstruction (c : Char) : Bool := instructions.contains c

/-- The instructions of a text, without its comments. -/
def strip (cs : List Char) : List Char := cs.filter isInstruction

/-- A comment on a line of its own. Instructions and line feeds are left out of
it, so that it neither runs nor ends early. -/
def commentChars (text : List Char) : List Char :=
  '\n' :: text.filter (fun c => !isInstruction c && c ≠ '\n') ++ ['\n']

/-- A program text under construction. -/
structure Listing where
  chars : List Char := []
deriving DecidableEq, Inhabited

namespace Listing

def ofString (s : String) : Listing := ⟨s.toList⟩

def text (l : Listing) : String := String.ofList l.chars

def append (l m : Listing) : Listing := ⟨l.chars ++ m.chars⟩

instance : Append Listing := ⟨append⟩

def right (l : Listing) (n : Nat) : Listing := ⟨l.chars ++ List.replicate n '>'⟩

def left (l : Listing) (n : Nat) : Listing := ⟨l.chars ++ List.replicate n '<'⟩

def inc (l : Listing) (n : Nat) : Listing := ⟨l.chars ++ List.replicate n '+'⟩

def dec (l : Listing) (n : Nat) : Listing := ⟨l.chars ++ List.replicate n '-'⟩

/-- Moves the head by a signed distance. -/
def shift (l : Listing) (n : Int) : Listing :=
  if 0 ≤ n then l.right n.natAbs else l.left n.natAbs

/-- Empties the cell under the head. -/
def clear (l : Listing) : Listing := ⟨l.chars ++ ['[', '-', ']']⟩

/-- A loop around `body`. -/
def loop (l body : Listing) : Listing := ⟨l.chars ++ '[' :: body.chars ++ [']']⟩

def comment (l : Listing) (text : String) : Listing := ⟨l.chars ++ commentChars text.toList⟩

/-- The number of instructions. -/
def count (l : Listing) : Nat := l.chars.countP isInstruction

/-- The length of the text in UTF-8. -/
def byteLength (l : Listing) : Nat := l.text.utf8ByteSize

def isEmpty (l : Listing) : Bool := l.chars.isEmpty

end Listing

theorem strip_append (cs ds : List Char) : strip (cs ++ ds) = strip cs ++ strip ds :=
  List.filter_append ..

@[simp] theorem strip_commentChars (text : List Char) : strip (commentChars text) = [] := by
  simp [strip, commentChars, isInstruction, instructions, List.filter_eq_nil_iff]
  grind

end TapeC.Tape
