import TapeC.Tape.Listing

/-! Structured programs for the tape machine. A loop holds its body, so the
brackets of the text of a program are balanced, and moves and additions come in
runs. A note stands in the text as a comment and does nothing when run; a promise
about the tape is not even part of the text. -/

namespace TapeC.Tape

/-- A program of the tape machine. -/
inductive Code where
  | skip
  /-- Moves the head `n` cells right. -/
  | right (n : Nat)
  /-- Moves the head `n` cells left. -/
  | left (n : Nat)
  /-- Adds `n` to the cell under the head. -/
  | inc (n : Nat)
  /-- Subtracts `n` from the cell under the head. -/
  | dec (n : Nat)
  /-- Writes the byte under the head. -/
  | write
  /-- Reads a byte into the cell under the head. -/
  | read
  /-- Repeats `body` while the cell under the head is not zero. -/
  | loop (body : Code)
  | seq (first rest : Code)
  | note (text : String)
  /-- Promises that the cell left of the head holds less than `n`. -/
  | within (n : Nat)
  /-- Promises that the cell `n` left of the head is empty. -/
  | vacant (n : Nat)
deriving DecidableEq, Repr, Inhabited

namespace Code

instance : Append Code := ⟨seq⟩

/-- Empties the cell under the head. -/
def clear : Code := loop (dec 1)

/-- The programs of a list, one after another. -/
def concat : List Code → Code
  | [] => skip
  | [c] => c
  | c :: cs => c ++ concat cs

/-- The text of a program, followed by `rest`. -/
def charsThen : Code → List Char → List Char
  | skip, rest => rest
  | right n, rest => List.replicate n '>' ++ rest
  | left n, rest => List.replicate n '<' ++ rest
  | inc n, rest => List.replicate n '+' ++ rest
  | dec n, rest => List.replicate n '-' ++ rest
  | write, rest => '.' :: rest
  | read, rest => ',' :: rest
  | loop body, rest => '[' :: body.charsThen (']' :: rest)
  | seq a b, rest => a.charsThen (b.charsThen rest)
  | note text, rest => commentChars text.toList ++ rest
  | within _, rest => rest
  | vacant _, rest => rest

/-- The program text. -/
def listing (c : Code) : Listing := ⟨c.charsThen []⟩

def text (c : Code) : String := c.listing.text

/-- The number of instructions in the text. -/
def count : Code → Nat
  | skip => 0
  | right n => n
  | left n => n
  | inc n => n
  | dec n => n
  | write => 1
  | read => 1
  | loop body => body.count + 2
  | seq a b => a.count + b.count
  | note _ => 0
  | within _ => 0
  | vacant _ => 0

theorem charsThen_eq (c : Code) (rest : List Char) :
    c.charsThen rest = c.charsThen [] ++ rest := by
  induction c generalizing rest with
  | loop body ih => simp [charsThen, ih (']' :: rest), ih [']']]
  | seq a b iha ihb => rw [charsThen, charsThen, iha, ihb, iha (b.charsThen [])]; simp
  | _ => simp [charsThen]

theorem listing_seq (a b : Code) : (a ++ b).listing.chars = a.listing.chars ++ b.listing.chars :=
  charsThen_eq a (b.charsThen [])

theorem count_listing (c : Code) : c.listing.count = c.count := by
  induction c with
  | loop body ih =>
    simp only [listing, Listing.count, charsThen, count] at ih ⊢
    rw [charsThen_eq]
    simp [ih, isInstruction, instructions]
  | seq a b iha ihb =>
    simp only [Listing.count] at iha ihb
    rw [Listing.count, show (seq a b).listing.chars = _ from listing_seq a b, List.countP_append,
      iha, ihb, count]
  | note text =>
    have h : strip (commentChars text.toList) = [] := strip_commentChars text.toList
    simpa [listing, Listing.count, charsThen, count, List.countP_eq_length_filter, strip] using h
  | _ => simp [listing, Listing.count, charsThen, count, List.countP_replicate, isInstruction, instructions]

end Code
end TapeC.Tape
