import TapeC.Proofs.Builtin
import TapeC.Proofs.Endless
import TapeC.Proofs.Vicinity

/-! Reading a line. A number is read up to the first line feed, from any tape, and nothing after that is
taken from the input. An input without a line feed, whose end is read as zeros without an end, is read
forever: no round of the loop ends it, and each brings the head back to where it was. -/

namespace TapeC.Routine.Builtin

open Tape Code Config TextMachine

variable {input : List Cell} {v : Cell} {s : Config}

/-! ### Inputs with a line feed -/

/-- The input up to the first line feed. -/
def firstLine (input : List Cell) : List Cell := input.takeWhile (· != 10)

/-- A line behind the digits that stand for `v` makes it this number, of which a cell holds what it can.
Bytes that are no digits count as if they were. -/
def appendDigits (v : Cell) (line : List Cell) : Cell := line.foldl (fun n byte => n * 10 + (byte - 48)) v

theorem readNumber_of_mem (h : 10 ∈ input) : ∃ rest, input = firstLine input ++ 10 :: rest ∧
    readNumber v input = some (appendDigits v (firstLine input), rest) := by
  induction input generalizing v with
  | nil => cases h
  | cons byte input ih =>
    by_cases hbyte : byte = 10
    · subst hbyte
      exact ⟨input, rfl, rfl⟩
    · have hline : firstLine (byte :: input) = byte :: firstLine input :=
        List.takeWhile_cons_of_pos (bne_iff_ne.2 hbyte)
      obtain ⟨rest, hrest, hread⟩ := ih (v := v * 10 + (byte - 48)) ((List.mem_cons.1 h).resolve_left (Ne.symm hbyte))
      refine ⟨rest, ?_, ?_⟩
      · rw [hline, List.cons_append, ← hrest]
      · rw [readNumber, if_neg hbyte, hread, hline]
        rfl

/-! ### Inputs without a line feed -/

theorem endless_readDigits {p : Nat} {x : Cell} (h : 10 ∉ s.input) :
    Endless (Among p 4) (loop readDigit) (s.window p [v, 0, x, 1] 3) := by
  refine endless_loop (I := fun t => ∃ s v x, 10 ∉ s.input ∧ t = s.window p [v, 0, x, 1] 3) ?_ ⟨s, v, x, h, rfl⟩
  rintro _ ⟨s, v, x, h, rfl⟩
  have hne : s.input.headD 0 ≠ 10 := by
    cases hi : s.input with
    | nil => decide
    | cons byte bytes => exact fun hb => h (hi ▸ hb ▸ List.mem_cons_self)
  have hround := (runs_readDigit (s := s) (v := v) (x := x) (Nat.le_refl p)).2 rfl
  rw [if_neg hne] at hround
  have htakes := takes_of_stays (b := readDigit) (n := 4) (i := 3) rfl (by decide) rfl hround
  exact ⟨by simp [cell_window], among_add rfl (by decide), _, htakes.2, rfl, s.setInput s.input.tail, _, _,
    fun hmem => h (List.mem_of_mem_tail hmem), rfl⟩

theorem endless_readInt (h : 10 ∉ s.input) : Endless (Among s.head 4) readInt.body s := by
  have hruns : Runs s.head _ s _ := runs_readInt_start
  have hstart := takes_of_stays (n := 4) (i := 0) (j := 3) rfl (by decide) rfl hruns
  exact (hstart.2.endless rfl (endless_readDigits h)).append

/-! ### All inputs -/

/-- The first line of an input is read from any tape, together with its line feed. The number it stands
for is left where the head is, which is not on any other cells than that and the three after it, and
nothing is written. An input without a line feed is read without end. -/
theorem readInt_reads_line (p : Nat) (cells : Int → Cell) (input output : List Cell) :
    (10 ∈ input → ∃ v, EndsAmong readInt.body.listing.chars 4 ⟨0, p, cells, input, output⟩ v ∧
      Machine.ComesTo readInt.body ⟨0, p, cells, input, output⟩ v ∧ v.head = p ∧
      v.cells p = appendDigits 0 (firstLine input) ∧ input = firstLine input ++ 10 :: v.input ∧ v.output = output) ∧
    (10 ∉ input → ReportsForever readInt.body [] ⟨0, p, cells, input, output⟩) := by
  constructor
  · intro h
    obtain ⟨rest, hrest, hread⟩ := readNumber_of_mem h
    have hruns := runs_readInt (s := ⟨p, fun y => cells y, input, output⟩) (Nat.le_refl _) hread
    obtain ⟨v, hv, hvt, hcomes⟩ := endsAmong_of_stays (n := 4) (by decide) rfl rfl shows_cells hruns
    have hvalue : v.cells p = appendDigits 0 (firstLine input) :=
      (hvt.cells p).trans (cells_window_add (j := 0) (by simp))
    have hinput : v.input = rest := hvt.input
    exact ⟨v, hv, hcomes, hvt.head, hvalue, hinput ▸ hrest, hvt.output⟩
  · intro h
    exact reportsForever_of_endless rfl shows_cells (endless_readInt (s := ⟨p, fun y => cells y, input, output⟩) h)

/-- Three digits, of which a cell holds no more than it can, before a line feed and another digit; and a
digit before the end of the input. -/
theorem readInt_reads_line_of_digits :
    (∃ v, EndsAmong readInt.body.listing.chars 4 ⟨0, 2, fun _ => 9, [51, 48, 55, 10, 56], [7]⟩ v ∧
      Machine.ComesTo readInt.body ⟨0, 2, fun _ => 9, [51, 48, 55, 10, 56], [7]⟩ v ∧ v.head = 2 ∧ v.cells 2 = 51 ∧
      [51, 48, 55, 10, 56] = [51, 48, 55] ++ 10 :: v.input ∧ v.output = [7]) ∧
    ReportsForever readInt.body [] ⟨0, 2, fun _ => 9, [51], [7]⟩ :=
  ⟨(readInt_reads_line 2 (fun _ => 9) [51, 48, 55, 10, 56] [7]).1 (by decide),
    (readInt_reads_line 2 (fun _ => 9) [51] [7]).2 (by decide)⟩

end TapeC.Routine.Builtin
