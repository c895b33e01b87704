import TapeC.Proofs.Endless
import TapeC.Proofs.Operator

/-! A divisor that is zero is reported, and then nothing follows. What reports it stands in the arm
of a test for zero and overwrites the flag of that test, so that it is followed to the loop in which
it ends: there a step leaves everything as it is, and so do all steps after it. -/

namespace TapeC.Routine

open Tape Code Config TextMachine

variable {p : Nat} {s : Config}

/-- The bytes of the message about a divisor that is zero. -/
def divisionBytes : List Cell := Text.bytes divisionMessage.toList

theorem hangs_reportZeroDivisor (hs : s.head = p + 3) :
    ∃ t, Hangs (Among p 6) reportZeroDivisor s t ∧ t.output = s.output ++ divisionBytes := by
  have hwrite := runs_writeBytes (Nat.le_refl s.head) divisionBytes
  have htakes := (takes_of_stays (n := 6) (stays_writeBytes (by decide)) (by decide) hs hwrite).2
  refine ⟨_, htakes.hangs (hangs_loop_skip ?_ (among_add (i := 3) hs (by decide))), rfl⟩
  rw [cell_window (by simp)]
  decide +kernel

theorem hangs_ifZero (hs : s.head = p + 3) (h : s.cell = 0) :
    ∃ t, Hangs (Among p 6) (ifZero reportZeroDivisor 1) s t ∧ t.output = s.output ++ divisionBytes := by
  have hstart := takes_of_stays (n := 6) (i := 3) (j := 4) rfl (by decide) hs
    (runs_ifZero_start Nat.one_pos (Nat.le_refl s.head) h)
  have hleft : Runs s.head (left 1) ((s.put (s.head + 1) 1).goto (s.head + 1)) (s.put (s.head + 1) 1) :=
    (runs_left (by simp)).2 (by simp)
  have hleft := (takes_of_stays (n := 6) (i := 4) (j := 3) rfl (by decide) hstart.1 hleft).2
  obtain ⟨t, ht, houtput⟩ := hangs_reportZeroDivisor (s := s.put (s.head + 1) 1) hs
  have hround := (hleft.hangs ht).append (b := right 1) |>.append (b := dec 1)
  exact ⟨t, (hstart.2.hangs (hround.loop (by simp [Config.cell]) (among_add hstart.1 (by decide)))).append, houtput⟩

/-- The test of a divisor that is zero. -/
theorem hangs_checkDivisor (h : s.cells (s.head + 1) = 0) :
    ∃ t, Hangs (Among s.head 6) checkDivisor s t ∧ t.output = s.output ++ divisionBytes := by
  have hstart := runs_checkDivisor_start (s := s) (a := s.cell) (c := s.cells (s.head + 2)) (d := s.cells (s.head + 3))
    [] (Nat.le_refl s.head)
  have hwin : s = s.window s.head [s.cell, 0, s.cells (s.head + 2), s.cells (s.head + 3)] 0 := by
    conv_lhs => rw [eq_window s 4]
    rw [← h]
    rfl
  rw [← hwin] at hstart
  have htakes := takes_of_stays (n := 6) (i := 0) (j := 3) rfl (by decide) rfl hstart
  obtain ⟨t, ht, houtput⟩ := hangs_ifZero htakes.1 (cell_window (by simp))
  exact ⟨t, (htakes.2.hangs ht).append, houtput⟩

theorem hangs_divideWithRemainder (h : s.cells (s.head + 1) = 0) :
    ∃ t, Hangs (Among s.head 6) (divideWithRemainder true) s t ∧ t.output = s.output ++ divisionBytes := by
  obtain ⟨t, ht, houtput⟩ := hangs_checkDivisor h
  have ht : Hangs (Among s.head 6) (if true then checkDivisor else skip) s t := ht
  exact ⟨t, ht.append.append.append.append.append.append.append.append.append.append, houtput⟩

/-- A zero divisor is reported, and nothing follows. -/
theorem zero_divisor_reported (p : Nat) (cells : Int → Cell) (input output : List Cell) (h : cells (p + 1) = 0) :
    ReportsForever (divide true) divisionBytes ⟨0, p, cells, input, output⟩ ∧
      ReportsForever (modulo true) divisionBytes ⟨0, p, cells, input, output⟩ := by
  obtain ⟨t, ht, houtput⟩ := hangs_divideWithRemainder (s := ⟨p, fun y => cells y, input, output⟩) h
  constructor
  · exact reportsForever_of_hangs rfl shows_cells ht.append.append.append.append.append.append.append houtput
  · exact reportsForever_of_hangs rfl shows_cells ht.append.append.append.append.append.append.append houtput

theorem zero_divisor_reported_on_empty_tape :
    ReportsForever (divide true) divisionBytes ⟨0, 2, fun _ => 0, [], []⟩ ∧
      ReportsForever (modulo true) divisionBytes ⟨0, 2, fun _ => 0, [], []⟩ :=
  zero_divisor_reported 2 (fun _ => 0) [] [] rfl

end TapeC.Routine
