import TapeC.Proofs.Operator
import TapeC.Proofs.Vicinity

/-! The operators work on any tape. Their text, executed one character at a time, ends with the
result where the first operand was. All other cells on which the head stands on the way lie to the
right and end empty; the rest of the tape, which is never looked at, stays as it is. The loaded
program comes to the same end. -/

namespace TapeC.Tape

open Config Code

namespace TextMachine

variable {cs : List Char} {u v : State} {n : Nat} {x : Cell} {s : Config}

/-- The text ends with `x` in the cell where the head was and the head right of it. The other cells on
which the head stands on the way lie to the right and end empty, all others stay as they are, and so
do input and output. -/
structure Exact (cs : List Char) (x : Cell) (u v : State) : Prop where
  halts : Halts cs u v
  head : v.head = u.head + 1
  value : v.cells u.head = x
  visited : ∀ w, Reaches cs u w → w.head = u.head ∨ u.head < w.head ∧ v.cells w.head = 0
  others : ∀ y, (∀ w, Reaches cs u w → w.head ≠ y) → v.cells y = u.cells y
  input : v.input = u.input
  output : v.output = u.output

theorem exact_of_endsAmong (h : EndsAmong cs (n + 1) u v) (hu : u.Shows s)
    (hv : v.Shows (s.window s.head (x :: List.replicate n 0) 1)) : Exact cs x u v := by
  -- the cells of the window
  have hcell (k : Nat) (hk : k < (x :: List.replicate n 0).length) :
      v.cells ((s.head + k : Nat) : Int) = (x :: List.replicate n 0)[k] := by
    rw [hv.cells, cells_window_add]
  have hzero (k : Nat) (hk : k < n) : v.cells ((s.head + (k + 1) : Nat) : Int) = 0 := by
    rw [hcell (k + 1) (by simpa using hk), List.getElem_cons_succ, List.getElem_replicate]
  have hhead : v.head = u.head + 1 := by
    rw [hv.head, head_window, hu.head]
    rfl
  obtain ⟨m, hm⟩ := h.halts.1
  refine ⟨h.halts, hhead, ?_, fun w hw => ?_, fun y => cells_of_run hm, ?_, ?_⟩
  · rw [hu.head]
    exact hcell 0 (Nat.succ_pos _)
  · obtain ⟨hle, hlt⟩ := h.visited w hw
    rw [hu.head] at hle hlt ⊢
    obtain ⟨d, hd⟩ := Int.eq_ofNat_of_zero_le (show 0 ≤ w.head - s.head by omega)
    cases d with
    | zero => exact .inl (by omega)
    | succ d =>
      refine .inr ⟨by omega, ?_⟩
      rw [show w.head = ((s.head + (d + 1) : Nat) : Int) by omega]
      exact hzero d (by omega)
  · rw [hv.input, input_window, hu.input]
  · rw [hv.output, output_window, hu.output]

end TextMachine
end TapeC.Tape

namespace TapeC.Lowering

open Program Tape Routine Code Config TextMachine

variable {c : Code} {u : TextMachine.State} {x : Cell} {s : Config}

/-- The text of the program, executed one character at a time, ends with `x` and is exact; loaded as
a program for the machine it comes to the same end, from every state with the same tape. -/
def RunsExactly (c : Code) (u : TextMachine.State) (x : Cell) : Prop :=
  ∃ v, Exact c.listing.chars x u v ∧ ∃ m, Machine.ofString c.text = .ok m ∧
    ∀ s : Tape.State, s.Sound s.lowest → s.pc = 0 → u.Shows s.config →
      ∃ n t, (∀ limit budget, n ≤ budget → m.runFrom limit budget s = .ok t) ∧ v.Shows t.config ∧ t.lowest = s.lowest

theorem Computes.runsExactly (h : Computes c s x) (hu0 : u.place = 0) (hu : u.Shows s) : RunsExactly c u x := by
  obtain ⟨n, hstays, hruns⟩ := h
  obtain ⟨v, hv, hvt, hcomes⟩ := endsAmong_of_stays (Nat.succ_pos n) hstays hu0 hu (hruns s.head (Nat.le_refl _))
  exact ⟨v, exact_of_endsAmong hv hu hvt, hcomes⟩

/-- The operators compute what they should on any tape, and so do negation and complement. -/
theorem operators_exact (p : Nat) (cells : Int → Cell) (input output : List Cell) :
    (∀ op check c x, operation? check op = some c → op.eval? (cells p) (cells (p + 1)) = some x →
      RunsExactly c ⟨0, p, cells, input, output⟩ x) ∧
    RunsExactly logicalNot ⟨0, p, cells, input, output⟩ (UnaryOp.not.eval (cells p)) ∧
    RunsExactly complement ⟨0, p, cells, input, output⟩ (UnaryOp.complement.eval (cells p)) := by
  refine ⟨fun op check c x hc hx => ?_, ?_, ?_⟩
  · exact (operation_computes (s := ⟨p, fun y => cells y, input, output⟩) op check hc hx).runsExactly rfl shows_cells
  · exact logicalNot_computes.runsExactly rfl shows_cells
  · exact complement_computes.runsExactly rfl shows_cells

/-- Seven by seven, on a tape of sevens. -/
theorem operators_exact_sevens : operation? true .divide = some (divide true) ∧ BinaryOp.divide.eval? 7 7 = some 1 ∧
    RunsExactly (divide true) ⟨0, 2, fun _ => 7, [], []⟩ 1 :=
  ⟨rfl, by decide, (operators_exact 2 (fun _ => 7) [] []).1 .divide true _ 1 rfl (by decide)⟩

end TapeC.Lowering
