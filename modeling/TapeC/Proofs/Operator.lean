import TapeC.Lowering.Operation
import TapeC.Proofs.Arithmetic
import TapeC.Proofs.Bitwise
import TapeC.Proofs.Comparison
import TapeC.Proofs.Track

/-! The programs of the operators compute what the operators mean. A division by zero
that is tested for never ends. -/

namespace TapeC.Lowering

open Layout Program Tape Routine Code Config

variable {floor : Nat} {s : Config} {op : BinaryOp} {check : Bool} {c : Code} {v : Cell}

/-- The program of an operator that evaluates both operands; `check` tells whether a
divisor is tested. -/
def operation? (check : Bool) : BinaryOp → Option Code
  | .add => some add
  | .subtract => some subtract
  | .multiply => some multiply
  | .divide => some (divide check)
  | .modulo => some (modulo check)
  | .equal => some equal
  | .notEqual => some notEqual
  | .less => some less
  | .lessOrEqual => some lessOrEqual
  | .greater => some greater
  | .greaterOrEqual => some greaterOrEqual
  | .bitAnd => some (bitwise .and)
  | .bitOr => some (bitwise .or)
  | .bitXor => some (bitwise .xor)
  | .shiftLeft => some shiftLeft
  | .shiftRight => some shiftRight
  | .and | .or => none

/-- The program takes a few cells from the head on: it leaves `v` in the first of them and empties
the others. -/
def Computes (c : Code) (s : Config) (v : Cell) : Prop :=
  ∃ n, c.stays (n + 1) 0 = some 1 ∧
    ∀ floor ≤ s.head, Runs floor c s (s.window s.head (v :: List.replicate n 0) 1)

theorem computes_of_runs (n : Nat) (hc : c.stays (n + 1) 0 = some 1) (h : ∀ floor ≤ s.head, Runs floor c
    (s.window s.head (s.slice s.head (n + 1)) 0) (s.window s.head (v :: List.replicate n 0) 1)) : Computes c s v := by
  rw [← eq_window] at h
  exact ⟨n, hc, h⟩

theorem Computes.leaves (h : Computes c s v) (hf : floor ≤ s.head) : ∃ t, Runs floor c s t ∧ Leaves s.head v s t := by
  obtain ⟨n, -, h⟩ := h
  exact ⟨_, h floor hf, rfl, cells_window_add (j := 0) (by simp), fun x => cells_window_of_lt, rfl, rfl⟩

theorem operation_computes (op : BinaryOp) (check : Bool) (hc : operation? check op = some c)
    (hv : op.eval? s.cell (s.cells (s.head + 1)) = some v) : Computes c s v := by
  cases op <;> cases hc
  case add => cases hv; exact computes_of_runs 1 rfl fun _ hf => (runs_add hf).2 rfl
  case subtract => cases hv; exact computes_of_runs 1 rfl fun _ hf => (runs_subtract hf).2 rfl
  case multiply => cases hv; exact computes_of_runs 3 rfl fun _ hf => (runs_multiply hf).2 rfl
  case divide =>
    obtain ⟨hb, hv⟩ := Option.ite_none_left_eq_some.1 hv
    cases hv
    exact computes_of_runs 5 stays_divide fun _ hf => (runs_divide hf hb).2 rfl
  case modulo =>
    obtain ⟨hb, hv⟩ := Option.ite_none_left_eq_some.1 hv
    cases hv
    exact computes_of_runs 5 stays_modulo fun _ hf => (runs_modulo hf hb).2 rfl
  case equal => cases hv; exact computes_of_runs 1 rfl fun _ hf => (runs_equal hf).2 rfl
  case notEqual => cases hv; exact computes_of_runs 1 rfl fun _ hf => (runs_notEqual hf).2 rfl
  case less => cases hv; exact computes_of_runs 3 rfl fun _ hf => (runs_less hf).2 rfl
  case lessOrEqual => cases hv; exact computes_of_runs 3 rfl fun _ hf => (runs_lessOrEqual hf).2 rfl
  case greater => cases hv; exact computes_of_runs 3 rfl fun _ hf => (runs_greater hf).2 rfl
  case greaterOrEqual => cases hv; exact computes_of_runs 3 rfl fun _ hf => (runs_greaterOrEqual hf).2 rfl
  case bitAnd => cases hv; exact computes_of_runs 9 rfl fun _ hf => (runs_bitwise hf .and).2 rfl
  case bitOr => cases hv; exact computes_of_runs 9 rfl fun _ hf => (runs_bitwise hf .or).2 rfl
  case bitXor => cases hv; exact computes_of_runs 9 rfl fun _ hf => (runs_bitwise hf .xor).2 rfl
  case shiftLeft => cases hv; exact computes_of_runs 2 rfl fun _ hf => (runs_shiftLeft hf).2 rfl
  case shiftRight => cases hv; exact computes_of_runs 5 rfl fun _ hf => (runs_shiftRight hf).2 rfl

theorem operation_leaves (op : BinaryOp) (check : Bool) (hf : floor ≤ s.head)
    (hc : operation? check op = some c)
    (hv : op.eval? s.cell (s.cells (s.head + 1)) = some v) :
    ∃ t, Runs floor c s t ∧ Leaves s.head v s t :=
  (operation_computes op check hc hv).leaves hf

/-- Without a value there is no end, if the divisor is tested. -/
theorem operation_never (hf : floor ≤ s.head) (hc : operation? true op = some c)
    (hv : op.eval? s.cell (s.cells (s.head + 1)) = none) : Never floor c s := by
  have hdivide (h : s.cells (s.head + 1) = 0) : Never floor (divideWithRemainder true) s := by
    have hs : s = s.window s.head
        (s.cell :: 0 :: s.cells (s.head + 2) :: s.cells (s.head + 3) :: s.cells (s.head + 4) :: [])
          0 := by
      conv_lhs => rw [eq_window s 5]
      rw [← h]
      rfl
    rw [hs]
    exact never_divideWithRemainder hf
  cases op <;> cases hc
  case divide =>
    have hb : s.cells (s.head + 1) = 0 := by simpa [BinaryOp.eval?] using hv
    exact (hdivide hb).append.append.append.append.append.append.append
  case modulo =>
    have hb : s.cells (s.head + 1) = 0 := by simpa [BinaryOp.eval?] using hv
    exact (hdivide hb).append.append.append.append.append.append.append
  all_goals cases hv

/-! ### Other operations on a cell -/

theorem literal_leaves (hf : floor ≤ s.head) :
    ∃ t, Runs floor (literal v) s t ∧ Leaves s.head v s t := by
  obtain ⟨y, h⟩ := runs_literal s.cell (s := s) (v := v) (x := s.cells (s.head + 1)) hf
  exact leaves_of_runs (n := 2) h

theorem logicalNot_computes : Computes logicalNot s (UnaryOp.not.eval s.cell) :=
  computes_of_runs 1 rfl fun _ hf => (runs_logicalNot hf).2 rfl

theorem complement_computes : Computes complement s (UnaryOp.complement.eval s.cell) :=
  computes_of_runs 1 rfl fun _ hf => (runs_complement hf).2 rfl

end TapeC.Lowering
