import TapeC.Proofs.Transfer
import TapeC.Routine.Comparison

/-! Comparisons of two adjacent cells, from every tape. An ordering counts one operand
down to zero and the other along with it, for as long as that is not zero. -/

namespace TapeC.Routine

open Tape Code Config

variable {floor p : Nat} {s t : Config} {a b c d : Cell}

attribute [local simp] runs_right_window runs_left_window runs_inc_window runs_dec_window
  runs_clear_window runs_pourLeft_window runs_pourRight_window runs_spreadRight_window
  runs_loop_window_of_zero runs_loop_window_of_ne

/-! ### Equality -/

theorem runs_difference (hf : floor ≤ p) :
    Runs floor difference (s.window p [a, b] 0) t ↔ t = s.window p [0, b - a] 0 := by
  have h := runs_drain_to [a, b] [0, b - a] [255, 255] (dec 1 ++ right 1 ++ dec 1 ++ left 1)
      (s := s) (i := 0) hf (by simp) rfl rfl (by simp [addTimes]; grind)
  simp [difference, h.iff]

theorem runs_equal (hf : floor ≤ p) :
    Runs floor equal (s.window p [a, b] 0) t ↔ t = s.window p [Cell.ofBool (a == b), 0] 1 := by
  by_cases h : a = b
  · simp [equal, runs_difference hf, h, Cell.ofBool]
  · have h' : b - a ≠ 0 := by grind
    simp [equal, runs_difference hf, hf, h, h', Cell.ofBool]

theorem runs_notEqual (hf : floor ≤ p) :
    Runs floor notEqual (s.window p [a, b] 0) t ↔ t = s.window p [Cell.ofBool (a != b), 0] 1 := by
  by_cases h : a = b
  · simp [notEqual, runs_difference hf, h, Cell.ofBool]
  · have h' : b - a ≠ 0 := by grind
    simp [notEqual, runs_difference hf, hf, h, h', Cell.ofBool]

/-! ### Counting down to zero -/

/-- What is left of `a` after `n` rounds. -/
def remaining (a : Cell) (n : Nat) : Cell := .ofNat (a.toNat - n)

theorem remaining_zero : remaining a 0 = a := by simp [remaining]

theorem remaining_eq_zero {n : Nat} : remaining a n = 0 ↔ a.toNat ≤ n := by
  have : a.toNat < 256 := UInt8.toNat_lt _
  rw [← UInt8.toNat_inj]
  simp only [remaining, UInt8.toNat_ofNat', UInt8.toNat_zero]
  omega

theorem remaining_succ {n : Nat} :
    remaining a (n + 1) = if remaining a n = 0 then 0 else remaining a n - 1 := by
  split
  next h =>
    rw [remaining_eq_zero] at h ⊢
    omega
  next h =>
    rw [remaining_eq_zero] at h
    rw [remaining, remaining, show a.toNat - n = a.toNat - (n + 1) + 1 by omega, ofNat_succ_sub_one]

/-- A loop that counts `y` down and `x` along with it. A flag tells in each round
whether `x` had run out by then; it starts as if it had not. -/
theorem runs_count_both (floor : Nat) (body : Code) (out left : Cell)
    {W : Cell → Cell → Cell → Config} {x y : Cell}
    (hcell : ∀ u v w, (W u v w).cell = v)
    (hround : ∀ u v w, v ≠ 0 → Runs floor body (W u v w)
      (W (if u = 0 then 0 else u - 1) (v - 1) (if u = 0 then out else left))) :
    Runs floor (loop body) (W x y left)
      (W (remaining x y.toNat) 0 (if x < y then out else left)) := by
  have hlt : y.toNat < 256 := UInt8.toNat_lt _
  have h := runs_loop_of_rounds floor body (n := y.toNat)
      (S := fun k => W (remaining x (y.toNat - k)) (.ofNat k)
        (if x.toNat < y.toNat - k then out else left)) (hcell _ _ _) fun k hk => ⟨?_, ?_⟩
  · simpa [remaining_zero, UInt8.lt_iff_toNat_lt] using h
  · rw [hcell]
    exact ofNat_succ_ne_zero (by omega)
  · have hr := hround (remaining x (y.toNat - (k + 1))) (.ofNat (k + 1))
      (if x.toNat < y.toNat - (k + 1) then out else left) (ofNat_succ_ne_zero (by omega))
    rw [← remaining_succ, ofNat_succ_sub_one, show y.toNat - (k + 1) + 1 = y.toNat - k by omega] at hr
    have hflag : remaining x (y.toNat - (k + 1)) = 0 ↔ x.toNat < y.toNat - k := by
      rw [remaining_eq_zero]
      omega
    simpa only [hflag] using hr

theorem runs_less (hf : floor ≤ p) :
    Runs floor less (s.window p [a, b, c, d] 0) t ↔
      t = s.window p [Cell.ofBool (a < b), 0, 0, 0] 1 := by
  have h := runs_count_both floor (right 1 ++ clear ++ left 2 ++ spreadRight 2 1 ++ right 2 ++
      pourLeft 2 1 ++ inc 1 ++ right 1 ++ loop
          (clear ++ left 1 ++ dec 1 ++ left 2 ++ dec 1 ++ right 3) ++ left 2 ++ dec 1) 1 0
            (W := fun u v w => s.window p [u, v, w, 0] 1) (x := a) (y := b)
              (fun _ _ _ => cell_window (by simp)) fun u v w _ => ?_
  · simp [less, hf, h.iff, Cell.ofBool]
  · by_cases hu : u = 0 <;> simp [hf, hu]

theorem runs_greater (hf : floor ≤ p) :
    Runs floor greater (s.window p [a, b, c, d] 0) t ↔
      t = s.window p [Cell.ofBool (b < a), 0, 0, 0] 1 := by
  have h := runs_count_both floor (right 2 ++ clear ++ left 1 ++ spreadRight 1 1 ++ right 1 ++
      pourLeft 1 1 ++ inc 1 ++ right 1 ++ loop
          (clear ++ left 1 ++ dec 1 ++ left 1 ++ dec 1 ++ right 2) ++ left 3 ++ dec 1) 1 0
            (W := fun u v w => s.window p [v, u, w, 0] 0) (x := b) (y := a)
              (fun _ _ _ => cell_window (by simp)) fun u v w _ => ?_
  · simp [greater, hf, h.iff, Cell.ofBool]
  · by_cases hu : u = 0 <;> simp [hf, hu]

theorem ofBool_le : Cell.ofBool (a ≤ b) = if b < a then 0 else 1 := by
  by_cases h : b < a
  · simp [Cell.ofBool, h, UInt8.not_le.2 h]
  · simp [Cell.ofBool, h, UInt8.not_lt.1 h]

theorem runs_lessOrEqual (hf : floor ≤ p) :
    Runs floor lessOrEqual (s.window p [a, b, c, d] 0) t ↔
      t = s.window p [Cell.ofBool (a ≤ b), 0, 0, 0] 1 := by
  have h := runs_count_both floor (right 2 ++ clear ++ left 1 ++ spreadRight 1 1 ++ right 1 ++
      pourLeft 1 1 ++ right 1 ++ loop (clear ++ left 1 ++ inc 1 ++ left 1 ++ dec 1 ++ right 2) ++
          left 3 ++ dec 1) 0 1 (W := fun u v w => s.window p [v, u, w, 0] 0) (x := b) (y := a)
              (fun _ _ _ => cell_window (by simp)) fun u v w _ => ?_
  · simp [lessOrEqual, hf, h.iff, ofBool_le]
  · by_cases hu : u = 0 <;> simp [hf, hu]

theorem runs_greaterOrEqual (hf : floor ≤ p) :
    Runs floor greaterOrEqual (s.window p [a, b, c, d] 0) t ↔
      t = s.window p [Cell.ofBool (b ≤ a), 0, 0, 0] 1 := by
  have h := runs_count_both floor (right 1 ++ clear ++ left 2 ++ spreadRight 2 1 ++ right 2 ++
      pourLeft 2 1 ++ right 1 ++ loop (clear ++ left 1 ++ inc 1 ++ left 2 ++ dec 1 ++ right 3) ++
          left 2 ++ dec 1) 0 1 (W := fun u v w => s.window p [u, v, w, 0] 1) (x := a) (y := b)
              (fun _ _ _ => cell_window (by simp)) fun u v w _ => ?_
  · simp [greaterOrEqual, hf, h.iff, ofBool_le]
  · by_cases hu : u = 0 <;> simp [hf, hu]

end TapeC.Routine
