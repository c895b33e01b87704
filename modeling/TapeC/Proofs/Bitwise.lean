import Mathlib.Algebra.Group.Nat.Defs
import TapeC.Proofs.Transfer
import TapeC.Routine.Bitwise

/-! Bit operations and shifts on two adjacent cells, from every tape. Halving counts a
cell down and keeps the parity of the rounds done, which ends as the low bit. -/

namespace TapeC.Routine

open Tape Code Config

variable {floor p n : Nat} {s t : Config} {a b c d e f u v w x y z : Cell}

attribute [local simp] runs_right_window runs_left_window runs_inc_window runs_dec_window
  runs_clear_window runs_pourLeft_window runs_pourRight_window runs_spreadRight_window
  runs_loop_window_of_zero runs_loop_window_of_ne

/-! ### Single operands -/

theorem runs_logicalNot (hf : floor ≤ p) :
    Runs floor logicalNot (s.window p [a, b] 0) t ↔ t = s.window p [Cell.ofBool (a == 0), 0] 1 := by
  by_cases h : a = 0 <;> simp [logicalNot, hf, h, Cell.ofBool]

theorem runs_complement (hf : floor ≤ p) :
    Runs floor complement (s.window p [a, b] 0) t ↔ t = s.window p [255 - a, 0] 1 := by
  have h := runs_drain_to [0, a + 1] [255 - a, 0] [255, 255] (left 1 ++ dec 1 ++ right 1 ++ dec 1)
      (s := s) (i := 1) hf (by simp) rfl rfl (by simp [addTimes]; grind)
  simp [complement, hf, h.iff]

/-! ### Shifts -/

theorem shiftLeft_eq : Cell.shiftLeft a b = a * .ofNat (2 ^ b.toNat) := by
  rw [← UInt8.toNat_inj, UInt8.toNat_mul, UInt8.toNat_ofNat', Nat.mul_mod_mod]
  by_cases h : b.toNat < 8
  · simp only [Cell.shiftLeft, Cell.bits, h, if_true, UInt8.toNat_shiftLeft, Nat.mod_eq_of_lt h,
      Nat.shiftLeft_eq]
  · obtain ⟨k, hk⟩ := Nat.exists_eq_add_of_le (Nat.not_lt.1 h)
    rw [Cell.shiftLeft, Cell.bits, if_neg h, hk, Nat.pow_add, Nat.mul_left_comm, Nat.mul_mod_right]
    rfl

theorem mul_pow_mul_two {k : Nat} (h : k < n) :
    a * .ofNat (2 ^ (n - (k + 1))) * 2 = a * .ofNat (2 ^ (n - k)) := by
  rw [show n - k = n - (k + 1) + 1 by omega, Nat.pow_succ, UInt8.ofNat_mul, UInt8.mul_assoc]
  rfl

theorem runs_shiftLeft (hf : floor ≤ p) :
    Runs floor shiftLeft (s.window p [a, b, c] 0) t ↔
      t = s.window p [Cell.shiftLeft a b, 0, 0] 1 := by
  have hloop := runs_loop_of_rounds floor (left 1 ++ pourRight 2 1 ++ right 2 ++ pourLeft 2 2 ++
      left 1 ++ dec 1) (n := b.toNat) (S := fun k => s.window p
          [a * .ofNat (2 ^ (b.toNat - k)), .ofNat k, 0] 1)
    (cell_window (by simp)) fun k hk => ⟨?_, ?_⟩
  · simp only [Nat.sub_self, Nat.sub_zero, UInt8.ofNat_toNat, ← shiftLeft_eq, Nat.pow_zero,
      UInt8.reduceOfNat, UInt8.mul_one] at hloop
    simp [shiftLeft, hf, hloop.iff]
  · have : b.toNat < 256 := UInt8.toNat_lt _
    rw [cell_window (by simp)]
    exact ofNat_succ_ne_zero (by omega)
  · simp only [ofNat_succ]
    simp [hf, mul_pow_mul_two hk]

theorem ofNat_div_two (h : n < 256) : UInt8.ofNat (n / 2) = .ofNat n / 2 := by
  rw [← UInt8.toNat_inj, UInt8.toNat_div, UInt8.toNat_ofNat_of_lt' h,
    UInt8.toNat_ofNat_of_lt' (show n / 2 < 256 by omega)]
  rfl

theorem ofNat_mod_two (h : n < 256) : UInt8.ofNat (n % 2) = .ofNat n % 2 := by
  rw [← UInt8.toNat_inj, UInt8.toNat_mod, UInt8.toNat_ofNat_of_lt' h,
    UInt8.toNat_ofNat_of_lt' (show n % 2 < 256 by omega)]
  rfl

theorem ofNat_div_pow_div_two : UInt8.ofNat (a.toNat / 2 ^ n) / 2 = .ofNat (a.toNat / 2 ^ (n + 1)) := by
  have h : a.toNat / 2 ^ n < 256 := Nat.lt_of_le_of_lt (Nat.div_le_self _ _) (UInt8.toNat_lt _)
  rw [← ofNat_div_two h, Nat.pow_succ, Nat.div_div_eq_div_mul]

/-- A loop that counts `a` down. The parity of the rounds done is kept, and every
second round is counted. -/
theorem runs_halve (floor : Nat) (body : Code) {W : Cell → Cell → Cell → Config}
    (hcell : ∀ u x w, (W u x w).cell = u)
    (heven : ∀ u w, Runs floor body (W u 0 w) (W (u - 1) 1 w))
    (hodd : ∀ u w, Runs floor body (W u 1 w) (W (u - 1) 0 (w + 1))) :
    Runs floor (loop body) (W a 0 0) (W 0 (a % 2) (a / 2)) := by
  have hlt : a.toNat < 256 := UInt8.toNat_lt _
  have h := runs_loop_of_rounds floor body (n := a.toNat)
      (S := fun k => W (.ofNat k) (.ofNat ((a.toNat - k) % 2)) (.ofNat ((a.toNat - k) / 2)))
    (hcell _ _ _) fun k hk => ⟨?_, ?_⟩
  · simpa [ofNat_mod_two hlt, ofNat_div_two hlt] using h
  · rw [hcell]
    exact ofNat_succ_ne_zero (by omega)
  · obtain ⟨j, hj⟩ : ∃ j, a.toNat - (k + 1) = j := ⟨_, rfl⟩
    rw [hj, show a.toNat - k = j + 1 by omega]
    rcases Nat.mod_two_eq_zero_or_one j with h | h
    · have hr := heven (.ofNat (k + 1)) (.ofNat (j / 2))
      rw [ofNat_succ_sub_one] at hr
      rwa [h, show (j + 1) % 2 = 1 by omega, show (j + 1) / 2 = j / 2 by omega]
    · have hr := hodd (.ofNat (k + 1)) (.ofNat (j / 2))
      rw [ofNat_succ_sub_one, ← ofNat_succ] at hr
      rwa [h, show (j + 1) % 2 = 0 by omega, show (j + 1) / 2 = j / 2 + 1 by omega]

theorem neg_one_add_one : (-1 : Cell) + 1 = 0 := rfl

theorem shiftRight_eq : Cell.shiftRight a b = .ofNat (a.toNat / 2 ^ b.toNat) := by
  have hlt : a.toNat < 256 := UInt8.toNat_lt _
  rw [← UInt8.toNat_inj, UInt8.toNat_ofNat_of_lt' (Nat.lt_of_le_of_lt (Nat.div_le_self _ _) hlt)]
  by_cases h : b.toNat < 8
  · simp only [Cell.shiftRight, Cell.bits, h, if_true, UInt8.toNat_shiftRight, Nat.mod_eq_of_lt h,
      Nat.shiftRight_eq_div_pow]
  · have : 2 ^ 8 ≤ 2 ^ b.toNat := Nat.pow_le_pow_right (by omega) (by omega)
    rw [Cell.shiftRight, Cell.bits, if_neg h, Nat.div_eq_of_lt (by omega)]
    rfl

theorem runs_shiftRight (hf : floor ≤ p) :
    Runs floor shiftRight (s.window p [a, b, c, d, e, f] 0) t ↔
      t = s.window p [Cell.shiftRight a b, 0, 0, 0, 0, 0] 1 := by
  have hhalf (a x : Cell) := runs_halve floor (dec 1 ++ right 2 ++ dec 1 ++ spreadRight 2 1 ++ right
      3 ++ pourLeft 3 1 ++ left 1 ++ dec 1 ++ loop
          (left 1 ++ inc 1 ++ left 1 ++ inc 2 ++ right 2 ++ inc 1) ++ left 4) (a := a)
            (W := fun u v w => s.window p [u, x, 2 - v, w, 0, 0] 0)
    (fun _ _ _ => cell_window (by simp)) (fun u w => by simp [hf])
    (fun u w => by simp [hf, neg_one_add_one])
  have hloop := runs_loop_of_rounds floor (right 1 ++ inc 2 ++ left 2 ++ loop
      (dec 1 ++ right 2 ++ dec 1 ++ spreadRight 2 1 ++ right 3 ++ pourLeft 3 1 ++ left 1 ++ dec 1 ++
        loop (left 1 ++ inc 1 ++ left 1 ++ inc 2 ++ right 2 ++ inc 1) ++ left 4) ++ right 3 ++
            pourLeft 3 1 ++ left 1 ++ clear ++ left 1 ++ dec 1) (n := b.toNat)
                (S := fun k => s.window p [.ofNat (a.toNat / 2 ^ (b.toNat - k)), .ofNat k, 0, 0, 0,
                  0] 1)
    (cell_window (by simp)) fun k hk => ⟨?_, ?_⟩
  · simp only [Nat.sub_self, Nat.sub_zero, UInt8.ofNat_toNat, ← shiftRight_eq, Nat.pow_zero,
      Nat.div_one] at hloop
    simp [shiftRight, hf, hloop.iff]
  · have : b.toNat < 256 := UInt8.toNat_lt _
    rw [cell_window (by simp)]
    exact ofNat_succ_ne_zero (by omega)
  · have h := hhalf (.ofNat (a.toNat / 2 ^ (b.toNat - (k + 1)))) (.ofNat k + 1)
    rw [ofNat_div_pow_div_two, show b.toNat - (k + 1) + 1 = b.toNat - k by omega] at h
    simp only [UInt8.sub_zero] at h
    simp [hf, h.iff]

/-! ### Bit operations -/

/-- The bit that two bits become. -/
def BitRule.bit : BitRule → Bool → Bool → Bool
  | and, x, y => x && y
  | or, x, y => x || y
  | xor, x, y => x ^^ y

theorem runs_bitRule (hf : floor ≤ p) (rule : BitRule) (x y : Bool) :
    Runs floor rule.code
        (s.window p [a, b, v, 0, 0, 0, Cell.ofBool y, Cell.ofBool x, c, d] 6) t ↔
      t = s.window p [a, b, v, 0, 0, Cell.ofBool (rule.bit x y), 0, 0, c, d] 7 := by
  cases rule <;> cases x <;> cases y <;>
    simp [BitRule.code, BitRule.bit, Cell.ofBool, hf]

theorem runs_splitFirst (hf : floor ≤ p) :
    Runs floor splitFirst (s.window p [a, b, 2, 0, 0, 0, 0, 0, c, d] 0) t ↔
      t = s.window p [a / 2, b, 2, 0, 0, 0, 0, a % 2, c, d] 1 := by
  have h := runs_halve floor (dec 1 ++ right 2 ++ dec 1 ++ spreadRight 1 2 ++ right 1 ++ pourLeft 1
      1 ++ right 4 ++ inc 1 ++ left 2 ++ dec 1 ++ loop
          (left 1 ++ inc 1 ++ left 2 ++ inc 2 ++ right 5 ++ dec 2 ++ left 2 ++ inc 1) ++ left 5)
            (a := a) (W := fun u v w => s.window p [u, b, 2 - v, 0, w, 0, 0, v, c, d] 0)
    (fun _ _ _ => cell_window (by simp)) (fun u w => by simp [hf])
    (fun u w => by simp [hf, neg_one_add_one])
  simp only [UInt8.sub_zero] at h
  simp [splitFirst, hf, h.iff]

theorem runs_splitSecond (hf : floor ≤ p) :
    Runs floor splitSecond (s.window p [a, b, 2, 0, 0, 0, 0, e, c, d] 1) t ↔
      t = s.window p [a, b / 2, 2 - b % 2, 0, 0, 0, b % 2, e, c, d] 6 := by
  have h := runs_halve floor (dec 1 ++ right 1 ++ dec 1 ++ spreadRight 1 2 ++ right 1 ++ pourLeft 1
      1 ++ right 3 ++ inc 1 ++ left 1 ++ dec 1 ++ loop
          (right 1 ++ dec 2 ++ left 2 ++ inc 1 ++ left 2 ++ inc 2 ++ right 3 ++ inc 1) ++ left 4)
            (a := b) (W := fun u v w => s.window p [a, u, 2 - v, 0, w, 0, v, e, c, d] 1)
    (fun _ _ _ => cell_window (by simp)) (fun u w => by simp [hf])
    (fun u w => by simp [hf, neg_one_add_one])
  simp only [UInt8.sub_zero] at h
  simp [splitSecond, hf, h.iff]

theorem runs_collectBit (hf : floor ≤ p) :
    Runs floor collectBit (s.window p [a, b, v, 0, 0, x, 0, 0, c, d] 7) t ↔
      t = s.window p [a, b, v, 0, 0, 0, 0, 0, c, d + x * .ofNat (2 ^ c.toNat)] 8 := by
  have hcopy := runs_drain_to [a, b, v, 0, 0, x, 0, 0, c, d] [a, b, v, 0, 0, x, c, c, 0, d]
      [0, 0, 0, 0, 0, 0, 1, 1, 255, 0] (left 1 ++ inc 1 ++ left 1 ++ inc 1 ++ right 2 ++ dec 1)
          (s := s) (i := 8) hf (by simp) rfl rfl
    (by simp [addTimes]; grind)
  have hloop := runs_loop_of_rounds floor (left 1 ++ pourLeft 1 1 ++ left 1 ++ pourRight 1 2 ++
      right 2 ++ dec 1) (n := c.toNat) (S := fun k => s.window p
          [a, b, v, 0, 0, x * .ofNat (2 ^ (c.toNat - k)), .ofNat k, 0, c, d] 6)
    (cell_window (by simp)) fun k hk => ⟨?_, ?_⟩
  · simp only [Nat.sub_self, Nat.sub_zero, UInt8.ofNat_toNat, Nat.pow_zero,
      UInt8.reduceOfNat, UInt8.mul_one] at hloop
    simp [collectBit, hf, hcopy.iff, hloop.iff]
  · have : c.toNat < 256 := UInt8.toNat_lt _
    rw [cell_window (by simp)]
    exact ofNat_succ_ne_zero (by omega)
  · simp only [ofNat_succ]
    simp [hf, mul_pow_mul_two hk]

/-- What two cells become. -/
def BitRule.apply : BitRule → Cell → Cell → Cell
  | and, a, b => a &&& b
  | or, a, b => a ||| b
  | xor, a, b => a ^^^ b

theorem testBit_apply {rule : BitRule} :
    (rule.apply a b).toNat.testBit n = rule.bit (a.toNat.testBit n) (b.toNat.testBit n) := by
  cases rule <;> simp [BitRule.apply, BitRule.bit, Nat.testBit_xor]

theorem ofNat_div_pow_mod_two :
    UInt8.ofNat (a.toNat / 2 ^ n) % 2 = Cell.ofBool (a.toNat.testBit n) := by
  have h : a.toNat / 2 ^ n < 256 := Nat.lt_of_le_of_lt (Nat.div_le_self _ _) (UInt8.toNat_lt _)
  rw [← ofNat_mod_two h, Nat.testBit_eq_decide_div_mod_eq]
  rcases Nat.mod_two_eq_zero_or_one (a.toNat / 2 ^ n) with h | h <;> simp [h, Cell.ofBool]

theorem ofNat_mod_pow_succ : UInt8.ofNat (a.toNat % 2 ^ (n + 1)) =
    .ofNat (a.toNat % 2 ^ n) + Cell.ofBool (a.toNat.testBit n) * .ofNat (2 ^ n) := by
  rw [Nat.mod_pow_succ, UInt8.ofNat_add, UInt8.ofNat_mul, Nat.testBit_eq_decide_div_mod_eq]
  rcases Nat.mod_two_eq_zero_or_one (a.toNat / 2 ^ n) with h | h <;>
    simp [h, Cell.ofBool, UInt8.mul_comm]

/-- The body of the loop of `bitwise`. -/
def bitwiseRound (rule : BitRule) : Code :=
  inc Cell.bits ++ left 1 ++ left 1 ++ clear ++ left 1 ++ clear ++ left 1 ++ clear ++
    left 1 ++ clear ++ left 1 ++ clear ++ inc 2 ++ left 2 ++
    splitFirst ++ splitSecond ++ rule.code ++ collectBit ++ dec (Cell.bits - 1)

/-- The cells after `n` rounds. -/
def bitwiseCells (rule : BitRule) (a b : Cell) (n : Nat) (u v x y z : Cell) : List Cell :=
  [.ofNat (a.toNat / 2 ^ n), .ofNat (b.toNat / 2 ^ n), u, v, x, y, z, 0, .ofNat n - 8,
    .ofNat ((rule.apply a b).toNat % 2 ^ n)]

theorem runs_bitwiseRound (hf : floor ≤ p) (rule : BitRule) (hn : n < 8) :
    ∃ w, Runs floor (bitwiseRound rule) (s.window p (bitwiseCells rule a b n u v x y z) 8)
      (s.window p (bitwiseCells rule a b (n + 1) w 0 0 0 0) 8) := by
  have hc : (UInt8.ofNat n).toNat = n := UInt8.toNat_ofNat_of_lt' (show n < 256 by omega)
  have hd : UInt8.ofNat n - 7 = .ofNat n + 1 - 8 := by grind
  refine ⟨2 - UInt8.ofNat (b.toNat / 2 ^ n) % 2, ?_⟩
  simp only [bitwiseCells, ofNat_succ, ofNat_mod_pow_succ, testBit_apply]
  simp [bitwiseRound, Cell.bits, hf, runs_splitFirst, runs_splitSecond, ofNat_div_pow_mod_two,
    runs_bitRule, runs_collectBit, ofNat_div_pow_div_two, hc, hd]

theorem ofNat_sub_eight_ne_zero (h : n < 8) : UInt8.ofNat n - 8 ≠ 0 := by
  intro h0
  have := congrArg UInt8.toNat (show UInt8.ofNat n = 8 by grind)
  rw [UInt8.toNat_ofNat_of_lt' (show n < 256 by omega)] at this
  simp at this
  omega

theorem runs_bitwiseRounds (hf : floor ≤ p) (rule : BitRule) :
    ∃ u, Runs floor (loop (bitwiseRound rule))
      (s.window p [a, b, v, w, x, y, z, 0, -8, 0] 8)
      (s.window p [0, 0, u, 0, 0, 0, 0, 0, 0, rule.apply a b] 8) := by
  have ha : a.toNat < 256 := UInt8.toNat_lt _
  have hb : b.toNat < 256 := UInt8.toNat_lt _
  have hr : (rule.apply a b).toNat < 256 := UInt8.toNat_lt _
  have hend (u : Cell) : bitwiseCells rule a b 8 u 0 0 0 0 =
      [0, 0, u, 0, 0, 0, 0, 0, 0, rule.apply a b] := by
    simp [bitwiseCells, Nat.div_eq_of_lt ha, Nat.div_eq_of_lt hb, Nat.mod_eq_of_lt hr]
  have hstart : bitwiseCells rule a b 0 v w x y z = [a, b, v, w, x, y, z, 0, -8, 0] := by
    simp [bitwiseCells, Nat.mod_one]
  have hne (n : Nat) (hn : n < 8) (u v x y z : Cell) :
      (s.window p (bitwiseCells rule a b n u v x y z) 8).cell ≠ 0 := by
    rw [cell_window (by simp [bitwiseCells])]
    exact ofNat_sub_eight_ne_zero hn
  -- the first round, and then those that start with empty scratch cells
  obtain ⟨u, hu⟩ := runs_bitwiseRound (s := s) (a := a) (b := b) (u := v) (v := w) (x := x) (y := y)
    (z := z) hf rule (n := 0) (by omega)
  obtain ⟨t, ht, u', rfl⟩ := runs_loop_of_rel floor (bitwiseRound rule) (n := 7)
      (R := fun k s' => ∃ u, s' = s.window p (bitwiseCells rule a b (8 - k) u 0 0 0 0) 8)
        (s := s.window p (bitwiseCells rule a b 1 u 0 0 0 0) 8)
    (by
      rintro _ ⟨u, rfl⟩
      rw [hend, cell_window (by simp)]
      rfl)
    (by
      rintro k _ hk ⟨u, rfl⟩
      obtain ⟨w, hw⟩ := runs_bitwiseRound (s := s) (a := a) (b := b) (u := u) (v := 0) (x := 0) (y := 0)
        (z := 0) hf rule (show 8 - (k + 1) < 8 by omega)
      exact ⟨hne _ (by omega) u 0 0 0 0, _, hw, w, by rw [show 8 - k = 8 - (k + 1) + 1 by omega]⟩)
    ⟨u, rfl⟩
  refine ⟨u', ?_⟩
  have h := Runs.round (hne 0 (by omega) v w x y z) hu ht
  rwa [hstart, hend] at h

theorem runs_bitwise (hf : floor ≤ p) (rule : BitRule) {c₀ c₁ c₂ c₃ c₄ c₅ c₆ c₇ : Cell} :
    Runs floor (bitwise rule) (s.window p [a, b, c₀, c₁, c₂, c₃, c₄, c₅, c₆, c₇] 0) t ↔
      t = s.window p [rule.apply a b, 0, 0, 0, 0, 0, 0, 0, 0, 0] 1 := by
  obtain ⟨u, h⟩ := runs_bitwiseRounds (s := s) (a := a) (b := b) (v := c₀) (w := c₁) (x := c₂)
    (y := c₃) (z := c₄) hf rule
  change Runs floor (right 7 ++ clear ++ right 1 ++ right 1 ++ clear ++ left 1 ++ clear ++
    dec 8 ++ loop (bitwiseRound rule) ++ right 1 ++ pourLeft 9 1 ++ left 7 ++ clear ++ left 1) _ _ ↔ _
  simp [hf, h.iff, -runs_loop_window_of_ne]

end TapeC.Routine
