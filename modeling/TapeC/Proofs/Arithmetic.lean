import TapeC.Proofs.Guard
import TapeC.Proofs.Value
import TapeC.Routine.Arithmetic

/-! Arithmetic on two adjacent cells computes what it should, modulo 256, from every
tape. Every program here works in a window from its first operand on. -/

namespace TapeC.Routine

open Tape Code Config

variable {floor p i n : Nat} {s t : Config} {a b c d e f : Cell} {ws us : List Cell} {inner : Code}

attribute [local simp] runs_right_window runs_left_window runs_inc_window runs_dec_window
  runs_clear_window runs_pourLeft_window runs_pourRight_window runs_spreadRight_window
  runs_loop_window_of_zero

theorem runs_add (hf : floor ≤ p) :
    Runs floor add (s.window p [a, b] 0) t ↔ t = s.window p [a + b, 0] 1 := by
  simp [add, hf]

theorem runs_subtract (hf : floor ≤ p) :
    Runs floor subtract (s.window p [a, b] 0) t ↔ t = s.window p [a - b, 0] 1 := by
  have h := runs_drain_to [a, b] [a - b, 0] [255, 255] (left 1 ++ dec 1 ++ right 1 ++ dec 1)
      (s := s) (i := 1) hf (by simp) rfl rfl
    (by simp [addTimes]; grind)
  simp [subtract, h.iff]

theorem runs_multiply (hf : floor ≤ p) :
    Runs floor multiply (s.window p [a, b, c, d] 0) t ↔ t = s.window p [a * b, 0, 0, 0] 1 := by
  -- the counter holds the rounds to go
  have hloop := runs_countdown floor (left 2 ++ loop
      (left 1 ++ inc 1 ++ right 2 ++ inc 1 ++ left 1 ++ dec 1) ++ right 1 ++ pourLeft 1 1 ++ right
        1 ++ dec 1) (S := fun x => s.window p [(a - x) * b, b, 0, x] 3)
            (fun x => cell_window (by simp)) (fun x hx => ?_) a
  · simp only [UInt8.sub_self, UInt8.zero_mul, UInt8.sub_zero] at hloop
    simp [multiply, hf, hloop.iff]
  · have h := runs_drain_to [(a - x) * b, b, 0, x] [(a - (x - 1)) * b, 0, b, x] [1, 255, 1, 0]
      (left 1 ++ inc 1 ++ right 2 ++ inc 1 ++ left 1 ++ dec 1) (s := s) (i := 1) hf (by simp) rfl
        rfl
      (by simp [addTimes]; grind)
    simp [hf, h.iff]

/-! ### Zero divisors -/

theorem never_reportZeroDivisor (hf : floor ≤ s.head) : Never floor reportZeroDivisor s := by
  refine (runs_writeBytes hf _).never (never_loop_skip ?_)
  rw [cell_window (by simp)]
  decide +kernel

theorem runs_checkDivisor (hf : floor ≤ p) (hb : b ≠ 0) :
    Runs floor checkDivisor (s.window p (a :: b :: c :: d :: e :: us) 0) t ↔
      t = s.window p (a :: b :: 0 :: 0 :: 0 :: us) 0 := by
  simp [checkDivisor, hf, hb, runs_ifZero_window_of_ne]

/-- What `checkDivisor` does before it tests a copy of a divisor that is zero. -/
theorem runs_checkDivisor_start (us : List Cell) (hf : floor ≤ p) : Runs floor (right 2 ++ clear ++ right 1 ++ clear ++ left 2 ++
    spreadRight 1 1 ++ right 1 ++ pourLeft 1 1 ++ right 1) (s.window p (a :: 0 :: c :: d :: us) 0)
      (s.window p (a :: 0 :: 0 :: 0 :: us) 3) := by
  simp [hf]

theorem never_checkDivisor (hf : floor ≤ p) :
    Never floor checkDivisor (s.window p (a :: 0 :: c :: d :: us) 0) := by
  refine ((runs_checkDivisor_start us hf).never (never_ifZero (by simp) ?_ (cell_window (by simp))
    (never_reportZeroDivisor ?_))).append
  all_goals simp only [head_put, head_window]; omega

/-! ### Division -/

theorem runs_nextMultiple (hf : floor ≤ p) :
    Runs floor nextMultiple (s.window p [a, 0, c, d, 0, 1] 4) t ↔
      t = s.window p [a, c, 0, d + 1, 0, 1] 4 := by
  have h := runs_drain_to [a, 0, c, d + 1, 0, 1] [a, c, 0, d + 1, 0, 1] [0, 1, 255, 0, 0, 0]
      (dec 1 ++ left 1 ++ inc 1 ++ right 1) (s := s) (i := 2) hf (by simp)
    rfl rfl (by simp [addTimes]; grind)
  simp [nextMultiple, hf, h.iff]

/-- The body of the loop of `divideWithRemainder`. -/
theorem runs_divide_round (hf : floor ≤ p) :
    Runs floor (dec 1 ++ right 1 ++ dec 1 ++ right 1 ++ inc 1 ++ left 1 ++
      loop (dec 1 ++ right 3 ++ inc 1 ++ right 1 ++ inc 1 ++ left 4) ++ right 4 ++
      loop (dec 1 ++ left 4 ++ inc 1 ++ right 4) ++ left 1 ++ ifZero nextMultiple 1 ++ left 4)
      (s.window p [a, b, c, d, 0, 0] 0) t ↔
    t = s.window p (if b = 1 then [a - 1, c + 1, 0, d + 1, 0, 0] else [a - 1, b - 1, c + 1, d, 0, 0])
      0 := by
  by_cases hb : b = 1
  · subst hb
    have h (t : Config) := runs_ifZero_window_of_eq [a - 1, 0, c + 1, d, 0, 0] _ (s := s) (t := t)
      hf Nat.one_pos (by simp) (by simp) (by simp) ((runs_nextMultiple hf).2 rfl) (by simp) (by simp)
    simp [hf, h]
  · have h := runs_drain_to [a - 1, b - 1, c + 1, d, 0, 0] [a - 1, 0, c + 1, d, b - 1, b - 1]
      [0, 255, 0, 0, 1, 1] (dec 1 ++ right 3 ++ inc 1 ++ right 1 ++ inc 1 ++ left 4) (s := s)
          (i := 1) hf (by simp)
      rfl rfl (by simp [addTimes]; grind)
    have h' := runs_drain_to [a - 1, 0, c + 1, d, b - 1, b - 1] [a - 1, b - 1, c + 1, d, b - 1, 0]
        [0, 1, 0, 0, 0, 255] (dec 1 ++ left 4 ++ inc 1 ++ right 4) (s := s) (i := 5) hf (by simp)
      rfl rfl (by simp [addTimes]; grind)
    have hne : b - 1 ≠ 0 := by grind
    simp [hf, hb, h.iff, h'.iff, hne, runs_ifZero_window_of_ne]

/-- The cells of a division that has counted up to `n`. -/
def divided (b : Cell) (rest n : Nat) : List Cell :=
  [.ofNat rest, .ofNat (b.toNat - n % b.toNat), .ofNat (n % b.toNat), .ofNat (n / b.toNat), 0, 0]

theorem divided_zero : divided b a.toNat 0 = [a, b, 0, 0, 0, 0] := by
  simp [divided]

theorem divided_toNat (hb : 0 < b.toNat) :
    divided b 0 a.toNat = [0, b - a % b, a % b, a / b, 0, 0] := by
  have hm : UInt8.ofNat (a.toNat % b.toNat) = a % b := by
    rw [← UInt8.toNat_mod, UInt8.ofNat_toNat]
  have hd : UInt8.ofNat (a.toNat / b.toNat) = a / b := by
    rw [← UInt8.toNat_div, UInt8.ofNat_toNat]
  have hle : a.toNat % b.toNat ≤ b.toNat := Nat.le_of_lt (Nat.mod_lt _ hb)
  rw [divided, UInt8.ofNat_sub hle, hm, hd, UInt8.ofNat_toNat]
  rfl

/-- A round that takes one from the number to divide, and from the divisor until the next
multiple is reached. -/
def DivisionRound (floor p : Nat) (b : Cell) (body : Code) : Prop :=
  ∀ (s : Config) (k y r q : Cell), y + r = b → Runs floor body (s.window p [k, y, r, q, 0, 0] 0)
    (s.window p (if y = 1 then [k - 1, r + 1, 0, q + 1, 0, 0] else [k - 1, y - 1, r + 1, q, 0, 0]) 0)

theorem DivisionRound.step {body : Code} {k : Nat} (h : DivisionRound floor p b body)
    (hb : 0 < b.toNat) :
    Runs floor body (s.window p (divided b (k + 1) n) 0) (s.window p (divided b k (n + 1)) 0) := by
  have hlt : b.toNat < 256 := UInt8.toNat_lt _
  have hr : n % b.toNat < b.toNat := Nat.mod_lt _ hb
  have hn := Nat.div_add_mod n b.toNat
  have hsum : UInt8.ofNat (b.toNat - n % b.toNat) + .ofNat (n % b.toNat) = b := by
    rw [← UInt8.ofNat_add, Nat.sub_add_cancel (Nat.le_of_lt hr), UInt8.ofNat_toNat]
  have hround := h s (.ofNat (k + 1)) _ _ (.ofNat (n / b.toNat)) hsum
  rw [ofNat_succ_sub_one] at hround
  suffices he : divided b k (n + 1) = _ from he ▸ hround
  by_cases h : n % b.toNat + 1 = b.toNat
  · have e : UInt8.ofNat (b.toNat - n % b.toNat) = 1 := by
      rw [show b.toNat - n % b.toNat = 1 by omega]
      rfl
    obtain ⟨hd, hm⟩ : (n + 1) / b.toNat = n / b.toNat + 1 ∧ (n + 1) % b.toNat = 0 :=
      (Nat.div_mod_unique hb).2 ⟨by rw [Nat.mul_add]; omega, hb⟩
    have hb' : UInt8.ofNat b.toNat = UInt8.ofNat (n % b.toNat) + 1 := by
      conv_lhs => rw [← h, ofNat_succ]
    simp only [if_pos e, divided, hd, hm, Nat.sub_zero, hb', ofNat_succ]
    rfl
  · have e : UInt8.ofNat (b.toNat - n % b.toNat) ≠ 1 := by
      intro e
      have := congrArg UInt8.toNat e
      simp [UInt8.toNat_ofNat'] at this
      omega
    obtain ⟨hd, hm⟩ : (n + 1) / b.toNat = n / b.toNat ∧ (n + 1) % b.toNat = n % b.toNat + 1 :=
      (Nat.div_mod_unique hb).2 ⟨by omega, by omega⟩
    have hs : b.toNat - n % b.toNat = b.toNat - (n % b.toNat + 1) + 1 := by omega
    have hs' : UInt8.ofNat (b.toNat - n % b.toNat) - 1 = .ofNat (b.toNat - (n % b.toNat + 1)) := by
      rw [hs, ofNat_succ_sub_one]
    simp only [if_neg e, divided, hd, hm, hs', ofNat_succ]

theorem DivisionRound.runs {body : Code} (h : DivisionRound floor p b body) (hb : b ≠ 0) :
    Runs floor (loop body) (s.window p [a, b, 0, 0, 0, 0] 0)
      (s.window p [0, b - a % b, a % b, a / b, 0, 0] 0) := by
  have hB : 0 < b.toNat := Nat.pos_of_ne_zero fun h => hb (UInt8.toNat_inj.1 h)
  have hloop := runs_loop_of_rounds floor body (n := a.toNat)
      (S := fun k => s.window p (divided b k (a.toNat - k)) 0)
    (cell_window (by simp [divided])) fun k hk => ⟨?_, ?_⟩
  · simpa only [Nat.sub_self, divided_zero, Nat.sub_zero, divided_toNat hB] using hloop
  · have : a.toNat < 256 := UInt8.toNat_lt _
    rw [cell_window (by simp [divided])]
    exact ofNat_succ_ne_zero (by omega)
  · rw [show a.toNat - k = a.toNat - (k + 1) + 1 by omega]
    exact h.step hB

theorem runs_divideWithRemainder {check : Bool} (hf : floor ≤ p) (hb : b ≠ 0) :
    Runs floor (divideWithRemainder check) (s.window p [a, b, c, d, e, f] 0) t ↔
      t = s.window p [0, b - a % b, a % b, a / b, 0, 0] 0 := by
  have hround : DivisionRound floor p b (dec 1 ++ right 1 ++ dec 1 ++ right 1 ++ inc 1 ++ left 1 ++
      loop (dec 1 ++ right 3 ++ inc 1 ++ right 1 ++ inc 1 ++ left 4) ++ right 4 ++
      loop (dec 1 ++ left 4 ++ inc 1 ++ right 4) ++ left 1 ++ ifZero nextMultiple 1 ++ left 4) :=
    fun _ _ _ _ _ _ => (runs_divide_round hf).2 rfl
  have hloop := hround.runs (s := s) (a := a) hb
  cases check <;> simp [divideWithRemainder, hf, runs_checkDivisor hf hb, hloop.iff]

theorem runs_divide {check : Bool} (hf : floor ≤ p) (hb : b ≠ 0) :
    Runs floor (divide check) (s.window p [a, b, c, d, e, f] 0) t ↔
      t = s.window p [a / b, 0, 0, 0, 0, 0] 1 := by
  simp [divide, runs_divideWithRemainder hf hb, hf]

theorem runs_modulo {check : Bool} (hf : floor ≤ p) (hb : b ≠ 0) :
    Runs floor (modulo check) (s.window p [a, b, c, d, e, f] 0) t ↔
      t = s.window p [a % b, 0, 0, 0, 0, 0] 1 := by
  simp [modulo, runs_divideWithRemainder hf hb, hf]

theorem never_divideWithRemainder (hf : floor ≤ p) :
    Never floor (divideWithRemainder true) (s.window p (a :: 0 :: c :: d :: us) 0) := by
  have h : Never floor (if true then checkDivisor else skip)
      (s.window p (a :: 0 :: c :: d :: us) 0) := never_checkDivisor hf
  exact h.append.append.append.append.append.append.append.append.append.append

end TapeC.Routine
