import TapeC.Proofs.Arithmetic
import TapeC.Routine.Builtin

/-! What the functions do that every program can call: the number that is read from an
input, and the digits that are written. -/

namespace TapeC.Routine.Builtin

open Tape Code Config

variable {floor p : Nat} {s t : Config} {a b c d e v w x y z : Cell}

attribute [local simp] runs_right_window runs_left_window runs_inc_window runs_dec_window
  runs_clear_window runs_pourLeft_window runs_pourRight_window runs_spreadRight_window
  runs_loop_window_of_zero runs_loop_window_of_ne runs_write_window runs_read_window

/-! ### Writing a number -/

theorem splitDigit_round (hf : floor ≤ p) (hb : b ≠ 1) :
    DivisionRound floor p b (dec 1 ++ right 1 ++ dec 1 ++ loop (right 1 ++ inc 1 ++ right 2) ++ right 1 ++
      loop (inc 1 ++ pourLeft 1 1 ++ right 1 ++ inc 1 ++ right 2) ++ left 5) := by
  intro s k y r q hy
  by_cases h : y = 1
  · subst h
    have hr : r ≠ 0 := by grind
    simp [hf, hr]
  · have hy' : y - 1 ≠ 0 := by grind
    simp [hf, h, hy']

theorem runs_splitDigit (hf : floor ≤ p) (hb : b ≠ 0) (hb' : b ≠ 1) :
    Runs floor splitDigit (s.window p [a, b, 0, 0, 0, 0] 0)
      (s.window p [0, b - a % b, a % b, a / b, 0, 0] 0) :=
  (splitDigit_round hf hb').runs hb

/-- The digits of a number, of which leading zeros are left out. -/
def digits (v : Cell) : List Cell :=
  (if v / 10 / 10 = 0 then [] else [v / 10 / 10 + 48]) ++
    (if v / 10 / 10 = 0 ∧ v / 10 % 10 = 0 then [] else [v / 10 % 10 + 48]) ++ [v % 10 + 48]

theorem emit_emit {bytes more : List Cell} : (s.emit bytes).emit more = s.emit (bytes ++ more) := by
  simp [emit]

theorem runs_printDigits (hf : floor ≤ p) :
    Runs floor printDigits (s.window p [a, v, 0, 0, 0, 0, 0, 0, 0, 0] 1) t ↔
      t = (s.emit (digits v)).window p [a, 0, 0, 0, 0, 0, 0, 0, 0, 0] 0 := by
  -- both divisions take place in six of the ten cells
  have e₁ (ws : List Cell) (hl : ws.length = 6) : s.window p ([a] ++ (ws ++ [0, 0, 0])) 1 =
      ((s.window p [a] 0).window (p + 1 + 6) [0, 0, 0] 0).window (p + 1) ws 0 := by
    rw [← hl]
    exact (window_append_right (i := 0)).trans window_append
  have e₂ (ws : List Cell) : s.window p ([a, 0, 0, v % 10] ++ ws) 4 =
      (s.window p [a, 0, 0, v % 10] 0).window (p + 4) ws 0 := window_append_right (i := 0)
  have h₁ : Runs floor splitDigit (s.window p [a, v, 10, 0, 0, 0, 0, 0, 0, 0] 1)
      (s.window p [a, 0, 10 - v % 10, v % 10, v / 10, 0, 0, 0, 0, 0] 1) := by
    have h := runs_splitDigit (s := (s.window p [a] 0).window (p + 1 + 6) [0, 0, 0] 0) (a := v) (b := 10)
      (show floor ≤ p + 1 by omega) (by decide) (by decide)
    rwa [← e₁ [v, 10, 0, 0, 0, 0] rfl, ← e₁ [0, 10 - v % 10, v % 10, v / 10, 0, 0] rfl] at h
  have h₂ : Runs floor splitDigit (s.window p [a, 0, 0, v % 10, v / 10, 10, 0, 0, 0, 0] 4)
      (s.window p [a, 0, 0, v % 10, 0, 10 - v / 10 % 10, v / 10 % 10, v / 10 / 10, 0, 0] 4) := by
    have h := runs_splitDigit (s := s.window p [a, 0, 0, v % 10] 0) (a := v / 10) (b := 10)
      (show floor ≤ p + 4 by omega) (by decide) (by decide)
    rwa [← e₂, ← e₂] at h
  by_cases hh : v / 10 / 10 = 0
  · by_cases ht : v / 10 % 10 = 0
    · simp [printDigits, hf, h₁.iff, h₂.iff, hh, ht, digits]
    · simp [printDigits, hf, h₁.iff, h₂.iff, hh, ht, digits, emit_emit]
  · have ht : v / 10 % 10 + 1 ≠ 0 := by
      intro h
      have hlt : v / 10 % 10 < 10 := UInt8.mod_lt _ (by decide)
      rw [show v / 10 % 10 = 255 by grind] at hlt
      exact absurd hlt (by decide)
    simp [printDigits, hf, h₁.iff, h₂.iff, hh, ht, digits, emit_emit]

theorem runs_printInt (hf : floor ≤ p) {c₀ c₁ c₂ c₃ c₄ c₅ c₆ c₇ : Cell} :
    Runs floor printInt.body (s.window p [a, v, c₀, c₁, c₂, c₃, c₄, c₅, c₆, c₇] 0) t ↔
      t = (s.emit (digits v)).window p [a, 0, 0, 0, 0, 0, 0, 0, 0, 0] 0 := by
  simp [body, List.replicate, concat, hf, runs_printDigits hf]

theorem bytes_toString (v : Cell) : Text.bytes (toString v.toNat).toList = digits v := by
  have h : ∀ n : Fin 256, Text.bytes (toString n.val).toList = digits (.ofNat n.val) := by
    decide +kernel
  have := h ⟨v.toNat, UInt8.toNat_lt v⟩
  rwa [UInt8.ofNat_toNat] at this

/-! ### Reading a number -/

/-- The number that the digits up to a line feed add to `v`, and what follows. -/
def readNumber (v : Cell) : List Cell → Option (Cell × List Cell)
  | [] => none
  | byte :: rest => if byte = 10 then some (v, rest) else readNumber (v * 10 + (byte - 48)) rest

/-- The body of the loop of `readInt`. -/
def readDigit : Code := clear ++ left 1 ++ read ++ dec 10 ++ loop appendDigit ++ right 1

theorem runs_readDigit (hf : floor ≤ p) :
    Runs floor readDigit (s.window p [v, 0, x, 1] 3) t ↔
      t = (s.setInput s.input.tail).window p
        (if s.input.headD 0 = 10 then [v, 0, 0, 0] else [v * 10 + (s.input.headD 0 - 48), 0, 0, 1]) 3 := by
  by_cases h : s.input.headD 0 = 10
  · simp [readDigit, hf, h, -List.headD_eq_head?_getD]
  · have h' : s.input.headD 0 - 10 ≠ 0 := by grind
    have e : v * 10 + (s.input.headD 0 - 10 - 38) = v * 10 + (s.input.headD 0 - 48) := by grind
    simp [readDigit, appendDigit, hf, h, h', e, -List.headD_eq_head?_getD]

theorem runs_readDigits (hf : floor ≤ p) {w : Cell} {rest : List Cell}
    (h : readNumber v s.input = some (w, rest)) :
    Runs floor (loop readDigit) (s.window p [v, 0, x, 1] 3)
      ((s.setInput rest).window p [w, 0, 0, 0] 3) := by
  generalize hi : s.input = bytes at h
  induction bytes generalizing s v x with
  | nil => cases h
  | cons byte bytes ih =>
    have hround := (runs_readDigit (s := s) (v := v) (x := x) hf).2 rfl
    rw [hi, List.headD_cons, List.tail_cons] at hround
    rw [readNumber] at h
    refine .round (by simp [cell_window]) hround ?_
    split at h
    next hb =>
      cases h
      simp [hb]
    next hb =>
      simpa only [if_neg hb, setInput_setInput] using ih (s := s.setInput bytes) rfl h

/-- An input that ends before a line feed leaves the loop reading. -/
theorem never_readDigits (hf : floor ≤ p) (h : readNumber v s.input = none) :
    Never floor (loop readDigit) (s.window p [v, 0, x, 1] 3) := by
  refine never_loop_of_invariant (I := fun t => ∃ s v x, readNumber v s.input = none ∧
    t = s.window p [v, 0, x, 1] 3) ?_ ⟨s, v, x, h, rfl⟩
  rintro _ ⟨s, v, x, h, rfl⟩
  refine ⟨by simp [cell_window], _, (runs_readDigit hf).2 rfl, ?_⟩
  have hb : s.input.headD 0 ≠ 10 := by
    intro hb
    cases hi : s.input with
    | nil => simp [hi] at hb
    | cons byte bytes => simp_all [readNumber]
  rw [if_neg hb]
  refine ⟨s.setInput s.input.tail, _, _, ?_, rfl⟩
  cases hi : s.input with
  | nil => simp [readNumber]
  | cons byte bytes => simpa [readNumber, hi, show byte ≠ 10 by simpa [hi] using hb] using h

theorem runs_readInt_start :
    Runs floor (clear ++ right 1 ++ clear ++ right 2 ++ clear ++ inc 1) s
      (s.window s.head [0, 0, s.cells (s.head + 2), 1] 3) := by
  have hs : s = s.window s.head
      [s.cell, s.cells (s.head + 1), s.cells (s.head + 2), s.cells (s.head + 3)] 0 := eq_window s 4
  conv => arg 3; rw [hs]
  simp

theorem runs_readInt (hf : floor ≤ s.head) {rest : List Cell} (h : readNumber 0 s.input = some (v, rest)) :
    Runs floor readInt.body s ((s.setInput rest).window s.head [v, 0, 0, 0] 0) :=
  (runs_readInt_start.append (runs_readDigits (x := s.cells (s.head + 2)) hf h)).append
    ((runs_left_window hf (by simp)).2 rfl)

/-! ### All functions -/

/-- What a call gives back and does: the value, what is left of the input and what is
written. Reading a number from an input without a line feed never ends. -/
def effect? (argument : Cell) (input : List Cell) : Builtin → Option (Cell × List Cell × List Cell)
  | readInt => (readNumber 0 input).map fun (v, rest) => (v, rest, [])
  | printInt => some (0, input, digits argument)
  | readChar => some (input.headD 0, input.tail, [])
  | printChar => some (0, input, [argument])

theorem runs_body (hf : floor ≤ s.head) {b : Builtin} {rest written : List Cell} (h0 : s.cell = 0)
    (h : b.effect? (s.cells (s.head + 1)) s.input = some (v, rest, written)) :
    ∃ ws, Runs floor b.body s (((s.setInput rest).emit written).window s.head (v :: ws) 0) := by
  cases b with
  | readInt =>
    obtain ⟨⟨w, rest'⟩, hn, hr⟩ := Option.map_eq_some_iff.1 h
    cases hr
    refine ⟨[0, 0, 0], ?_⟩
    rw [show (s.setInput rest).emit [] = s.setInput rest by simp [emit, setInput]]
    exact runs_readInt hf hn
  | printInt =>
    cases h
    have hs : s = s.window s.head [s.cell, s.cells (s.head + 1), s.cells (s.head + 2),
        s.cells (s.head + 3), s.cells (s.head + 4), s.cells (s.head + 5), s.cells (s.head + 6),
        s.cells (s.head + 7), s.cells (s.head + 8), s.cells (s.head + 9)] 0 := eq_window s 10
    refine ⟨[0, 0, 0, 0, 0, 0, 0, 0, 0], ?_⟩
    conv => arg 3; rw [hs, h0]
    exact (runs_printInt hf).2 rfl
  | readChar =>
    cases h
    refine ⟨[], runs_read.2 ?_⟩
    rw [← window_emit, ← window_setInput, window_singleton]
    simp [emit, setInput, store, put]
  | printChar =>
    cases h
    refine ⟨[], ?_⟩
    have hz : s.store 0 = s := by
      refine Config.ext rfl (fun x => ?_) rfl rfl
      rw [store_def, cells_put]
      grind [Config.cell]
    rw [← window_emit, ← window_setInput, window_singleton, hz]
    refine ((runs_right.2 rfl).append (runs_write.2 rfl)).append ((runs_left ?_).2 ?_)
    · simp only [head_emit, head_goto]
      omega
    · simp [emit, setInput, goto, Config.cell]

theorem never_body (hf : floor ≤ s.head) {b : Builtin}
    (h : b.effect? (s.cells (s.head + 1)) s.input = none) : Never floor b.body s := by
  cases b with
  | readInt => exact (runs_readInt_start.never (never_readDigits hf (by simpa [effect?] using h))).append
  | printInt | readChar | printChar => cases h

end TapeC.Routine.Builtin
