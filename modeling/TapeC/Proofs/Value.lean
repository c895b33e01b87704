import TapeC.Proofs.Transfer
import TapeC.Routine.Value

/-! The programs that write known values do write them, whichever of their four
forms is the shortest. -/

namespace TapeC.Routine

open Tape Code Config

variable {floor p : Nat} {s : Config} {v x old new : Cell} {up clearNext : Bool} {n : Nat}

theorem cheapest_mem {α : Type} {cost : α → Nat} {first : α} {others : List α} :
    cheapest cost first others ∈ first :: others := by
  induction others generalizing first with
  | nil => simp [cheapest]
  | cons y ys ih =>
    have h := @ih (if cost y < cost first then y else first)
    simp only [cheapest, List.foldl_cons, List.mem_cons] at h ⊢
    split at h <;> grind

/-! ### Factors -/

namespace Factors

variable {m : Int} {f : Factors}

theorem of_mem_candidates (h : f ∈ candidates m) : m = (f.count * f.step : Nat) + f.remainder := by
  simp only [candidates, List.mem_flatMap, List.mem_map] at h
  obtain ⟨count, _, step, _, rfl⟩ := h
  push_cast
  omega

theorem mem_of_best? (h : best? m = some f) : f ∈ candidates m := by
  unfold best? at h
  split at h
  · cases h
  next first others hc =>
    cases h
    exact hc ▸ cheapest_mem

end Factors

/-! ### Changes of one cell -/

/-- A cell after a change by `n`, up or down. -/
def changed (up : Bool) (n : Nat) (v : Cell) : Cell := if up then v + .ofNat n else v - .ofNat n

theorem runs_run (floor : Nat) (up : Bool) :
    Runs floor (run up n) (s.window p [v, x] 0) (s.window p [changed up n v, x] 0) := by
  cases up with
  | true => exact (runs_inc_window (by simp)).2 rfl
  | false => exact (runs_dec_window (by simp)).2 rfl

theorem changed_factors {f : Factors} (h : (n : Int) = (f.count * f.step : Nat) + f.remainder) :
    changed (if 0 ≤ f.remainder then up else !up) f.remainder.natAbs
      (v + .ofNat f.count * changed up f.step 0) = changed up n v := by
  have hm : UInt8.ofNat (f.count * f.step) = UInt8.ofNat f.count * UInt8.ofNat f.step := by
    simp
  by_cases hr : 0 ≤ f.remainder
  · have hn : n = f.count * f.step + f.remainder.natAbs := by omega
    have : UInt8.ofNat n = UInt8.ofNat f.count * UInt8.ofNat f.step + UInt8.ofNat
        f.remainder.natAbs := by
      rw [← hm, ← UInt8.ofNat_add, ← hn]
    cases up <;> simp only [changed, if_pos hr, this] <;> grind
  · have hn : f.count * f.step = n + f.remainder.natAbs := by omega
    have : UInt8.ofNat f.count * UInt8.ofNat f.step = UInt8.ofNat n + UInt8.ofNat
        f.remainder.natAbs := by
      rw [← hm, ← UInt8.ofNat_add, hn]
    cases up <;> simp only [changed, if_neg hr] <;> grind

theorem runs_runByLoop {c : Code} (hf : floor ≤ p) (h : runByLoop? up n clearNext = some c)
    (hx : x = 0 ∨ clearNext = true) :
    Runs floor c (s.window p [v, x] 0) (s.window p [changed up n v, 0] 0) := by
  obtain ⟨f, hb, hc⟩ := Option.bind_eq_some_iff.1 h
  cases hc
  -- the counter
  have hclear : Runs floor (if clearNext then clear else skip) (s.window p [v, x] 1)
      (s.window p [v, 0] 1) := by
    cases clearNext with
    | true => exact (runs_clear_window (by simp)).2 rfl
    | false => exact runs_skip.2 (by simp [show x = 0 by simpa using hx])
  have hinc : Runs floor (inc f.count) (s.window p [v, 0] 1) (s.window p [v, .ofNat f.count] 1) :=
    (runs_inc_window (by simp)).2 (by simp)
  -- a round
  have hstep : (left 1 ++ run up f.step ++ right 1 ++ dec 1).adds (1, [0, 0]) =
      some (1, [changed up f.step 0, 255]) := by
    cases up <;> rfl
  have hloop := runs_drain [v, .ofNat f.count] (s := s) hf (by simp) hstep rfl
  have hlast : Runs floor (left 1) (s.window p [v + .ofNat f.count * changed up f.step 0, 0] 1)
      (s.window p [v + .ofNat f.count * changed up f.step 0, 0] 0) :=
    (runs_left_window hf (by simp)).2 rfl
  have hws : addTimes (UInt8.ofNat f.count) [v, .ofNat f.count] [changed up f.step 0, 255] =
      [v + .ofNat f.count * changed up f.step 0, 0] := by
    simp only [addTimes, List.zipWith]
    congr 2
    grind
  rw [List.getElem_cons_succ, List.getElem_cons_zero, hws] at hloop
  have hrun := runs_run floor (if 0 ≤ f.remainder then up else !up) (s := s) (p := p) (x := 0)
      (n := f.remainder.natAbs) (v := v + .ofNat f.count * changed up f.step 0)
  rw [changed_factors (Factors.of_mem_candidates (Factors.mem_of_best? hb))] at hrun
  exact (((((runs_right_window.2 rfl).append hclear).append hinc).append hloop).append hlast).append
    hrun

/-- Setting a cell adds the same to whatever it holds. -/
theorem runs_setCell_add (new old v : Cell) (clearNext : Bool) (hf : floor ≤ p)
    (hx : x = 0 ∨ clearNext = true) :
    ∃ y, Runs floor (setCell new old clearNext) (s.window p [v, x] 0)
      (s.window p [v + (new - old), y] 0) ∧ (x = 0 → y = 0) := by
  have hrise : changed true (new - old).toNat v = v + (new - old) := by
    simp only [changed, if_true, UInt8.ofNat_toNat]
  have hfall : changed false (Cell.modulus - (new - old).toNat) v = v + (new - old) := by
    have : (new - old).toNat < 256 := UInt8.toNat_lt _
    have h : UInt8.ofNat (Cell.modulus - (new - old).toNat) = old - new := by
      rw [UInt8.ofNat_sub (by simp [Cell.modulus, Cell.bits]; omega), UInt8.ofNat_toNat]
      simp only [Cell.modulus, Cell.bits]
      grind
    simp only [changed, Bool.false_eq_true, if_false, h]
    grind
  have hmem : setCell new old clearNext ∈ _ := cheapest_mem
  simp only [List.mem_cons, List.mem_append, Option.mem_toList, List.not_mem_nil, or_false] at hmem
  rcases hmem with h | (h | h) | h
  · refine ⟨x, ?_, id⟩
    simpa only [h, hrise] using runs_run _ true (s := s) (n := (new - old).toNat) (v := v)
  · have hr := runs_runByLoop (s := s) (v := v) hf h hx
    exact ⟨0, by rwa [hrise] at hr, fun _ => rfl⟩
  · refine ⟨x, ?_, id⟩
    simpa only [h, hfall] using runs_run _ false (s := s) (n := Cell.modulus - (new - old).toNat)
        (v := v)
  · have hr := runs_runByLoop (s := s) (v := v) hf h hx
    exact ⟨0, by rwa [hfall] at hr, fun _ => rfl⟩

theorem runs_setCell (new old : Cell) (clearNext : Bool) (hf : floor ≤ p)
    (hx : x = 0 ∨ clearNext = true) :
    ∃ y, Runs floor (setCell new old clearNext) (s.window p [old, x] 0) (s.window p [new, y] 0) ∧
      (x = 0 → y = 0) := by
  have h := runs_setCell_add new old old clearNext (s := s) hf hx
  rwa [show old + (new - old) = new by grind] at h

theorem runs_literal (old : Cell) (hf : floor ≤ p) :
    ∃ y, Runs floor (literal v) (s.window p [old, x] 0) (s.window p [v, y] 1) := by
  obtain ⟨y, hy, -⟩ := runs_setCell v 0 _ (s := s) (x := x) hf (.inr rfl)
  refine ⟨y, .append (.append ?_ hy) (runs_right_window.2 rfl)⟩
  exact (runs_clear_window (by simp)).2 rfl

/-! ### Texts -/

theorem runs_writeBytesFrom (hf : floor ≤ p) (bytes : List Cell) :
    Runs floor (writeBytesFrom v bytes) (s.window p [v, 0] 0)
      ((s.emit bytes).window p [bytes.getLastD v, 0] 0) := by
  induction bytes generalizing s v with
  | nil => exact runs_skip.2 (by simp [emit])
  | cons byte bytes ih =>
    obtain ⟨y, hset, hy⟩ := runs_setCell byte v false (s := s) hf
      (.inl rfl)
    cases hy rfl
    have hwrite : Runs floor write (s.window p [byte, 0] 0) ((s.emit [byte]).window p [byte, 0] 0) :=
      (runs_write_window (by simp)).2 rfl
    have h := (hset.append hwrite).append (ih (s := s.emit [byte]) (v := byte))
    have he : (s.emit [byte]).emit bytes = s.emit (byte :: bytes) := by simp [emit]
    rwa [he, ← List.getLastD_cons] at h

theorem runs_writeBytes (hf : floor ≤ s.head) (bytes : List Cell) :
    Runs floor (writeBytes bytes) s ((s.emit bytes).window s.head [bytes.getLastD 0, 0] 0) := by
  have h : Runs floor (clear ++ right 1 ++ clear ++ left 1) s (s.window s.head [0, 0] 0) := by
    conv => arg 3; rw [eq_window s 2]
    simp [slice, List.range_succ, runs_clear_window, runs_right_window, runs_left_window, hf]
  exact h.append (runs_writeBytesFrom hf bytes)

end TapeC.Routine
