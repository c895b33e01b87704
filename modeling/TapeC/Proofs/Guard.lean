import TapeC.Proofs.Transfer
import TapeC.Routine.Guard

/-! Guarded programs run at most once. -/

namespace TapeC.Routine

open Tape Code Config

variable {floor n : Nat} {s t u : Config} {inner : Code}

/-! ### Tests for zero -/

theorem runs_raiseFlag (hf : floor ≤ s.head) :
    Runs floor (right n ++ clear ++ inc 1 ++ left n) s t ↔ t = s.put (s.head + n) 1 := by
  simp (disch := ((try simp only [head_put, head_goto]); first | done | omega)) only [runs_append,
    runs_right, exists_eq_left, runs_clear, runs_inc, runs_left, cell_def, store_def, head_put,
    head_goto, put_goto, goto_goto, Nat.add_sub_cancel, goto_head, put_put_self, cells_put_self]
  rfl

theorem runs_ifZero_of_ne (hn : 0 < n) (hf : floor ≤ s.head) (h : s.cell ≠ 0) :
    Runs floor (ifZero inner n) s t ↔ t = (s.put (s.head + n) 0).put s.head 0 := by
  refine Runs.iff ?_
  have hflag := (runs_raiseFlag (n := n) hf).2 rfl
  -- the flag is taken down
  have hdown : Runs floor (right n ++ dec 1 ++ left n ++ clear) (s.put (s.head + n) 1)
      ((s.put (s.head + n) 0).put s.head 0) := by
    simp (disch := ((try simp only [head_put, head_goto]); first | done | omega)) only [runs_append,
      runs_right, exists_eq_left, runs_clear, runs_dec, runs_left, cell_def, store_def, head_put,
      head_goto, put_goto, goto_goto, Nat.add_sub_cancel, goto_head, put_put_self, cells_put_self]
    rfl
  have hloop := Runs.round (by simpa [Config.cell, cells_put, Nat.ne_of_gt hn] using h) hdown
    ((runs_loop_of_zero (by simp [Config.cell])).2 rfl)
  have hright : Runs floor (right n) ((s.put (s.head + n) 0).put s.head 0)
      (((s.put (s.head + n) 0).put s.head 0).goto (s.head + n)) := runs_right.2 rfl
  have hskip : Runs floor (loop (left n ++ inner ++ right n ++ dec 1))
      (((s.put (s.head + n) 0).put s.head 0).goto (s.head + n)) _ :=
    (runs_loop_of_zero (by simp [Config.cell, cells_put, Nat.ne_of_gt hn])).2 rfl
  refine (((hflag.append hloop).append hright).append hskip).append ((runs_left ?_).2 ?_)
  · simp only [head_goto]
    omega
  · simp

/-- What `ifZero` does before a tested cell that is zero leads to `inner`. -/
theorem runs_ifZero_start (hn : 0 < n) (hf : floor ≤ s.head) (h : s.cell = 0) :
    Runs floor (right n ++ clear ++ inc 1 ++ left n ++
      loop (right n ++ dec 1 ++ left n ++ clear) ++ right n) s
      ((s.put (s.head + n) 1).goto (s.head + n)) := by
  have hflag := (runs_raiseFlag (n := n) hf).2 rfl
  have hskip : Runs floor (loop (right n ++ dec 1 ++ left n ++ clear)) (s.put (s.head + n) 1) _ :=
    (runs_loop_of_zero (by simpa [Config.cell, cells_put, Nat.ne_of_gt hn] using h)).2 rfl
  exact (hflag.append hskip).append (runs_right.2 rfl)

/-- The program in the guard leaves the flag as it is. -/
theorem runs_ifZero_of_eq (hn : 0 < n) (hf : floor ≤ s.head) (h : s.cell = 0)
    (hi : Runs floor inner (s.put (s.head + n) 1) u) (hh : u.head = s.head)
    (hu : u.cells (s.head + n) = 1) :
    Runs floor (ifZero inner n) s t ↔ t = u.put (s.head + n) 0 := by
  refine Runs.iff ?_
  have hround : Runs floor (left n ++ inner ++ right n ++ dec 1)
      ((s.put (s.head + n) 1).goto (s.head + n)) ((u.put (s.head + n) 0).goto (s.head + n)) := by
    have hleft : Runs floor (left n) ((s.put (s.head + n) 1).goto (s.head + n))
        (s.put (s.head + n) 1) := (runs_left (by simp only [head_goto]; omega)).2 (by simp)
    refine ((hleft.append hi).append (runs_right.2 rfl)).append (runs_dec.2 ?_)
    simp [Config.cell, store_def, hh, hu]
  have hloop := Runs.round (by simp [Config.cell]) hround
    ((runs_loop_of_zero (by simp [Config.cell])).2 rfl)
  refine ((runs_ifZero_start hn hf h).append hloop).append ((runs_left ?_).2 ?_)
  · simp only [head_goto]
    omega
  · rw [← hh]
    simp

theorem never_ifZero (hn : 0 < n) (hf : floor ≤ s.head) (h : s.cell = 0)
    (hi : Never floor inner (s.put (s.head + n) 1)) : Never floor (ifZero inner n) s := by
  have hleft : Runs floor (left n) ((s.put (s.head + n) 1).goto (s.head + n))
      (s.put (s.head + n) 1) := (runs_left (by simp only [head_goto]; omega)).2 (by simp)
  exact ((runs_ifZero_start hn hf h).never
    (.loop (by simp [Config.cell]) (hleft.never hi).append.append)).append

variable {p i : Nat} {ws us : List Cell}

theorem runs_ifZero_window_of_ne (hf : floor ≤ p) (hn : 0 < n) (hl : i < ws.length) (hi : i + n < ws.length)
    (h : ws[i] ≠ 0) : Runs floor (ifZero inner n) (s.window p ws i) t ↔
      t = s.window p ((ws.set (i + n) 0).set i 0) i := by
  rw [runs_ifZero_of_ne hn (by rw [head_window]; omega) (by rwa [cell_window hl]),
    head_window, Nat.add_assoc, window_put hi, window_put (by rw [List.length_set]; omega)]

theorem runs_ifZero_window_of_eq (ws us : List Cell) (hf : floor ≤ p) (hn : 0 < n) (hw : i < ws.length)
    (hi : i + n < ws.length) (h : ws[i] = 0) (hr : Runs floor inner (s.window p (ws.set (i + n) 1) i) (s.window p us i))
    (hl : i + n < us.length) (hu : us[i + n] = 1) :
    Runs floor (ifZero inner n) (s.window p ws i) t ↔ t = s.window p (us.set (i + n) 0) i := by
  rw [runs_ifZero_of_eq (s := s.window p ws i) (u := s.window p us i) hn (by rw [head_window]; omega)
      (by rwa [cell_window hw]) (by rwa [head_window, Nat.add_assoc, window_put hi]) rfl
      (by rwa [head_window, Nat.add_assoc, cells_window_add hl]),
    head_window, Nat.add_assoc, window_put hl]

/-! ### Truth values -/

/-- The truth value of a cell moves into the empty cell to its left. -/
theorem runs_flag_window (hf : floor ≤ p) (hi : i + 1 < ws.length) (h0 : ws[i] = 0) :
    Runs floor (loop (clear ++ left 1 ++ inc 1 ++ right 1)) (s.window p ws (i + 1)) t ↔
      t = s.window p ((ws.set i (Cell.ofBool (ws[i + 1] != 0))).set (i + 1) 0) (i + 1) := by
  by_cases hv : ws[i + 1] = 0
  · rw [runs_loop_window_of_zero hi hv, hv, show Cell.ofBool ((0 : Cell) != 0) = ws[i] from h0.symm,
      List.set_getElem_self, ← hv, List.set_getElem_self]
  · have hi' : i < ws.length := by omega
    simp [runs_right_window, runs_left_window, runs_inc_window, runs_clear_window, runs_loop_window_of_zero,
      runs_loop_window_of_ne, hf, hi, hi', hv, h0, Cell.ofBool, List.set_comm]

end TapeC.Routine
