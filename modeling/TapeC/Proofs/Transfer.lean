import TapeC.Proofs.Window
import TapeC.Routine.Transfer

/-! The effect of the programs that carry the content of a cell to other cells, for
every distance and from every tape. -/

namespace TapeC.Routine

open Tape Code Config

variable {floor n m p i : Nat} {s t : Config} {ws : List Cell}

theorem runs_clear : Runs floor clear s t ↔ t = s.store 0 := by
  refine Runs.iff ?_
  have h := runs_loop_of_rounds floor (dec 1) (S := fun k => s.store (.ofNat k)) (n := s.cell.toNat)
      (by simp [Config.cell, Config.store])
    fun k hk => ⟨?_, ?_⟩
  · simpa [clear, Config.store, Config.cell, Config.put] using h
  · have : s.cell.toNat < 256 := UInt8.toNat_lt _
    simpa [Config.cell, Config.store] using ofNat_succ_ne_zero (k := k) (by omega)
  · simp [runs_dec, Config.cell, Config.store]

theorem runs_clear_window (h : i < ws.length) :
    Runs floor clear (s.window p ws i) t ↔ t = s.window p (ws.set i 0) i := by
  rw [runs_clear, window_store h]

/-! ### Drains over any distance -/

/-- Adds to each cell `k` times what `δ` tells for it. -/
def addAll (s : Config) (k : Cell) (δ : Nat → Cell) : Config :=
  { s with cells := fun x => s.cells x + k * δ x }

/-- A loop whose body adds fixed amounts, and takes one from the cell under the head. -/
theorem runs_drain_cells (floor : Nat) (body : Code) {δ : Nat → Cell} (hδ : δ s.head = 255)
    (hbody : ∀ u : Config, u.head = s.head → Runs floor body u (addAll u 1 δ)) :
    Runs floor (loop body) s (addAll s s.cell δ) := by
  have hcell (k : Nat) : (addAll s (s.cell - .ofNat k) δ).cell = .ofNat k := by
    simp only [addAll, Config.cell, hδ]
    grind
  have h := runs_loop_of_rounds floor body (S := fun k => addAll s (s.cell - .ofNat k) δ)
      (n := s.cell.toNat) (by rw [hcell]; rfl)
    fun k hk => ⟨?_, ?_⟩
  · simpa [addAll] using h
  · have : s.cell.toNat < 256 := UInt8.toNat_lt _
    rw [hcell]
    exact ofNat_succ_ne_zero (by omega)
  · have e : addAll (addAll s (s.cell - .ofNat (k + 1)) δ) 1 δ = addAll s (s.cell - .ofNat k) δ := by
      refine Config.ext rfl (fun x => ?_) rfl rfl
      simp only [addAll, UInt8.ofNat_add]
      grind
    exact e ▸ hbody _ rfl

theorem runs_pourLeft (hn : 0 < n) (h : floor + n ≤ s.head) :
    Runs floor (pourLeft n m) s t ↔
      t = (s.put (s.head - n) (s.cells (s.head - n) + s.cell * .ofNat m)).put s.head 0 := by
  have hd := runs_drain_cells floor (left n ++ inc m ++ right n ++ dec 1) (s := s)
      (δ := fun x => if x = s.head then 255 else if x = s.head - n then .ofNat m else 0) (by simp)
    fun u hu => ?_
  · rw [pourLeft, hd.iff]
    congr! 1
    refine Config.ext rfl (fun x => ?_) rfl rfl
    simp only [addAll, cells_put]
    grind [Config.cell]
  · have e : s.head - n + n = s.head := by omega
    simp only [runs_append, runs_left (show floor + n ≤ u.head by omega), exists_eq_left, runs_inc,
      runs_right, runs_dec, hu, cell_def, store_def, head_put, head_goto, put_goto, goto_goto, e]
    refine Config.ext hu (fun x => ?_) rfl rfl
    simp only [addAll, cells_put, cells_goto]
    grind

theorem runs_pourRight (hn : 0 < n) (h : floor ≤ s.head) :
    Runs floor (pourRight n m) s t ↔
      t = (s.put (s.head + n) (s.cells (s.head + n) + s.cell * .ofNat m)).put s.head 0 := by
  have hd := runs_drain_cells floor (right n ++ inc m ++ left n ++ dec 1) (s := s)
      (δ := fun x => if x = s.head then 255 else if x = s.head + n then .ofNat m else 0) (by simp)
    fun u hu => ?_
  · rw [pourRight, hd.iff]
    congr! 1
    refine Config.ext rfl (fun x => ?_) rfl rfl
    simp only [addAll, cells_put]
    grind [Config.cell]
  · simp (disch := ((try simp only [head_put, head_goto]); first | done | omega)) only
      [runs_append, runs_right,
      exists_eq_left, runs_inc, hu, cell_def, store_def, head_put, head_goto, put_goto, runs_left,
      Nat.add_sub_cancel, goto_goto, runs_dec]
    refine Config.ext hu (fun x => ?_) rfl rfl
    simp only [addAll, cells_put, cells_goto]
    grind

theorem runs_spreadRight {k : Nat} (hn : 0 < n) (hk : 0 < k) (h : floor ≤ s.head) :
    Runs floor (spreadRight n k) s t ↔
      t = ((s.put (s.head + n) (s.cells (s.head + n) + s.cell)).put (s.head + (n + k))
        (s.cells (s.head + (n + k)) + s.cell)).put s.head 0 := by
  have hd := runs_drain_cells floor (right n ++ inc 1 ++ right k ++ inc 1 ++ left (n + k) ++ dec 1)
      (s := s) (δ := fun x => if x = s.head then 255 else if x = s.head + n ∨ x = s.head + (n + k)
        then 1 else 0)
    (by simp) fun u hu => ?_
  · rw [spreadRight, hd.iff]
    congr! 1
    refine Config.ext rfl (fun x => ?_) rfl rfl
    simp only [addAll, cells_put]
    grind [Config.cell]
  · simp (disch := ((try simp only [head_put, head_goto]); first | done | omega)) only
      [runs_append, runs_right,
      exists_eq_left, runs_inc, hu, cell_def, store_def, head_put, head_goto, put_goto, runs_left,
      Nat.add_sub_cancel, goto_goto, runs_dec, Nat.add_assoc]
    refine Config.ext hu (fun x => ?_) rfl rfl
    simp only [addAll, cells_put, cells_goto]
    grind

/-! ### Copies -/

theorem runs_copyFrom (hn : 0 < n) (h : floor + n ≤ s.head) :
    Runs floor (copyFrom n) s t ↔
      t = ((s.put s.head (s.cells (s.head - n))).put (s.head + 1) 0).goto (s.head + 1) := by
  have e : s.head - n + (n + 1) = s.head + 1 := by omega
  simp (disch := ((try simp only [head_put, head_goto]); first | done | omega)) only
      [copyFrom, runs_append, runs_right,
    exists_eq_left, runs_clear, cell_def, store_def, head_put, head_goto, put_goto, runs_left,
    goto_goto, Nat.add_sub_add_right, runs_spreadRight, runs_pourLeft, e]
  congr! 1
  refine Config.ext rfl (fun x => ?_) rfl rfl
  simp only [cells_put, cells_goto]
  grind

/-- The loop of `copyTo`, which drains the value into the place and a scratch cell. -/
theorem runs_drainTo (hn : 0 < n) (h : floor + n ≤ s.head) :
    Runs floor (loop (right 1 ++ inc 1 ++ left (n + 1) ++ inc 1 ++ right n ++ dec 1)) s t ↔
      t = ((s.put (s.head - n) (s.cells (s.head - n) + s.cell)).put (s.head + 1)
        (s.cells (s.head + 1) + s.cell)).put s.head 0 := by
  have e : s.head - n + n = s.head := by omega
  have hd := runs_drain_cells floor (right 1 ++ inc 1 ++ left (n + 1) ++ inc 1 ++ right n ++ dec 1)
      (s := s) (δ := fun x => if x = s.head then 255 else if x = s.head + 1 ∨ x = s.head - n then 1
        else 0)
    (by simp) fun v hv => ?_
  · rw [hd.iff]
    congr! 1
    refine Config.ext rfl (fun x => ?_) rfl rfl
    simp only [addAll, cells_put]
    grind [Config.cell]
  · simp (disch := ((try simp only [head_put, head_goto]); first | done | omega)) only [runs_append,
      runs_right, exists_eq_left, runs_inc, hv, cell_def, store_def, head_put, head_goto, put_goto,
      runs_left, goto_goto, runs_dec, Nat.add_sub_add_right, e]
    refine Config.ext hv (fun x => ?_) rfl rfl
    simp only [addAll, cells_put, cells_goto]
    grind

theorem runs_copyTo (hn : 0 < n) (h : floor + n ≤ s.head) :
    Runs floor (copyTo n) s t ↔ t = (s.put (s.head - n) s.cell).put (s.head + 1) 0 := by
  have e : s.head - n + n = s.head := by omega
  simp (disch := ((try simp only [head_put, head_goto]); first | done | omega)) only [copyTo,
    runs_append, runs_right, exists_eq_left, runs_clear, cell_def, store_def, head_put, head_goto,
    put_goto, runs_left, goto_goto, Nat.add_sub_add_right, runs_drainTo, runs_pourLeft, e,
    Nat.add_sub_cancel]
  congr! 1
  refine Config.ext rfl (fun x => ?_) rfl rfl
  simp only [cells_put, cells_goto]
  grind

theorem runs_moveTo (hn : 0 < n) (h : floor + n ≤ s.head) :
    Runs floor (moveTo n) s t ↔ t = (s.put (s.head - n) s.cell).put s.head 0 := by
  have e : s.head - n + n = s.head := by omega
  simp (disch := ((try simp only [head_put, head_goto]); first | done | omega)) only
      [moveTo, runs_append, runs_right,
    exists_eq_left, runs_clear, cell_def, store_def, head_put, head_goto, put_goto, runs_left,
    goto_goto, runs_pourLeft, e]
  congr! 1
  refine Config.ext rfl (fun x => ?_) rfl rfl
  simp only [cells_put, cells_goto]
  grind

/-! ### Updates -/

/-- The value of a cell after a change. -/
def Change.apply : Change → Cell → Cell
  | increment, v => v + 1
  | decrement, v => v - 1
  | keep, v => v
  | reset, _ => 0

theorem Change.runs_code {c : Change} (h : c ≠ reset) :
    Runs floor c.code s t ↔ t = s.store (c.apply s.cell) := by
  cases c with
  | increment => exact runs_inc
  | decrement => exact runs_dec
  | keep => simp [code, apply, Config.store, Config.put, Config.cell]
  | reset => cases h rfl

/-- The next cell is scratch; it stays as it is if the changed cell is reset. -/
def Change.scratch (c : Change) (v : Cell) : Cell := if c = reset then v else 0

theorem runs_updateThenRead {c : Change} (hn : 0 < n) (h : floor + n ≤ s.head) :
    Runs floor (updateThenRead c n) s t ↔
      t = (((s.put (s.head - n) (c.apply (s.cells (s.head - n)))).put s.head
        (c.apply (s.cells (s.head - n)))).put (s.head + 1) (c.scratch (s.cells (s.head + 1)))).goto
          (s.head + 1) := by
  have e : s.head - n + n = s.head := by omega
  have e' : s.head - n + (n + 1) = s.head + 1 := by omega
  by_cases hc : c = .reset
  · subst hc
    simp (disch := ((try simp only [head_put, head_goto]); first | done | omega)) only
        [updateThenRead, runs_append,
      runs_right, exists_eq_left, runs_clear, store_def, head_put, head_goto, put_goto, runs_left,
      goto_goto, e]
    congr! 1
    refine Config.ext rfl (fun x => ?_) rfl rfl
    simp only [cells_put, cells_goto, Change.apply, Change.scratch]
    grind
  · have hu : updateThenRead c n = clear ++ right 1 ++ clear ++ left (n + 1) ++ c.code ++
        spreadRight n 1 ++ right (n + 1) ++ pourLeft (n + 1) 1 := by
      cases c <;> first | rfl | cases hc rfl
    simp (disch := ((try simp only [head_put, head_goto]); first | done | omega)) only [hu, runs_append,
      runs_right, exists_eq_left, runs_clear, cell_def, store_def, head_put, head_goto, put_goto,
      runs_left, goto_goto, Change.runs_code hc, Nat.add_sub_add_right, runs_spreadRight,
      runs_pourLeft, e, e']
    congr! 1
    refine Config.ext rfl (fun x => ?_) rfl rfl
    simp only [cells_put, cells_goto, Change.scratch, hc]
    grind

theorem runs_readThenUpdate {c : Change} (hn : 0 < n) (h : floor + n ≤ s.head) :
    Runs floor (readThenUpdate c n) s t ↔
      t = (((s.put (s.head - n) (c.apply (s.cells (s.head - n)))).put s.head
        (s.cells (s.head - n))).put (s.head + 1) (c.scratch (s.cells (s.head + 1)))).goto
          (s.head + 1) := by
  have e : s.head - n + n = s.head := by omega
  have e' : s.head - n + (n + 1) = s.head + 1 := by omega
  by_cases hc : c = .reset
  · subst hc
    simp (disch := ((try simp only [head_put, head_goto]); first | done | omega)) only
        [readThenUpdate, runs_append,
      runs_right, exists_eq_left, runs_clear, cell_def, store_def, head_put, head_goto, put_goto,
      runs_left, runs_pourRight, goto_goto, e]
    congr! 1
    refine Config.ext rfl (fun x => ?_) rfl rfl
    simp only [cells_put, cells_goto, Change.apply, Change.scratch]
    grind
  · have hu : readThenUpdate c n = clear ++ right 1 ++ clear ++ left (n + 1) ++ spreadRight n 1 ++
        right (n + 1) ++ c.code ++ pourLeft (n + 1) 1 := by
      cases c <;> first | rfl | cases hc rfl
    simp (disch := ((try simp only [head_put, head_goto]); first | done | omega)) only [hu, runs_append,
      runs_right, exists_eq_left, runs_clear, cell_def, store_def, head_put, head_goto, put_goto,
      runs_left, goto_goto, Change.runs_code hc, Nat.add_sub_add_right, runs_spreadRight,
      runs_pourLeft, e, e']
    congr! 1
    refine Config.ext rfl (fun x => ?_) rfl rfl
    simp only [cells_put, cells_goto, Change.scratch, hc]
    cases c <;> simp only [Change.apply] <;> grind

/-! ### In a window -/

theorem runs_pourLeft_window (hf : floor ≤ p) (hn : 0 < n) (h : n ≤ i) (hi : i < ws.length) :
    Runs floor (pourLeft n m) (s.window p ws i) t ↔
      t = s.window p ((ws.set (i - n) (ws[i - n] + ws[i] * .ofNat m)).set i 0) i := by
  rw [runs_pourLeft hn (by rw [head_window]; omega), head_window, cell_window hi,
    Nat.add_sub_assoc h, cells_window_add (by omega), window_put (by omega),
    window_put (by rwa [List.length_set])]

theorem runs_pourRight_window (hf : floor ≤ p) (hn : 0 < n) (h : i + n < ws.length) :
    Runs floor (pourRight n m) (s.window p ws i) t ↔
      t = s.window p ((ws.set (i + n) (ws[i + n] + ws[i] * .ofNat m)).set i 0) i := by
  rw [runs_pourRight hn (by rw [head_window]; omega), head_window, cell_window (by omega),
    Nat.add_assoc, cells_window_add h, window_put h, window_put (by rw [List.length_set]; omega)]

theorem runs_spreadRight_window {k : Nat} (hf : floor ≤ p) (hn : 0 < n) (hk : 0 < k)
    (h : i + (n + k) < ws.length) :
    Runs floor (spreadRight n k) (s.window p ws i) t ↔
      t = s.window p (((ws.set (i + n) (ws[i + n] + ws[i])).set (i + (n + k))
        (ws[i + (n + k)] + ws[i])).set i 0) i := by
  rw [runs_spreadRight hn hk (by rw [head_window]; omega), head_window, cell_window (by omega),
    Nat.add_assoc, Nat.add_assoc, cells_window_add (by omega), cells_window_add h,
    window_put (by omega), window_put (by rwa [List.length_set]),
    window_put (by simp only [List.length_set]; omega)]

end TapeC.Routine
