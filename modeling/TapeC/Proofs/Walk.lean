import TapeC.Proofs.Transfer
import TapeC.Routine.Walk

/-! Reaching cells at a distance known only at run time. Whatever the index is, the head
comes back to where it started from: the walk empties the cells that it passes, and
what an access at its end changes among these is at most added to the value that is
brought back. -/

namespace TapeC.Routine

open Tape Code Config

variable {floor n p q base i : Nat} {s t : Config} {u v w : Cell} {ws : List Cell} {f g : Cell → Cell}

attribute [local simp] runs_right_window runs_left_window runs_inc_window runs_dec_window
  runs_clear_window runs_pourLeft_window runs_pourRight_window

/-! ### Walking out -/

/-- The configuration with empty cells from `p` to before `q`. -/
def zeroed (s : Config) (p q : Nat) : Config :=
  { s with cells := fun x => if p ≤ x ∧ x < q then 0 else s.cells x }

theorem zeroed_self : zeroed s p p = s := by
  refine Config.ext rfl (fun x => ?_) rfl rfl
  simp only [zeroed, show ¬ (p ≤ x ∧ x < p) by omega, if_false]

theorem zeroed_window (h : p ≤ q) :
    (zeroed s p q).window q (0 :: ws) (i + 1) = (zeroed s p (q + 1)).window (q + 1) ws i := by
  refine Config.ext (by simp; omega) (fun x => ?_) rfl rfl
  simp only [window, zeroed]
  by_cases hx : x < q
  · simp only [hx, if_true, show x < q + 1 by omega]
  · by_cases hq : x = q
    · simp [hq, h]
    · obtain ⟨k, rfl⟩ := Nat.exists_eq_add_of_lt (show q < x by omega)
      simp [show ¬ q + k + 1 < q by omega, show ¬ q + k + 1 < q + 1 by omega,
        show q + k + 1 - q = k + 1 by omega, show q + k + 1 - (q + 1) = k by omega]

theorem window_concat : s.window p (ws ++ [s.cells (p + ws.length)]) i = s.window p ws i := by
  refine Config.ext rfl (fun x => ?_) rfl rfl
  simp only [window]
  by_cases hx : x < p
  · simp only [hx, if_true]
  · obtain ⟨k, rfl⟩ := Nat.exists_eq_add_of_le (Nat.not_lt.1 hx)
    rw [if_neg hx, if_neg hx, Nat.add_sub_cancel_left]
    grind

/-- Rounds that take the index one cell further each time, and with it what is carried along. -/
theorem runs_walk {round : Code}
    (hround : ∀ q u v, p ≤ q → Runs floor round ((zeroed s p q).window q (u :: v :: ws) 0)
      ((zeroed s p (q + 1)).window (q + 1) ((u - 1) :: (v + 1) :: ws) 0)) :
    Runs floor (loop round ++ right 2) ((zeroed s p p).window p (s.cells p :: 0 :: ws) 0)
      ((zeroed s p (p + (s.cells p).toNat + 1)).window (p + (s.cells p).toNat + 1) (s.cells p :: ws) 1) := by
  have hlt : (s.cells p).toNat < 256 := UInt8.toNat_lt _
  have hloop := runs_loop_of_rounds floor round (n := (s.cells p).toNat)
      (S := fun k => (zeroed s p (p + ((s.cells p).toNat - k))).window (p + ((s.cells p).toNat - k))
        (.ofNat k :: .ofNat ((s.cells p).toNat - k) :: ws) 0)
    (cell_window (by simp)) fun k hk => ⟨?_, ?_⟩
  · simp only [Nat.sub_self, Nat.sub_zero, UInt8.ofNat_toNat, Nat.add_zero, UInt8.reduceOfNat] at hloop
    have h := hloop.append ((runs_right_window (n := 2)).2 rfl)
    rwa [zeroed_window (by omega)] at h
  · rw [cell_window (by simp)]
    exact ofNat_succ_ne_zero (by omega)
  · obtain ⟨j, hj⟩ : ∃ j, (s.cells p).toNat - (k + 1) = j := ⟨_, rfl⟩
    have h := hround (p + j) (.ofNat (k + 1)) (.ofNat j) (Nat.le_add_right p j)
    rw [ofNat_succ_sub_one, ← ofNat_succ] at h
    rwa [hj, show (s.cells p).toNat - k = j + 1 by omega]

theorem runs_walkRight_round (hf : floor ≤ q) (hp : p ≤ q) :
    Runs floor (right 2 ++ clear ++ inc 1 ++ left 1 ++ pourRight 1 1 ++ left 1 ++ dec 1 ++
        pourRight 1 1 ++ right 1)
      ((zeroed s p q).window q [u, v] 0)
      ((zeroed s p (q + 1)).window (q + 1) [u - 1, v + 1] 0) := by
  rw [← window_concat, ← zeroed_window hp]
  simp [hf, UInt8.add_comm]

theorem runs_walkRight (floor : Nat) (hf : floor ≤ p) (hh : s.head = p + 1) :
    Runs floor walkRight s ((zeroed s p (p + (s.cells p).toNat + 1)).window
      (p + (s.cells p).toNat + 1) [s.cells p] 1) := by
  have hstart : Runs floor (clear ++ left 1) s ((zeroed s p p).window p [s.cells p, 0] 0) := by
    have hs : s.window p [s.cells p, s.cells (p + 1)] 1 = s := window_slice_self hh 2
    rw [zeroed_self]
    conv => arg 3; rw [← hs]
    simp [hf]
  have h := hstart.append (runs_walk fun q u v hq => runs_walkRight_round (by omega) hq)
  rwa [Runs, ← exec_append_assoc] at h

theorem runs_walkRightCarrying_round (hf : floor ≤ q) (hp : p ≤ q) :
    Runs floor (right 3 ++ clear ++ left 1 ++ pourRight 1 1 ++ left 1 ++ inc 1 ++ pourRight 1 1 ++
        left 1 ++ dec 1 ++ pourRight 1 1 ++ right 1)
      ((zeroed s p q).window q [u, v, w] 0)
      ((zeroed s p (q + 1)).window (q + 1) [u - 1, v + 1, w] 0) := by
  rw [← window_concat, ← zeroed_window hp]
  simp [hf]

theorem runs_walkRightCarrying (floor : Nat) (hf : floor ≤ p) (hh : s.head = p + 3)
    (h0 : s.cells (p + 1) = 0) :
    Runs floor walkRightCarrying s ((zeroed s p (p + (s.cells p).toNat + 1)).window
      (p + (s.cells p).toNat + 1) [s.cells p, s.cells (p + 2)] 1) := by
  have hstart : Runs floor (vacant 2 ++ left 3) s
      ((zeroed s p p).window p [s.cells p, 0, s.cells (p + 2)] 0) := by
    have hs : s.window p [s.cells p, 0, s.cells (p + 2)] 3 = s := by
      rw [← h0]
      exact window_slice_self hh 3
    rw [zeroed_self]
    conv => arg 3; rw [← hs]
    simp [hf]
  have h := hstart.append (runs_walk fun q u v hq => runs_walkRightCarrying_round (by omega) hq)
  rwa [Runs, ← exec_append_assoc] at h

/-- The end of a walk by `i` cells: those from `p` to `p + i` are empty, and the next one counts them. -/
structure Walked (p i : Nat) (s t : Config) : Prop where
  head : t.head = p + i + 2
  cells : ∀ x ≤ p + i, t.cells x = if p ≤ x then 0 else s.cells x
  count : t.cells (p + i + 1) = .ofNat i
  input : t.input = s.input
  output : t.output = s.output

theorem walked_window (ws : List Cell) :
    Walked p i s ((zeroed s p (p + i + 1)).window (p + i + 1) (.ofNat i :: ws) 1) where
  head := rfl
  cells x hx := by
    rw [cells_window_of_lt (by omega)]
    simp only [zeroed, show x < p + i + 1 by omega, and_true]
  count := cells_window_add (j := 0) (by simp)
  input := rfl
  output := rfl

/-! ### Walking back -/

/-- Of the cells walked over, only `q` may hold anything. -/
theorem walkBack_leaves (hf : floor ≤ p) (hi : i < 256) (hh : s.head = p + i + 1)
    (hc : s.cell = .ofNat i) (h0 : ∀ x, p ≤ x → x < p + i → x ≠ q → s.cells x = 0) :
    ∃ t, Runs floor walkBack s t ∧
      Leaves p (s.cells (p + i) + if p ≤ q ∧ q < p + i then s.cells q else 0) s t := by
  induction i generalizing s with
  | zero =>
    refine ⟨s, (runs_loop_of_zero hc).2 rfl, hh, ?_, fun _ _ => rfl, rfl, rfl⟩
    simp [show ¬ (p ≤ q ∧ q < p) by omega]
  | succ i ih =>
    have hf' : floor ≤ p + i := by omega
    let s' : Config := s.window (p + i) [s.cells (p + i) + s.cells (p + i + 1), .ofNat i, 0] 1
    have hround : Runs floor (left 1 ++ pourLeft 1 1 ++ right 1 ++ dec 1 ++ pourLeft 1 1 ++ left 1) s
        s' := by
      have hs : s.window (p + i) [s.cells (p + i), s.cells (p + i + 1), .ofNat (i + 1)] 2 = s := by
        have hh : s.head = p + i + 2 := hh
        rw [← hc, Config.cell, hh]
        exact window_slice_self hh 3
      conv => arg 3; rw [← hs]
      simp [hf', s']
    have hq (x : Nat) : s'.cells x = if x = p + i + 2 then 0 else if x = p + i + 1 then .ofNat i else
        if x = p + i then s.cells (p + i) + s.cells (p + i + 1) else s.cells x := by
      rcases Nat.lt_or_ge x (p + i) with hx | hx
      · rw [cells_window_of_lt hx]
        grind
      · obtain ⟨k, rfl⟩ := Nat.exists_eq_add_of_le hx
        simp only [s', window]
        rcases k with _ | _ | _ | k <;> simp <;> grind
    obtain ⟨t, ht, hl⟩ := ih (s := s') (by omega) rfl (cell_window (by simp))
      fun x hp hx hne => by
        rw [hq]
        have := h0 x hp (by omega) hne
        grind
    refine ⟨t, .round ?_ hround ht, hl.head, hl.value.trans ?_, fun x hx => ?_, hl.input, hl.output⟩
    · rw [hc]
      exact ofNat_succ_ne_zero (by omega)
    · rw [hq, hq]
      have := h0 (p + i) (by omega) (by omega)
      grind
    · rw [hl.below x hx, hq]
      grind

theorem bringBack_leaves (hf : floor ≤ p) (hi : i < 256) (hh : s.head = p + i + 2)
    (hc : s.cells (p + i + 1) = .ofNat i) (hq : q < p + i)
    (h0 : ∀ x, p ≤ x → x ≤ p + i → x ≠ q → s.cells x = 0) :
    ∃ t, Runs floor bringBack s t ∧ Leaves p (s.cell + if p ≤ q then s.cells q else 0) s t := by
  let s' : Config := s.window (p + i) [s.cell, .ofNat i, 0] 1
  have hpour : Runs floor (pourLeft 2 1 ++ left 1) s s' := by
    have hs : s.window (p + i) [0, .ofNat i, s.cell] 2 = s := by
      rw [← hc, Config.cell, hh, ← h0 (p + i) (by omega) (by omega) (by omega)]
      exact window_slice_self hh 3
    have hf' : floor ≤ p + i := by omega
    conv => arg 3; rw [← hs]
    simp [hf', s']
  have hbelow (x : Nat) (hx : x < p + i) : s'.cells x = s.cells x := cells_window_of_lt hx
  obtain ⟨t, ht, hl⟩ := walkBack_leaves (s := s') (q := q) hf hi rfl (cell_window (by simp))
    fun x hp hx hne => by rw [hbelow x hx, h0 x hp (by omega) hne]
  refine ⟨t, hpour.append ht, hl.head, hl.value.trans ?_, fun x hx => ?_, hl.input, hl.output⟩
  · have hv : s'.cells (p + i) = s.cell := cells_window_add (j := 0) (by simp)
    rw [hv, hbelow q hq]
    simp only [hq, and_true]
  · rw [hl.below x hx, hbelow x (by omega)]

/-! ### Accesses -/

/-- A run changes the cell `q` by `f`, if that is left of `p`, and leaves `v` in the cell
`p` and the head right of it. -/
structure Accesses (p q : Nat) (f : Cell → Cell) (v : Cell) (s t : Config) : Prop where
  head : t.head = p + 1
  value : t.cells p = v
  below : ∀ x < p, t.cells x = if x = q then f (s.cells q) else s.cells x
  input : t.input = s.input
  output : t.output = s.output

theorem Accesses.keeps {x : Nat} (h : Accesses p q id v s t) (hx : x < p) : t.cells x = s.cells x := by
  rw [h.below x hx]
  split
  next hq => rw [hq, id]
  next => rfl

/-- A program that changes the cell `n` to the left by `f` and leaves `g` of what it held
under the head, stepping right. -/
def Work (floor n : Nat) (work : Code) (f g : Cell → Cell) : Prop :=
  ∀ s : Config, floor + n ≤ s.head → ∃ e, Runs floor work s
    ((((s.put (s.head - n) (f (s.cells (s.head - n)))).put s.head (g (s.cells (s.head - n)))).put
      (s.head + 1) e).goto (s.head + 1))

theorem Work.accesses {work : Code} (hw : Work floor n work f g)
    (h : floor + n ≤ s.head) : ∃ t, Runs floor work s t ∧
      Accesses s.head (s.head - n) f (g (s.cells (s.head - n))) s t := by
  obtain ⟨e, he⟩ := hw s h
  refine ⟨_, he, rfl, ?_, fun x hx => ?_, rfl, rfl⟩ <;> simp only [cells_goto, cells_put] <;> grind

/-- The value that an access at the end of a walk brings back. -/
def reached (p q : Nat) (f g : Cell → Cell) (s : Config) : Cell :=
  if q < p then g (s.cells q) else g 0 + f 0

/-- The way back from the end `w` of a walk by `i` cells, after an access to the cell `q`. -/
theorem bringBack_accesses (floor : Nat) (s' : Config) {w : Config} (hw : Walked p i s w) (hf : floor ≤ p)
    (hi : i < 256) (hq : q < p + i)
    (hhead : s'.head = p + i + 2) (hold : s'.cells q = f (w.cells q)) (hvalue : s'.cell = g (w.cells q))
    (hrest : ∀ x ≤ p + i + 1, x ≠ q → s'.cells x = w.cells x) (hinput : s'.input = w.input)
    (houtput : s'.output = w.output) :
    ∃ t, Runs floor bringBack s' t ∧ Accesses p q f (reached p q f g s) s t := by
  obtain ⟨t, ht, hl⟩ := bringBack_leaves hf hi hhead ((hrest _ (by omega) (by omega)).trans hw.count) hq
    fun x hp hx hne => by rw [hrest x (by omega) hne, hw.cells x hx, if_pos hp]
  refine ⟨t, ht, hl.head, hl.value.trans ?_, fun x hx => ?_, hl.input.trans (hinput.trans hw.input),
    hl.output.trans (houtput.trans hw.output)⟩
  · rw [hvalue, hold, hw.cells q (by omega), reached]
    by_cases hqp : q < p
    · simp [hqp, show ¬ p ≤ q by omega]
    · simp [hqp, show p ≤ q by omega]
  · rw [hl.below x hx]
    by_cases hxq : x = q
    · subst hxq
      rw [if_pos rfl, hold, hw.cells x (by omega), if_neg (by omega)]
    · rw [if_neg hxq, hrest x (by omega) hxq, hw.cells x (by omega), if_neg (by omega)]

theorem walk_accesses {work : Code} (hf : floor ≤ base) (hb : base < p) (hh : s.head = p + 1)
    (hw : Work floor (p + 2 - base) work f g) :
    ∃ t, Runs floor (walkRight ++ work ++ left 1 ++ bringBack) s t ∧
      Accesses p (base + (s.cells p).toNat) f (reached p (base + (s.cells p).toNat) f g s) s t := by
  have hi : (s.cells p).toNat < 256 := UInt8.toNat_lt _
  have hwalk := runs_walkRight floor (s := s) (p := p) (by omega) hh
  have hend := walked_window (p := p) (i := (s.cells p).toNat) (s := s) []
  rw [UInt8.ofNat_toNat] at hend
  generalize (zeroed s p _).window _ _ 1 = w at hwalk hend
  generalize (s.cells p).toNat = i at hi hend ⊢
  have hq : w.head - (p + 2 - base) = base + i := by
    rw [hend.head]
    omega
  obtain ⟨e, he⟩ := hw w (by rw [hend.head]; omega)
  rw [hq, hend.head] at he
  -- after the access
  let s' : Config := ((w.put (base + i) (f (w.cells (base + i)))).put (p + i + 2) (g (w.cells (base + i)))).put
    (p + i + 2 + 1) e
  have hleft : Runs floor (left 1) (s'.goto (p + i + 2 + 1)) (s'.goto (p + i + 2)) :=
    (runs_left (by simp only [head_goto]; omega)).2 rfl
  obtain ⟨t, ht, ha⟩ := bringBack_accesses floor (s'.goto (p + i + 2)) (f := f) (g := g) hend (by omega) hi
    (show base + i < p + i by omega) rfl (by simp only [s', cells_goto, cells_put]; grind)
    (by simp only [Config.cell, s', head_goto, cells_goto, cells_put]; grind)
    (fun x hx hne => by simp only [s', cells_goto, cells_put]; grind) rfl rfl
  exact ⟨t, ((hwalk.append he).append hleft).append ht, ha⟩

theorem walk_stores (hf : floor ≤ base) (hb : base < p) (hh : s.head = p + 3)
    (h0 : s.cells (p + 1) = 0) :
    ∃ t, Runs floor (walkRightCarrying ++ copyTo (p + 2 - base) ++ bringBack) s t ∧
      Accesses p (base + (s.cells p).toNat) (fun _ => s.cells (p + 2))
        (reached p (base + (s.cells p).toNat) (fun _ => s.cells (p + 2)) (fun _ => s.cells (p + 2)) s)
        s t := by
  have hi : (s.cells p).toNat < 256 := UInt8.toNat_lt _
  have hwalk := runs_walkRightCarrying floor (s := s) (p := p) (by omega) hh h0
  have hend := walked_window (p := p) (i := (s.cells p).toNat) (s := s) [s.cells (p + 2)]
  rw [UInt8.ofNat_toNat] at hend
  have hvalue : ((zeroed s p (p + (s.cells p).toNat + 1)).window (p + (s.cells p).toNat + 1)
      [s.cells p, s.cells (p + 2)] 1).cell = s.cells (p + 2) := cells_window_add (j := 1) (by simp)
  generalize (zeroed s p _).window _ _ 1 = w at hwalk hend hvalue
  generalize (s.cells p).toNat = i at hi hend ⊢
  have hhead := hend.head
  have hstore : Runs floor (copyTo (p + 2 - base)) w _ := (runs_copyTo (by omega) (by omega)).2 rfl
  rw [hvalue, show w.head - (p + 2 - base) = base + i by omega, hhead] at hstore
  obtain ⟨t, ht, ha⟩ := bringBack_accesses floor ((w.put (base + i) (s.cells (p + 2))).put (p + i + 2 + 1) 0)
    (f := fun _ => s.cells (p + 2)) (g := fun _ => s.cells (p + 2)) hend (by omega) hi
    (show base + i < p + i by omega) hhead (by simp only [cells_put]; grind)
    (by rw [← hvalue]; simp only [Config.cell, cells_put, head_put]; grind)
    (fun x hx hne => by simp only [cells_put]; grind) rfl rfl
  exact ⟨t, (hwalk.append hstore).append ht, ha⟩

end TapeC.Routine
