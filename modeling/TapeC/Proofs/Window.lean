import TapeC.Proofs.Execution

/-! Programs on a few adjacent cells. A window names the contents of the cells from
some place on; a program that stays inside it is run by rewriting the list of these
contents, and nothing outside changes. -/

namespace TapeC.Tape

namespace Config

/-- The configuration with `ws` in the cells from `p` on, and the head on the `i`-th
of them. -/
def window (s : Config) (p : Nat) (ws : List Cell) (i : Nat) : Config :=
  { s with
    head := p + i
    cells := fun x => if x < p then s.cells x else (ws[x - p]?).getD (s.cells x) }

variable {s : Config} {p i j : Nat} {ws : List Cell} {v : Cell}

@[simp] theorem head_window : (s.window p ws i).head = p + i := rfl
@[simp] theorem input_window : (s.window p ws i).input = s.input := rfl
@[simp] theorem output_window : (s.window p ws i).output = s.output := rfl

theorem cells_window_of_lt {x : Nat} (h : x < p) : (s.window p ws i).cells x = s.cells x := by
  simp [window, h]

theorem cells_window_add (h : j < ws.length) : (s.window p ws i).cells (p + j) = ws[j] := by
  simp [window, show ¬ p + j < p by omega, h]

theorem cells_window_of_ge {x : Nat} (h : p + ws.length ≤ x) :
    (s.window p ws i).cells x = s.cells x := by
  simp [window, show ¬ x < p by omega, List.getElem?_eq_none (show ws.length ≤ x - p by omega)]

theorem cell_window (h : i < ws.length) : (s.window p ws i).cell = ws[i] := cells_window_add h

theorem window_goto : (s.window p ws i).goto (p + j) = s.window p ws j := rfl

theorem window_emit {bytes : List Cell} :
    (s.window p ws i).emit bytes = (s.emit bytes).window p ws i := rfl

theorem window_setInput {bytes : List Cell} :
    (s.window p ws i).setInput bytes = (s.setInput bytes).window p ws i := rfl

theorem window_put (h : j < ws.length) :
    (s.window p ws i).put (p + j) v = s.window p (ws.set j v) i := by
  refine Config.ext rfl (fun x => ?_) rfl rfl
  rw [cells_put]
  simp only [window]
  by_cases hx : x < p
  · simp [hx, show x ≠ p + j by omega]
  · by_cases hj : x = p + j
    · simp [hj, h, show ¬ p + j < p by omega]
    · simp [hx, hj, show j ≠ x - p by omega]

theorem window_store (h : i < ws.length) :
    (s.window p ws i).store v = s.window p (ws.set i v) i := window_put h

/-- A window on a window further right. -/
theorem window_append {vs : List Cell} :
    s.window p (ws ++ vs) i = (s.window (p + ws.length) vs j).window p ws i := by
  refine Config.ext rfl (fun x => ?_) rfl rfl
  simp only [window]
  grind

/-- A window on a window further left. -/
theorem window_append_right {vs : List Cell} :
    s.window p (ws ++ vs) (ws.length + i) = (s.window p ws j).window (p + ws.length) vs i := by
  refine Config.ext (by simp; omega) (fun x => ?_) rfl rfl
  simp only [window]
  grind

/-- A window on a shorter one in the same place. -/
theorem window_window {vs : List Cell} (h : ws.length ≤ vs.length) : (s.window p ws i).window p vs j = s.window p vs j := by
  refine Config.ext rfl (fun x => ?_) rfl rfl
  simp only [window]
  grind

theorem window_singleton : s.window s.head [v] 0 = s.store v := by
  refine Config.ext rfl (fun x => ?_) rfl rfl
  simp only [window, store_def, cells_put]
  grind

/-- The contents of the `n` cells from `p` on. -/
def slice (s : Config) (p n : Nat) : List Cell := (List.range n).map fun j => s.cells (p + j)

theorem window_slice (n : Nat) : s.window p (s.slice p n) i = s.goto (p + i) := by
  refine Config.ext rfl (fun x => ?_) rfl rfl
  simp only [window, slice, cells_goto]
  split
  · rfl
  · by_cases hx : x - p < n
    · simp [hx, show p + (x - p) = x by omega]
    · simp [hx]

theorem window_slice_self (h : s.head = p + i) (n : Nat) : s.window p (s.slice p n) i = s := by
  rw [window_slice, ← h]
  rfl

/-- Every configuration is a window from its head on. -/
theorem eq_window_of_slice (h : s.head = p + i) (hw : s.slice p ws.length = ws) :
    s = s.window p ws i := by
  rw [← hw]
  exact (window_slice_self h _).symm

theorem eq_window (s : Config) (n : Nat) : s = s.window s.head (s.slice s.head n) 0 :=
  (window_slice_self rfl n).symm

end Config

namespace Code

open Config

variable {floor p i n : Nat} {s t : Config} {ws : List Cell} {body : Code}

theorem runs_right_window :
    Runs floor (right n) (s.window p ws i) t ↔ t = s.window p ws (i + n) := by
  rw [runs_right, head_window, Nat.add_assoc, window_goto]

theorem runs_left_window (hf : floor ≤ p) (h : n ≤ i) :
    Runs floor (left n) (s.window p ws i) t ↔ t = s.window p ws (i - n) := by
  rw [runs_left (by rw [head_window]; omega), head_window, Nat.add_sub_assoc h, window_goto]

theorem runs_inc_window (h : i < ws.length) :
    Runs floor (inc n) (s.window p ws i) t ↔ t = s.window p (ws.set i (ws[i] + .ofNat n)) i := by
  rw [runs_inc, cell_window h, window_store h]

theorem runs_dec_window (h : i < ws.length) :
    Runs floor (dec n) (s.window p ws i) t ↔ t = s.window p (ws.set i (ws[i] - .ofNat n)) i := by
  rw [runs_dec, cell_window h, window_store h]

theorem runs_write_window (h : i < ws.length) :
    Runs floor write (s.window p ws i) t ↔ t = (s.emit [ws[i]]).window p ws i := by
  rw [runs_write, cell_window h, window_emit]

theorem runs_read_window (h : i < ws.length) :
    Runs floor read (s.window p ws i) t ↔
      t = (s.setInput s.input.tail).window p (ws.set i (s.input.headD 0)) i := by
  rw [runs_read, input_window, window_store h, window_setInput]

theorem runs_loop_window_of_zero (h : i < ws.length) (h0 : ws[i] = 0) :
    Runs floor (loop body) (s.window p ws i) t ↔ t = s.window p ws i :=
  runs_loop_of_zero (by rw [cell_window h, h0])

theorem runs_loop_window_of_ne (h : i < ws.length) (h0 : ws[i] ≠ 0) :
    Runs floor (loop body) (s.window p ws i) t ↔
      ∃ u, Runs floor body (s.window p ws i) u ∧ Runs floor (loop body) u t :=
  runs_loop_of_ne (by rwa [cell_window h])

/-! ### Counted loops -/

/-- A loop whose rounds lead through given configurations to one with an empty cell
under the head. -/
theorem runs_loop_of_rounds (floor : Nat) (body : Code) {S : Nat → Config} (h0 : (S 0).cell = 0)
    (hS : ∀ k < n, (S (k + 1)).cell ≠ 0 ∧ Runs floor body (S (k + 1)) (S k)) :
    Runs floor (loop body) (S n) (S 0) := by
  induction n with
  | zero => exact (runs_loop_of_zero h0).2 rfl
  | succ n ih =>
    obtain ⟨hne, hb⟩ := hS n (by omega)
    exact .round hne hb (ih fun k hk => hS k (by omega))

/-- As `runs_loop_of_rounds`, where a round leads to one of several configurations. -/
theorem runs_loop_of_rel (floor : Nat) (body : Code) {R : Nat → Config → Prop}
    (h0 : ∀ s, R 0 s → s.cell = 0)
    (hR : ∀ k s, k < n → R (k + 1) s → s.cell ≠ 0 ∧ ∃ t, Runs floor body s t ∧ R k t)
    (hs : R n s) : ∃ t, Runs floor (loop body) s t ∧ R 0 t := by
  induction n generalizing s with
  | zero => exact ⟨s, (runs_loop_of_zero (h0 s hs)).2 rfl, hs⟩
  | succ n ih =>
    obtain ⟨hne, t, hb, ht⟩ := hR n s (by omega) hs
    obtain ⟨u, hu, h⟩ := ih (fun k s hk => hR k s (by omega)) ht
    exact ⟨u, .round hne hb hu, h⟩

theorem ofNat_succ_ne_zero {k : Nat} (h : k < 255) : (UInt8.ofNat (k + 1)) ≠ 0 := by
  intro h0
  have := congrArg UInt8.toNat h0
  simp [UInt8.toNat_ofNat'] at this
  omega

theorem ofNat_succ (k : Nat) : UInt8.ofNat (k + 1) = UInt8.ofNat k + 1 := UInt8.ofNat_add k 1

theorem ofNat_succ_sub_one (k : Nat) : UInt8.ofNat (k + 1) - 1 = UInt8.ofNat k := by
  rw [UInt8.ofNat_add]
  exact UInt8.add_sub_cancel _ _

/-- A loop that counts the cell under the head down by one in each round. -/
theorem runs_countdown (floor : Nat) (body : Code) {S : Cell → Config} (hS : ∀ x, (S x).cell = x)
    (hbody : ∀ x, x ≠ 0 → Runs floor body (S x) (S (x - 1))) (x : Cell) :
    Runs floor (loop body) (S x) (S 0) := by
  have hx : x.toNat < 256 := UInt8.toNat_lt _
  have h := runs_loop_of_rounds floor body (S := fun k => S (.ofNat k)) (n := x.toNat) (hS _) fun k
      hk => ⟨?_, ?_⟩
  · simpa using h
  · rw [hS]
    exact ofNat_succ_ne_zero (by omega)
  · have := hbody _ (ofNat_succ_ne_zero (k := k) (by omega))
    rwa [ofNat_succ_sub_one] at this

/-! ### Drains -/

/-- The place of the head and the amounts added to the cells of a window by a program
without loops, input and output. -/
def adds : Code → Nat × List Cell → Option (Nat × List Cell)
  | skip, s => some s
  | right n, (i, ds) => some (i + n, ds)
  | left n, (i, ds) => if n ≤ i then some (i - n, ds) else none
  | inc n, (i, ds) => if h : i < ds.length then some (i, ds.set i (ds[i] + .ofNat n)) else none
  | dec n, (i, ds) => if h : i < ds.length then some (i, ds.set i (ds[i] - .ofNat n)) else none
  | seq a b, s => a.adds s >>= b.adds
  | note _, s => some s
  | within _, s => some s
  | vacant _, s => some s
  | _, _ => none

/-- Each cell of a window with `k` times its share of `ds` added. -/
def addTimes (k : Cell) (ws ds : List Cell) : List Cell := List.zipWith (fun w d => w + k * d) ws ds

theorem length_addTimes {k : Cell} {ds : List Cell} (h : ws.length = ds.length) :
    (addTimes k ws ds).length = ds.length := by
  simp [addTimes, h]

theorem addTimes_set {k d : Cell} {ds : List Cell} (h : i < ws.length) :
    addTimes k ws (ds.set i d) = (addTimes k ws ds).set i (ws[i] + k * d) := by
  refine List.ext_getElem (by simp [addTimes]) fun j _ _ => ?_
  simp only [addTimes, List.getElem_zipWith, List.getElem_set]
  split
  · next hj => subst hj; rfl
  · rfl

theorem runs_of_adds (floor : Nat) (ws : List Cell) {c : Code} {ds es : List Cell} {j : Nat}
    (hf : floor ≤ p)
    (hl : ws.length = ds.length) (h : c.adds (i, ds) = some (j, es)) :
    es.length = ds.length ∧
      Runs floor c (s.window p (addTimes 1 ws ds) i) (s.window p (addTimes 1 ws es) j) := by
  induction c generalizing i j ds es with
  | skip => cases h; exact ⟨rfl, runs_skip.2 rfl⟩
  | note => cases h; exact ⟨rfl, runs_note.2 rfl⟩
  | within => cases h; exact ⟨rfl, runs_within.2 rfl⟩
  | vacant => cases h; exact ⟨rfl, runs_vacant.2 rfl⟩
  | right n => cases h; exact ⟨rfl, runs_right_window.2 rfl⟩
  | left n =>
    simp only [adds] at h
    split at h
    next hn => cases h; exact ⟨rfl, (runs_left_window hf hn).2 rfl⟩
    next => cases h
  | inc n =>
    simp only [adds] at h
    split at h
    next hi =>
      cases h
      refine ⟨List.length_set, (runs_inc_window (by rwa [length_addTimes hl])).2 ?_⟩
      rw [addTimes_set (by omega)]
      simp only [addTimes, List.getElem_zipWith, UInt8.one_mul, UInt8.add_assoc]
    next => cases h
  | dec n =>
    simp only [adds] at h
    split at h
    next hi =>
      cases h
      refine ⟨List.length_set, (runs_dec_window (by rwa [length_addTimes hl])).2 ?_⟩
      rw [addTimes_set (by omega)]
      simp only [addTimes, List.getElem_zipWith, UInt8.one_mul, UInt8.sub_eq_add_neg, UInt8.add_assoc]
    next => cases h
  | seq a b iha ihb =>
    obtain ⟨⟨k, fs⟩, ha, hb⟩ := Option.bind_eq_some_iff.1 h
    obtain ⟨hl', ha⟩ := iha hl ha
    obtain ⟨hl'', hb⟩ := ihb (hl.trans hl'.symm) hb
    exact ⟨hl''.trans hl', ha.append hb⟩
  | write | read | loop => cases h

/-- A loop that counts the cell under the head down by one adds that cell, times what
a round adds, to each cell of the window. -/
theorem runs_drain (ws : List Cell) {ds : List Cell} (hf : floor ≤ p) (hi : i < ws.length)
    (h : body.adds (i, List.replicate ws.length 0) = some (i, ds)) (hd : ds[i]? = some 255) :
    Runs floor (loop body) (s.window p ws i) (s.window p (addTimes ws[i] ws ds) i) := by
  have hl : ds.length = ws.length := by
    have := (runs_of_adds floor ws (s := s) hf (by simp) h).1
    simpa using this
  have hid : i < ds.length := by omega
  have hdi : ds[i] = 255 := by simpa [hid] using hd
  -- the configuration when there are `k` rounds to go
  let S (k : Nat) : Config := s.window p (addTimes (ws[i] - .ofNat k) ws ds) i
  have hcell (k : Nat) : (S k).cell = .ofNat k := by
    rw [Config.cell_window (by rwa [length_addTimes hl.symm])]
    simp only [addTimes, List.getElem_zipWith, hdi]
    grind
  have hn : ws[i].toNat < 256 := UInt8.toNat_lt _
  have h := runs_loop_of_rounds floor body (S := S) (n := ws[i].toNat)
    (by rw [hcell]; rfl) fun k hk => ⟨?_, ?_⟩
  · have h0 : addTimes (ws[i] - .ofNat ws[i].toNat) ws ds = ws := by
      refine List.ext_getElem (by simp [addTimes, hl]) fun j _ _ => ?_
      simp [addTimes]
    have h1 : addTimes (ws[i] - .ofNat 0) ws ds = addTimes ws[i] ws ds := by
      simp
    simpa only [S, h0, h1] using h
  · rw [hcell]
    exact ofNat_succ_ne_zero (by omega)
  · have hr := (runs_of_adds _ (addTimes (ws[i] - .ofNat (k + 1)) ws ds) (s := s) hf
      (by simp [addTimes, hl]) h).2
    have h0 : addTimes 1 (addTimes (ws[i] - .ofNat (k + 1)) ws ds) (List.replicate ws.length 0) =
        addTimes (ws[i] - .ofNat (k + 1)) ws ds := by
      refine List.ext_getElem (by simp [addTimes, hl]) fun j _ _ => ?_
      simp [addTimes]
    have h1 : addTimes 1 (addTimes (ws[i] - .ofNat (k + 1)) ws ds) ds =
        addTimes (ws[i] - .ofNat k) ws ds := by
      refine List.ext_getElem (by simp [addTimes, hl]) fun j _ _ => ?_
      simp only [addTimes, List.getElem_zipWith, UInt8.ofNat_add]
      grind
    rwa [h0, h1] at hr

theorem runs_drain_to (ws us ds : List Cell) (body : Code) (hf : floor ≤ p) (hi : i < ws.length)
    (h : body.adds (i, List.replicate ws.length 0) = some (i, ds)) (hd : ds[i]? = some 255)
    (hu : addTimes ws[i] ws ds = us) :
    Runs floor (loop body) (s.window p ws i) (s.window p us i) :=
  hu ▸ runs_drain ws hf hi h hd

/-! ### Results -/

/-- A run leaves the value `v` in the cell `p` and the head right of it, and changes
nothing to the left. -/
structure Leaves (p : Nat) (v : Cell) (s t : Config) : Prop where
  head : t.head = p + 1
  value : t.cells p = v
  below : ∀ x < p, t.cells x = s.cells x
  input : t.input = s.input
  output : t.output = s.output

theorem leaves_of_runs {c : Code} {v : Cell} {us : List Cell}
    (h : Runs floor c (s.window s.head (s.slice s.head n) 0) (s.window s.head (v :: us) 1)) :
    ∃ t, Runs floor c s t ∧ Leaves s.head v s t := by
  rw [← eq_window] at h
  exact ⟨_, h, rfl, cells_window_add (j := 0) (by simp), fun x => cells_window_of_lt, rfl, rfl⟩

end Code
end TapeC.Tape
