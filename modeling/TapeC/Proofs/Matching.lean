import TapeC.Proofs.Evaluation
import TapeC.Proofs.Guard
import TapeC.Proofs.Lowers
import TapeC.Proofs.Operator

/-! Code for expressions and what it stands for. A matching tells which cells the state
of an evaluation is about and what they hold. Code evaluates an expression if, from every
tape that matches the state before, it comes to a tape that matches the state after, with
the value in its place; of the cells to the left it changes none that the state is not
about. The rules here are one for each way to put such code together. -/

namespace TapeC.Tape.Code

open Comp

variable {α β δ : Type} {floor : Nat} {a b c : Code} {s t : Config} {f : Config → Comp Stray α}
  {R : α → β → Prop} {y : Comp δ β}

theorem Runs.bind_sim (h : Runs floor c s t) (hs : Sim R (f t) y) : Sim R (c.exec floor s >>= f) y := by
  refine hs.congr_left fun r => ?_
  rw [bind_ends]
  constructor
  · rintro (⟨_, he, -⟩ | ⟨u, hu, hr⟩)
    · cases he.unique h
    · cases hu.unique h
      exact hr
  · exact fun hr => .inr ⟨t, h, hr⟩

theorem Runs.sim {S : Config → β → Prop} {v : β} (h : Runs floor c s t) (hs : S t v) :
    Sim S (c.exec floor s) (pure v : Comp δ β) := .of_ends h (by simp) hs

theorem Runs.append_sim {S : Config → β → Prop} (h : Runs floor a s t) (hs : Sim S (b.exec floor t) y) :
    Sim S ((a ++ b).exec floor s) y := h.bind_sim hs

theorem append_sim {S : Config → β → Prop} {γ : Type} {T : Config → γ → Prop} {g : β → Comp δ γ}
    (h : Sim S (a.exec floor s) y) (hb : ∀ t r, S t r → Sim T (b.exec floor t) (g r)) :
    Sim T ((a ++ b).exec floor s) (y >>= g) := h.bind hb

/-- A loop that its body leaves. -/
theorem loop_sim {body : Code} {S : Config → β → Prop} (h : s.cell ≠ 0)
    (hb : Sim S (body.exec floor s) y) (hS : ∀ t r, S t r → t.cell = 0) :
    Sim S ((loop body).exec floor s) y :=
  Sim.loop_once (by simpa using h) hb fun t r ht => by simp [hS t r ht]

theorem Never.sim {S : Config → β → Prop} (h : Never floor c s) :
    Sim S (c.exec floor s) (Comp.never : Comp δ β) := .of_never h (by simp)

end TapeC.Tape.Code

namespace TapeC

/-- The results of the second computation are related to those of the first. -/
theorem Comp.Sim.and_ends {α β δ ε : Type} {R : α → β → Prop} {x : Comp ε α} {y : Comp δ β}
    (h : Sim R x y) : Sim (fun a b => R a b ∧ y.Ends (.ok b)) x y := by
  intro hw
  obtain ⟨h₁, h₂⟩ := h hw
  refine ⟨fun r hr => ?_, fun b hb => ?_⟩
  · obtain ⟨a, b, rfl, hb, hab⟩ := h₁ r hr
    exact ⟨a, b, rfl, hb, hab, hb⟩
  · obtain ⟨a, ha, hab⟩ := h₂ b hb
    exact ⟨a, ha, hab, hb⟩

namespace Lowering

open Program Tape Routine Code Config Comp Evaluation

/-- How a tape stands for the state of an evaluation. -/
structure Matching where
  /-- The cells that the state is about. -/
  covered : Nat → Prop
  holds : Config → Store → Prop
  congr : ∀ {s t : Config} {σ : Store}, holds s σ → (∀ x, covered x → t.cells x = s.cells x) →
    t.input = s.input → t.output = s.output → holds t σ

namespace Matching

variable {M : Matching} {p : Nat} {s t u : Config} {v w : Cell} {σ : Store}

/-- All covered cells are left of `p`. -/
def Below (M : Matching) (p : Nat) : Prop := ∀ x, M.covered x → x < p

theorem Below.mono {q : Nat} (h : M.Below p) (hpq : p ≤ q) : M.Below q :=
  fun x hx => Nat.lt_of_lt_of_le (h x hx) hpq

/-- Of the cells left of `p` only covered ones may differ. -/
def Keeps (M : Matching) (p : Nat) (s t : Config) : Prop :=
  ∀ x < p, ¬ M.covered x → t.cells x = s.cells x

theorem Keeps.refl : M.Keeps p s s := fun _ _ _ => rfl

theorem Keeps.trans {q : Nat} (h : M.Keeps p s t) (h' : M.Keeps q t u) (hpq : p ≤ q) : M.Keeps p s u :=
  fun x hx hc => (h' x (by omega) hc).trans (h x hx hc)

/-- A cell that is not covered keeps its content. -/
theorem Keeps.cell {x q : Nat} (h : M.Keeps p s t) (hM : M.Below q) (hq : q ≤ x) (hx : x < p) :
    t.cells x = s.cells x :=
  h x hx fun hc => absurd (hM x hc) (by omega)

/-- The end of code for an expression at `p` that starts at `s`. -/
structure Yields (M : Matching) (p : Nat) (s t : Config) (v : Cell) (σ : Store) : Prop where
  head : t.head = p + 1
  value : t.cells p = v
  holds : M.holds t σ
  keeps : M.Keeps p s t

/-- Code that touches no cell left of `p` changes nothing that the state is about. -/
theorem holds_of_below (hM : M.Below p) (h : M.holds s σ) (hc : ∀ x < p, t.cells x = s.cells x)
    (hi : t.input = s.input) (ho : t.output = s.output) : M.holds t σ :=
  M.congr h (fun x hx => hc x (hM x hx)) hi ho

theorem Yields.of_leaves (hM : M.Below p) (h : M.holds s σ) (hl : Leaves p v s t) :
    M.Yields p s t v σ :=
  ⟨hl.head, hl.value, M.holds_of_below hM h hl.below hl.input hl.output, fun x hx _ => hl.below x hx⟩

/-- Code that ends behind its value, with other cells beside it that may hold anything. -/
theorem Yields.of_window {ws : List Cell} (hM : M.Below p) (h : M.holds t σ) (hk : M.Keeps p s t) :
    M.Yields p s (t.window p (v :: ws) 1) v σ :=
  ⟨rfl, cells_window_add (j := 0) (by simp), M.holds_of_below hM h (fun _ hx => cells_window_of_lt hx) rfl rfl,
    fun x hx hc => (cells_window_of_lt hx).trans (hk x hx hc)⟩

/-- An operation on the value of an expression. -/
theorem Yields.leaves {q : Nat} (hM : M.Below p) (h : M.Yields p s t v σ)
    (hl : Leaves p w (t.goto q) u) : M.Yields p s u w σ :=
  ⟨hl.head, hl.value, M.holds_of_below hM h.holds hl.below hl.input hl.output,
    fun x hx hc => (hl.below x hx).trans (h.keeps x hx hc)⟩

end Matching

variable {floor p : Nat} {M : Matching} {a b c : Code} {y z : Eval Cell} {v : Cell}

/-- The code at `p` computes the value that `y` yields. -/
def Evaluates (floor : Nat) (M : Matching) (p : Nat) (c : Code) (y : Eval Cell) : Prop :=
  ∀ s σ, s.head = p → M.holds s σ → Sim (fun t r => M.Yields p s t r.1 r.2) (c.exec floor s) (y.run σ)

theorem evaluates_of_leaves (hM : M.Below p)
    (h : ∀ s : Config, s.head = p → ∃ t, Runs floor c s t ∧ Leaves p v s t) :
    Evaluates floor M p c (pure v) := by
  intro s σ hs hσ
  obtain ⟨t, ht, hl⟩ := h s hs
  exact ht.sim (.of_leaves hM hσ hl)

theorem literal_evaluates (hf : floor ≤ p) (hM : M.Below p) :
    Evaluates floor M p (literal v) (pure v) :=
  evaluates_of_leaves hM fun s hs => by
    subst hs
    exact literal_leaves hf

/-- An operation on one operand. -/
theorem onOne_evaluates {operation : Code} {f : Cell → Cell} (hf : floor ≤ p) (hM : M.Below p)
    (ha : Evaluates floor M p a y)
    (ho : ∀ s : Config, s.head = p → ∃ t, Runs floor operation s t ∧ Leaves p (f s.cell) s t) :
    Evaluates floor M p (a ++ left 1 ++ operation) (f <$> y) := by
  intro s σ hs hσ
  rw [StateT.run_map, map_eq_pure_bind]
  simp only [exec_append, bind_assoc]
  refine (ha s σ hs hσ).bind fun t r ht => ?_
  refine ((runs_left (by have := ht.head; omega)).2 rfl).bind_sim ?_
  obtain ⟨u, hu, hl⟩ := ho (t.goto (t.head - 1)) (by rw [ht.head]; rfl)
  refine hu.sim (ht.leaves (q := t.head - 1) hM ?_)
  rwa [← ht.value, ← show (t.goto (t.head - 1)).cell = t.cells p by rw [ht.head]; rfl]

/-- An operation on two operands, of which the second one satisfies `Q`. -/
theorem onTwo_evaluates {operation : Code} {f : Cell → Cell → Option Cell} {Q : Cell → Prop}
    (hf : floor ≤ p) (hM : M.Below p) (ha : Evaluates floor M p a y)
    (hb : Evaluates floor M (p + 1) b z) (hQ : ∀ σ r, (z.run σ).Ends (.ok r) → Q r.1)
    (ho : ∀ s : Config, s.head = p → Q (s.cells (p + 1)) →
      match f s.cell (s.cells (p + 1)) with
      | some v => ∃ t, Runs floor operation s t ∧ Leaves p v s t
      | none => Never floor operation s) :
    Evaluates floor M p (a ++ b ++ left 2 ++ operation) (do
      let v ← y
      let w ← z
      match f v w with
      | some u => pure u
      | none => never) := by
  intro s σ hs hσ
  simp only [exec_append, bind_assoc, StateT.run_bind]
  refine (ha s σ hs hσ).bind fun t r ht => ?_
  refine (hb t r.2 ht.head ht.holds).and_ends.bind fun u r' ⟨hu, he⟩ => ?_
  refine ((runs_left (by have := hu.head; omega)).2 rfl).bind_sim ?_
  have hv : u.cells p = r.1 := (hu.keeps.cell hM (Nat.le_refl p) (by omega)).trans ht.value
  have h := ho (u.goto (u.head - 2)) (by rw [hu.head]; rfl) (by
    rw [cells_goto, hu.value]
    exact hQ _ _ he)
  rw [Config.cell, head_goto, cells_goto, hu.head, show p + 1 + 1 - 2 = p by omega, hv, hu.value] at h
  cases hf : f r.1 r'.1 with
  | none =>
    rw [hf] at h
    rw [hu.head, show p + 1 + 1 - 2 = p by omega]
    exact h.sim
  | some v =>
    rw [hf] at h
    obtain ⟨t', ht', hl⟩ := h
    rw [hu.head, show p + 1 + 1 - 2 = p by omega]
    refine ht'.sim ⟨hl.head, hl.value, M.holds_of_below hM hu.holds hl.below hl.input hl.output, ?_⟩
    intro x hx hc
    rw [hl.below x hx, cells_goto, hu.keeps x (by omega) hc, ht.keeps x hx hc]

/-! ### Operands that may be skipped -/

section Skipping

variable {q : Nat} {s u : Config}

attribute [local simp] runs_right_window runs_left_window runs_inc_window runs_dec_window
  runs_clear_window runs_pourLeft_window runs_loop_window_of_zero runs_loop_window_of_ne

theorem runs_flag {t : Config} {w : Cell} (hf : floor ≤ q) :
    Runs floor (left 1 ++ loop (clear ++ left 1 ++ inc 1 ++ right 1) ++ left 2)
      (u.window q [0, 0, w] 3) t ↔ t = u.window q [0, Cell.ofBool (w != 0), 0] 0 := by
  simp [hf, runs_flag_window]

/-- An operand between guards: its truth value ends up in the second of two empty cells
to its left, and the head on the first. -/
structure Matching.Flags (M : Matching) (q : Nat) (s t : Config) (v : Cell) (σ : Store) : Prop where
  head : t.head = q
  first : t.cells q = 0
  second : t.cells (q + 1) = Cell.ofBool (v != 0)
  holds : M.holds t σ
  keeps : M.Keeps q s t

theorem flag_sim {σ : Store} (hf : floor ≤ q) (hM : M.Below q) (hb : Evaluates floor M (q + 2) b z)
    (hs : s.head = q + 2) (hσ : M.holds s σ) (h0 : s.cells q = 0) (h1 : s.cells (q + 1) = 0) :
    Sim (fun t r => M.Flags q s t r.1 r.2)
      ((b ++ (left 1 ++ loop (clear ++ left 1 ++ inc 1 ++ right 1) ++ left 2)).exec floor s)
      (z.run σ) := by
  rw [exec_append]
  refine (hb s σ hs hσ).bind_left fun u r hu => ?_
  have hu0 : u.cells q = 0 := (hu.keeps.cell hM (Nat.le_refl q) (by omega)).trans h0
  have hu1 : u.cells (q + 1) = 0 := (hu.keeps.cell hM (by omega) (by omega)).trans h1
  have hwin : u = u.window q [0, 0, r.1] 3 :=
    eq_window_of_slice hu.head (by simp [slice, List.range_succ, hu0, hu1, hu.value])
  have hrun := (runs_flag (u := u) (w := r.1) hf).2 rfl
  rw [← hwin] at hrun
  refine ⟨_, hrun, rfl, cells_window_add (j := 0) (by simp), cells_window_add (j := 1) (by simp), ?_, ?_⟩
  · exact M.holds_of_below hM hu.holds (fun x hx => cells_window_of_lt hx) rfl rfl
  · exact fun x hx hc => (cells_window_of_lt hx).trans (hu.keeps x (by omega) hc)

theorem andThen_evaluates (hf : floor ≤ p) (hM : M.Below p) (ha : Evaluates floor M p a y)
    (hb : Evaluates floor M (p + 2) b z) :
    Evaluates floor M p (Routine.andThen a b) (Evaluation.binary .and y z) := by
  intro s σ hs hσ
  simp only [Routine.andThen, exec_append, bind_assoc, Evaluation.binary, StateT.run_bind]
  refine (ha s σ hs hσ).bind fun t r ht => ?_
  have hwin : t = t.window p [r.1, t.cells (p + 1)] 1 :=
    eq_window_of_slice ht.head (by simp [slice, List.range_succ, ht.value])
  have hstart : Runs floor (clear ++ left 1) t (t.window p [r.1, 0] 0) := by
    conv => arg 3; rw [hwin]
    simp [hf]
  have hbelow {ws : List Cell} {i : Nat} : M.holds (t.window p ws i) r.2 :=
    M.holds_of_below hM ht.holds (fun x hx => cells_window_of_lt hx) rfl rfl
  rw [← bind_assoc, ← exec_append]
  refine hstart.bind_sim ?_
  by_cases hv : r.1 = 0
  · -- the second operand is skipped
    rw [if_pos hv, hv]
    refine (runs_loop_window_of_zero (i := 0) (by simp) rfl).2 rfl |>.bind_sim ?_
    have hend : Runs floor (right 1 ++ pourLeft 1 1) (t.window p [0, 0] 0) (t.window p [0, 0] 1) := by
      simp [hf]
    exact hend.sim (.of_window hM ht.holds ht.keeps)
  · rw [if_neg hv, StateT.run_bind]
    have hround : Sim (fun u r' => M.Flags p t u r'.1 r'.2)
        ((clear ++ right 2 ++ b ++ left 1 ++ loop (clear ++ left 1 ++ inc 1 ++ right 1) ++ left 2).exec
          floor (t.window p [r.1, 0] 0)) (z.run r.2) := by
      have hin : Runs floor (clear ++ right 2) (t.window p [r.1, 0] 0) (t.window p [0, 0] 2) := by simp
      have h := flag_sim hf hM hb (s := t.window p [0, 0] 2) rfl hbelow
        (cells_window_add (j := 0) (by simp)) (cells_window_add (j := 1) (by simp))
      replace h := hin.bind_sim (h.mono (S := fun u r' => M.Flags p t u r'.1 r'.2) fun u r' hu =>
        ⟨hu.head, hu.first, hu.second, hu.holds,
          fun x hx hc => (hu.keeps x hx hc).trans (cells_window_of_lt hx)⟩)
      simpa only [exec_append_eq, bind_assoc] using h
    refine (loop_sim (by simpa [cell_window] using hv) hround fun u r' hu => ?_).bind fun u r' hu => ?_
    · rw [Config.cell, hu.head, hu.first]
    · have hwin : u = u.window p [0, Cell.ofBool (r'.1 != 0)] 0 :=
        eq_window_of_slice hu.head (by simp [slice, List.range_succ, hu.first, hu.second])
      have hend : Runs floor (right 1 ++ pourLeft 1 1) u
          (u.window p [Cell.ofBool (r'.1 != 0), 0] 1) := by
        conv => arg 3; rw [hwin]
        simp [hf]
      exact hend.sim (.of_window hM hu.holds (ht.keeps.trans hu.keeps (Nat.le_refl p)))

theorem orElse_evaluates (hf : floor ≤ p) (hM : M.Below p) (ha : Evaluates floor M p a y)
    (hb : Evaluates floor M (p + 3) b z) :
    Evaluates floor M p (Routine.orElse a b) (Evaluation.binary .or y z) := by
  intro s σ hs hσ
  have hf' : floor ≤ p + 1 := by omega
  have hM' : M.Below (p + 1) := hM.mono (by omega)
  simp only [Routine.orElse, exec_append, bind_assoc, Evaluation.binary, StateT.run_bind]
  refine (ha s σ hs hσ).bind fun t r ht => ?_
  have hwin : t = t.window p [r.1, t.cells (p + 1), t.cells (p + 2)] 1 :=
    eq_window_of_slice ht.head (by simp [slice, List.range_succ, ht.value])
  have hbelow {ws : List Cell} {i : Nat} : M.holds (t.window p ws i) r.2 :=
    M.holds_of_below hM ht.holds (fun x hx => cells_window_of_lt hx) rfl rfl
  have hkeeps {ws : List Cell} {i : Nat} : M.Keeps p s (t.window p ws i) :=
    fun x hx hc => (cells_window_of_lt hx).trans (ht.keeps x hx hc)
  by_cases hv : r.1 = 0
  · rw [if_pos hv, StateT.run_bind]
    have hstart : Runs floor (clear ++ inc 1 ++ right 1 ++ clear ++ left 2 ++
        loop (clear ++ right 1 ++ dec 1 ++ right 1 ++ inc 1 ++ left 2) ++ right 1) t
        (t.window p [0, 1, 0] 1) := by
      conv => arg 3; rw [hwin]
      simp [hf, hv]
    have hround : Sim (fun u r' => M.Flags (p + 1) (t.window p [0, 0, 0] 3) u r'.1 r'.2)
        ((dec 1 ++ right 2 ++ b ++ left 1 ++ loop (clear ++ left 1 ++ inc 1 ++ right 1) ++ left 2).exec
          floor (t.window p [0, 1, 0] 1)) (z.run r.2) := by
      have hin : Runs floor (dec 1 ++ right 2) (t.window p [0, 1, 0] 1) (t.window p [0, 0, 0] 3) := by simp
      have h := hin.bind_sim (flag_sim hf' hM' hb (s := t.window p [0, 0, 0] 3) rfl hbelow
        (cells_window_add (j := 1) (by simp)) (cells_window_add (j := 2) (by simp)))
      simpa only [exec_append_eq, bind_assoc] using h
    have hloop := loop_sim (by simp [cell_window]) hround fun u r' hu => by
      rw [Config.cell, hu.head, hu.first]
    have hend := hstart.append_sim (append_sim (T := fun t r => M.Yields p s t r.1 r.2)
      (b := right 1 ++ pourLeft 2 1 ++ left 1) (g := fun r' => pure (Cell.ofBool (r'.1 != 0), r'.2))
      hloop fun u r' hu => ?_)
    · simp only [exec_append_eq, bind_assoc] at hend ⊢
      exact hend
    · have h0 : u.cells p = 0 := (hu.keeps.cell hM (Nat.le_refl p) (by omega)).trans
        (cells_window_add (j := 0) (by simp))
      have hwin : u = u.window p [0, 0, Cell.ofBool (r'.1 != 0)] 1 :=
        eq_window_of_slice hu.head (by simp [slice, List.range_succ, h0, hu.first, hu.second])
      have hlast : Runs floor (right 1 ++ pourLeft 2 1 ++ left 1) u
          (u.window p [Cell.ofBool (r'.1 != 0), 0, 0] 1) := by
        conv => arg 3; rw [hwin]
        simp [hf]
      exact hlast.sim (.of_window hM hu.holds (hkeeps.trans hu.keeps (Nat.le_succ p)))
  · -- the second operand is skipped
    rw [if_neg hv]
    have hrun : Runs floor (clear ++ inc 1 ++ right 1 ++ clear ++ left 2 ++
        loop (clear ++ right 1 ++ dec 1 ++ right 1 ++ inc 1 ++ left 2) ++ right 1 ++
        loop (dec 1 ++ right 2 ++ b ++ left 1 ++ loop (clear ++ left 1 ++ inc 1 ++ right 1) ++ left 2) ++
        right 1 ++ pourLeft 2 1 ++ left 1) t (t.window p [1, 0, 0] 1) := by
      conv => arg 3; rw [hwin]
      simp [hf, hv]
    have h := hrun.sim (v := (1, r.2)) (S := fun t r => M.Yields p s t r.1 r.2) (δ := Wrong)
      (.of_window hM ht.holds ht.keeps)
    simp only [exec_append_eq, bind_assoc] at h ⊢
    exact h

end Skipping

end Lowering
end TapeC
