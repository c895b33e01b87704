import TapeC.Cell
import TapeC.Proofs.Computation
import TapeC.Tape.Code
import Mathlib.Logic.Function.Basic

/-! What structured programs do to the tape. A program runs from one configuration
to another without a program counter; a move may be refused on the left of a first
cell, the floor, so that a run with the floor at a cell shows that nothing to the
left of it is visited. -/

namespace TapeC.Tape

/-- A tape with a head, and what is still to be read and has been written. -/
structure Config where
  head : Nat
  cells : Nat → Cell
  input : List Cell
  output : List Cell

/-- The fault of a move past the floor. -/
inductive Stray where
  | left

namespace Config

variable (s : Config)

/-- The content of the cell under the head. -/
def cell : Cell := s.cells s.head

def goto (p : Nat) : Config := { s with head := p }

def put (p : Nat) (v : Cell) : Config := { s with cells := Function.update s.cells p v }

def store (v : Cell) : Config := s.put s.head v

def emit (bytes : List Cell) : Config := { s with output := s.output ++ bytes }

def setInput (bytes : List Cell) : Config := { s with input := bytes }

@[ext] theorem ext {s t : Config} (hh : s.head = t.head) (hc : ∀ x, s.cells x = t.cells x)
    (hi : s.input = t.input) (ho : s.output = t.output) : s = t := by
  obtain ⟨_, _, _, _⟩ := s
  obtain ⟨_, _, _, _⟩ := t
  cases hh; cases hi; cases ho; cases funext hc
  rfl

variable {s} {p q : Nat} {v w : Cell} {bytes : List Cell}

theorem cell_def : s.cell = s.cells s.head := rfl

theorem store_def : s.store v = s.put s.head v := rfl

@[simp] theorem head_goto : (s.goto p).head = p := rfl
@[simp] theorem cells_goto : (s.goto p).cells = s.cells := rfl
@[simp] theorem input_goto : (s.goto p).input = s.input := rfl
@[simp] theorem output_goto : (s.goto p).output = s.output := rfl
@[simp] theorem goto_goto : (s.goto p).goto q = s.goto q := rfl
@[simp] theorem goto_head : s.goto s.head = s := rfl

@[simp] theorem head_put : (s.put p v).head = s.head := rfl
@[simp] theorem input_put : (s.put p v).input = s.input := rfl
@[simp] theorem output_put : (s.put p v).output = s.output := rfl
@[simp] theorem put_goto : (s.put p v).goto q = (s.goto q).put p v := rfl
@[simp] theorem cells_put_self : (s.put p v).cells p = v := Function.update_self ..
@[simp] theorem put_put_self : (s.put p v).put p w = s.put p w := by simp [put]

theorem cells_put (x : Nat) : (s.put p v).cells x = if x = p then v else s.cells x :=
  Function.update_apply ..

@[simp] theorem put_cell : s.put s.head s.cell = s := by simp [put, cell]

theorem cells_put_of_ne {x : Nat} (h : x ≠ p) : (s.put p v).cells x = s.cells x :=
  Function.update_of_ne h ..

@[simp] theorem head_emit : (s.emit bytes).head = s.head := rfl
@[simp] theorem cells_emit : (s.emit bytes).cells = s.cells := rfl
@[simp] theorem input_emit : (s.emit bytes).input = s.input := rfl
@[simp] theorem output_emit : (s.emit bytes).output = s.output ++ bytes := rfl
@[simp] theorem head_setInput : (s.setInput bytes).head = s.head := rfl
@[simp] theorem cells_setInput : (s.setInput bytes).cells = s.cells := rfl
@[simp] theorem input_setInput : (s.setInput bytes).input = bytes := rfl
@[simp] theorem output_setInput : (s.setInput bytes).output = s.output := rfl
@[simp] theorem setInput_setInput {more : List Cell} :
    (s.setInput bytes).setInput more = s.setInput more := rfl

end Config

namespace Code

/-- Runs a program that may not go left of the cell `floor`. -/
def exec (floor : Nat) : Code → Config → Comp Stray Config
  | skip, s => pure s
  | right n, s => pure (s.goto (s.head + n))
  | left n, s => if floor + n ≤ s.head then pure (s.goto (s.head - n)) else .wrong .left
  | inc n, s => pure (s.store (s.cell + .ofNat n))
  | dec n, s => pure (s.store (s.cell - .ofNat n))
  | write, s => pure (s.emit [s.cell])
  | read, s => pure ((s.store (s.input.headD 0)).setInput s.input.tail)
  | loop body, s => Comp.loop (fun s => s.cell != 0) (body.exec floor) s
  | seq a b, s => a.exec floor s >>= b.exec floor
  | note _, s => pure s
  | within _, s => pure s
  | vacant _, s => pure s

/-- The program ends, in the configuration `t`. -/
def Runs (floor : Nat) (c : Code) (s t : Config) : Prop := (c.exec floor s).Ends (.ok t)

variable {floor : Nat} {a b c body : Code} {s t u : Config} {n : Nat}

theorem exec_append : (a ++ b).exec floor s = a.exec floor s >>= b.exec floor := rfl

theorem exec_append_eq : (a ++ b).exec floor = fun s => a.exec floor s >>= b.exec floor := rfl

theorem exec_append_assoc :
    ((a ++ b) ++ c).exec floor s = (a ++ (b ++ c)).exec floor s := by
  simp only [exec_append, bind_assoc]
  rfl

theorem Runs.unique (h : Runs floor c s t) (h' : Runs floor c s u) : t = u := by
  cases Comp.Ends.unique h h'
  rfl

theorem Runs.iff (h : Runs floor c s u) : Runs floor c s t ↔ t = u :=
  ⟨fun h' => h'.unique h, fun h' => h' ▸ h⟩

section Instructions

attribute [local simp] Runs exec

@[simp] theorem runs_skip : Runs floor skip s t ↔ t = s := by simp

@[simp] theorem runs_note {text : String} : Runs floor (note text) s t ↔ t = s := by simp

@[simp] theorem runs_within : Runs floor (within n) s t ↔ t = s := by simp

@[simp] theorem runs_vacant : Runs floor (vacant n) s t ↔ t = s := by simp

theorem runs_right : Runs floor (right n) s t ↔ t = s.goto (s.head + n) := by simp

theorem runs_left (h : floor + n ≤ s.head) : Runs floor (left n) s t ↔ t = s.goto (s.head - n) := by simp [h]

theorem runs_inc : Runs floor (inc n) s t ↔ t = s.store (s.cell + .ofNat n) := by simp

theorem runs_dec : Runs floor (dec n) s t ↔ t = s.store (s.cell - .ofNat n) := by simp

theorem runs_write : Runs floor write s t ↔ t = s.emit [s.cell] := by simp

theorem runs_read : Runs floor read s t ↔ t = (s.store (s.input.headD 0)).setInput s.input.tail := by simp

end Instructions

@[simp] theorem runs_append : Runs floor (a ++ b) s t ↔ ∃ u, Runs floor a s u ∧ Runs floor b u t := by
  simp [Runs, exec_append, Comp.bind_ends]

theorem Runs.append (ha : Runs floor a s t) (hb : Runs floor b t u) : Runs floor (a ++ b) s u :=
  runs_append.2 ⟨t, ha, hb⟩

theorem runs_concat_cons {cs : List Code} :
    Runs floor (concat (c :: cs)) s t ↔ ∃ u, Runs floor c s u ∧ Runs floor (concat cs) u t := by
  cases cs <;> simp [concat]

theorem append_agrees {β : Type} {R : Config → β → Prop} {y : Comp Stray β} (ha : Runs floor a s t)
    (h : Comp.Agree R (b.exec floor t) y) : Comp.Agree R ((a ++ b).exec floor s) y :=
  h.congr_left fun _ => Comp.bind_ends_of_ok ha

/-! ### Loops -/

theorem loop_exec_of_zero (h : s.cell = 0) {r : Except Stray Config} :
    ((loop body).exec floor s).Ends r ↔ r = .ok s :=
  Comp.loop_ends_of_not (by simp [h])

theorem loop_exec_of_ne (h : s.cell ≠ 0) {r : Except Stray Config} :
    ((loop body).exec floor s).Ends r ↔ (body.exec floor s >>= (loop body).exec floor).Ends r :=
  Comp.loop_ends_of_test (by simp [h])

theorem runs_loop_of_zero (h : s.cell = 0) : Runs floor (loop body) s t ↔ t = s := by
  rw [Runs, loop_exec_of_zero h, Except.ok.injEq]

theorem runs_loop_of_ne (h : s.cell ≠ 0) :
    Runs floor (loop body) s t ↔ ∃ u, Runs floor body s u ∧ Runs floor (loop body) u t := by
  rw [Runs, loop_exec_of_ne h, Comp.bind_ends]
  simp [Runs]

theorem Runs.round (h : s.cell ≠ 0) (hb : Runs floor body s t) (hl : Runs floor (loop body) t u) :
    Runs floor (loop body) s u :=
  (runs_loop_of_ne h).2 ⟨t, hb, hl⟩

/-! ### Runs without end -/

/-- The program does not end, nor does it stray. -/
def Never (floor : Nat) (c : Code) (s : Config) : Prop := ∀ r, ¬ (c.exec floor s).Ends r

theorem Never.append (h : Never floor a s) : Never floor (a ++ b) s := by
  intro r hr
  rcases Comp.bind_ends.1 (exec_append ▸ hr) with ⟨_, he, -⟩ | ⟨_, ha, -⟩
  · exact h _ he
  · exact h _ ha

theorem Runs.never (ha : Runs floor a s t) (hb : Never floor b t) : Never floor (a ++ b) s := by
  intro r hr
  rcases Comp.bind_ends.1 (exec_append ▸ hr) with ⟨_, he, -⟩ | ⟨_, h, hr⟩
  · cases he.unique ha
  · cases h.unique ha
    exact hb _ hr

theorem Never.loop (hs : s.cell ≠ 0) (h : Never floor body s) : Never floor (loop body) s := by
  intro r hr
  rcases Comp.bind_ends.1 ((Comp.loop_ends_of_test (by simpa using hs)).1 hr) with
    ⟨_, he, -⟩ | ⟨_, hb, -⟩
  · exact h _ he
  · exact h _ hb

/-- A loop that always leads to a configuration in which it goes on. -/
theorem never_loop_of_invariant {I : Config → Prop}
    (hI : ∀ s, I s → s.cell ≠ 0 ∧ ∃ t, Runs floor body s t ∧ I t) (hs : I s) :
    Never floor (loop body) s := by
  intro r hr
  refine Comp.loop_ends_induction (motive := fun s _ => I s → False) ?_ ?_ ?_ hr hs
  · intro u hu h
    exact (hI u h).1 (by simpa using hu)
  · intro u e _ he h
    obtain ⟨-, t, ht, -⟩ := hI u h
    cases he.unique ht
  · intro u u' r _ hu _ ih h
    obtain ⟨-, t, ht, h'⟩ := hI u h
    cases hu.unique ht
    exact ih h'

theorem never_loop_skip (hs : s.cell ≠ 0) : Never floor (loop skip) s :=
  never_loop_of_invariant (I := (· = s)) (fun u hu => ⟨hu ▸ hs, u, runs_skip.2 rfl, hu⟩) rfl

end Code
end TapeC.Tape
