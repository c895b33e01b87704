import TapeC.Proofs.Machine

/-! Budgets of operations. There is one way for a program to go on an input, and a budget only says how
far a run follows it: a run that ends needs a certain number of operations, with which or with more of
them it ends in the same state, and with fewer it is cut short. What it has written when it is cut
short is the beginning of what any run with a larger budget writes. -/

namespace TapeC.Tape

namespace State

variable {s t : State} {i : Instruction} {fault : Fault}

theorem steps_of_step (h : s.step i = .ok t) : t.steps = s.steps + 1 := by
  obtain ⟨op, position⟩ := i
  cases op with
  | move distance =>
    simp only [step] at h
    split at h
    · cases h
    · cases h
      rfl
  | add | write =>
    cases h
    rfl
  | read =>
    simp only [step] at h
    split at h
    · cases h
      rfl
    · cases h
      rfl
  | enter | again =>
    simp only [step] at h
    cases h
    split <;> rfl

/-- An operation only adds to what has been written. -/
theorem output_of_step (h : s.step i = .ok t) : s.output.toList <+: t.output.toList := by
  obtain ⟨op, position⟩ := i
  cases op with
  | move distance =>
    simp only [step] at h
    split at h
    · cases h
    · cases h
      exact List.prefix_refl _
  | add =>
    cases h
    exact List.prefix_refl _
  | write =>
    cases h
    rw [Array.toList_push]
    exact List.prefix_append _ _
  | read =>
    simp only [step] at h
    split at h
    · cases h
      exact List.prefix_refl _
    · cases h
      exact List.prefix_refl _
  | enter | again =>
    simp only [step] at h
    cases h
    split <;> exact List.prefix_refl _

/-- Nothing but a move can fail. -/
theorem underflow_of_step (h : s.step i = .error fault) : ∃ p, fault = .underflow p := by
  obtain ⟨op, position⟩ := i
  cases op with
  | move distance =>
    simp only [step] at h
    split at h
    · cases h
      exact ⟨position, rfl⟩
    · cases h
  | read =>
    simp only [step] at h
    split at h <;> cases h
  | add | write | enter | again => cases h

end State

namespace Machine

variable {m : Machine} {s t u : State} {n k limit limit' budget : Nat} {i : Instruction} {r : Except Fault State}
  {output output' : List Cell}

/-! ### The way of a program -/

theorem Steps.count (h : m.Steps n s t) : t.steps = s.steps + n := by
  induction h with
  | refl => rfl
  | step _ hs _ ih =>
    rw [ih, State.steps_of_step hs]
    omega

theorem Steps.output_grows (h : m.Steps n s t) : s.output.toList <+: t.output.toList := by
  induction h with
  | refl => exact List.prefix_refl _
  | step _ hs _ ih => exact (State.output_of_step hs).trans ih

/-- Of two places on the way, the one after fewer operations comes first. -/
theorem Steps.between (h : m.Steps n s t) (h' : m.Steps k s u) (hnk : n ≤ k) : m.Steps (k - n) t u := by
  induction h generalizing k with
  | refl => exact h'
  | step hi hs _ ih =>
    cases h' with
    | refl => exact absurd hnk (Nat.not_succ_le_zero _)
    | step hi' hs' h' =>
      cases hi.symm.trans hi'
      cases hs.symm.trans hs'
      rw [Nat.add_sub_add_right]
      exact ih h' (Nat.le_of_succ_le_succ hnk)

/-- No operation follows the end of the program. -/
theorem Steps.eq_zero_of_end (h : m.Steps n s t) (hpc : m.size ≤ s.pc) : n = 0 := by
  cases h with
  | refl => rfl
  | step hi =>
    have hlt : s.pc < m.size := (Array.getElem?_eq_some_iff.1 hi).1
    exact absurd hlt (Nat.not_lt.2 hpc)

/-! ### How runs stop -/

/-- A run from `s` stops at the end of the program, where its budget is used up, or at a move that leaves
the tape. -/
inductive Stops (m : Machine) (limit budget : Nat) (s : State) : Except Fault State → Prop where
  | ended {n : Nat} {t : State} (hn : n ≤ budget) (h : m.Steps n s t) (hpc : m.size ≤ t.pc) :
      Stops m limit budget s (.ok t)
  | cut {t : State} (h : m.Steps budget s t) (hpc : t.pc < m.size) :
      Stops m limit budget s (.error (.exhausted limit t.output.toList))
  | left {n p : Nat} {t : State} {i : Instruction} (hn : n < budget) (h : m.Steps n s t)
      (hi : m.code[t.pc]? = some i) (hstep : t.step i = .error (.underflow p)) :
      Stops m limit budget s (.error (.underflow p))

/-- An operation in front of a run. -/
theorem Stops.step (hi : m.code[s.pc]? = some i) (hs : s.step i = .ok t) (h : m.Stops limit budget t r) :
    m.Stops limit (budget + 1) s r := by
  cases h with
  | ended hn h hpc => exact .ended (Nat.succ_le_succ hn) (.step hi hs h) hpc
  | cut h hpc => exact .cut (.step hi hs h) hpc
  | left hn h hi' hstep => exact .left (Nat.succ_lt_succ hn) (.step hi hs h) hi' hstep

theorem runFrom_stops : m.Stops limit budget s (m.runFrom limit budget s) := by
  induction budget generalizing s with
  | zero =>
    rw [runFrom]
    split
    next hpc => exact .cut (.refl s) hpc
    next hpc => exact .ended (Nat.le_refl 0) (.refl s) (Nat.not_lt.1 hpc)
  | succ budget ih =>
    rw [runFrom]
    split
    next hi => exact .ended (Nat.zero_le _) (.refl s) (Array.getElem?_eq_none_iff.1 hi)
    next i hi =>
      split
      next t ht => exact .step hi ht ih
      next fault hfault =>
        obtain ⟨p, rfl⟩ := State.underflow_of_step hfault
        exact .left (Nat.succ_pos budget) (.refl s) hi hfault

/-- A run that comes to an end has as many operations as it needs. -/
theorem steps_of_runFrom (h : m.runFrom limit budget s = .ok t) :
    ∃ n, n ≤ budget ∧ m.Steps n s t ∧ m.size ≤ t.pc := by
  have hstops : m.Stops limit budget s (m.runFrom limit budget s) := runFrom_stops
  rw [h] at hstops
  cases hstops with
  | ended hn hsteps hpc => exact ⟨_, hn, hsteps, hpc⟩

/-! ### What runs write -/

/-- What a run has written, where it tells: at its end, or where its budget is used up. -/
def written? : Except Fault State → Option (List Cell)
  | .ok s => some s.output.toList
  | .error (.exhausted _ output) => some output
  | .error _ => none

/-- A run tells what was written where it used up its budget or came to the end. -/
theorem Stops.written (h : m.Stops limit budget s r) (hr : written? r = some output) :
    ∃ n t, m.Steps n s t ∧ t.output.toList = output ∧ n ≤ budget ∧ (n = budget ∨ m.size ≤ t.pc) := by
  cases h with
  | ended hn h hpc =>
    cases hr
    exact ⟨_, _, h, rfl, hn, .inr hpc⟩
  | cut h hpc =>
    cases hr
    exact ⟨_, _, h, rfl, Nat.le_refl _, .inl rfl⟩
  | left => cases hr

/-- With a larger budget a run writes more or the same. -/
theorem Stops.written_grows {budget' : Nat} {r' : Except Fault State} (h : m.Stops limit budget s r)
    (h' : m.Stops limit' budget' s r') (hle : budget ≤ budget') (hr : written? r = some output)
    (hr' : written? r' = some output') : output <+: output' := by
  obtain ⟨n, t, hsteps, rfl, hn, -⟩ := h.written hr
  obtain ⟨n', t', hsteps', rfl, -, hend⟩ := h'.written hr'
  rcases Nat.lt_or_ge n' n with hlt | hge
  · -- the larger budget was not used up, so the run has ended before the other one
    have hpc : m.size ≤ t'.pc := hend.resolve_left (by omega)
    have hzero : n - n' = 0 := (hsteps'.between hsteps (Nat.le_of_lt hlt)).eq_zero_of_end hpc
    omega
  · exact (hsteps.between hsteps' hge).output_grows

/-! ### Budgets -/

/-- A run that ends does so in the same state for every budget of as many operations as it has taken, and is
cut short by every smaller one; and what any run has written is the beginning of what a run with a
larger budget writes. -/
theorem run_cut_by_budget (m : Machine) (start : Nat) (input : List Cell) :
    (∀ limit s, m.run limit start input = .ok s →
      (∀ limit', s.steps ≤ limit' → m.run limit' start input = .ok s) ∧
        ∀ limit' < s.steps, ∃ output, m.run limit' start input = .error (.exhausted limit' output)) ∧
    ∀ limit limit' output output', limit ≤ limit' → written? (m.run limit start input) = some output →
      written? (m.run limit' start input) = some output' → output <+: output' := by
  constructor
  · intro limit s hs
    obtain ⟨n, -, hsteps, hpc⟩ := steps_of_runFrom hs
    have hcount : s.steps = n := hsteps.count.trans (Nat.zero_add n)
    rw [hcount]
    refine ⟨fun limit' hle => ?_, fun limit' hlt => hsteps.exhausts hlt⟩
    obtain ⟨k, rfl⟩ := Nat.exists_eq_add_of_le hle
    rw [run, hsteps.runFrom, runFrom_of_end hpc]
  · intro limit limit' output output' hle hr hr'
    exact runFrom_stops.written_grows runFrom_stops hle hr hr'

/-- A program that writes what it reads takes eight operations for two bytes. -/
theorem run_cut_by_budget_of_echo : ∃ m, Machine.ofString ",[.,]" = .ok m ∧
    (∃ s, m.run 100 0 [7, 8] = .ok s ∧ s.steps = 8 ∧ (∀ limit, 8 ≤ limit → m.run limit 0 [7, 8] = .ok s) ∧
      ∀ limit < 8, ∃ output, m.run limit 0 [7, 8] = .error (.exhausted limit output)) ∧
    m.run 5 0 [7, 8] = .error (.exhausted 5 [7]) ∧ written? (m.run 9 0 [7, 8]) = some [7, 8] ∧
    ([7] : List Cell) <+: [7, 8] := by
  let m : Machine := ⟨#[⟨.read, 0⟩, ⟨.enter 4, 1⟩, ⟨.write, 2⟩, ⟨.read, 3⟩, ⟨.again 1, 4⟩]⟩
  obtain ⟨hcut, hprefix⟩ := run_cut_by_budget m 0 [7, 8]
  obtain ⟨s, hs, hsteps⟩ : ∃ s, m.run 100 0 [7, 8] = .ok s ∧ s.steps = 8 := ⟨_, rfl, rfl⟩
  refine ⟨m, rfl, ⟨s, hs, hsteps, ?_⟩, rfl, rfl, hprefix 5 9 _ _ (by decide) rfl rfl⟩
  rw [← hsteps]
  exact hcut 100 s hs

end Machine
end TapeC.Tape
