import TapeC.Proofs.Execution

/-! Promises in programs. A run may look at the promises that it comes across and stop at one
that is broken; as long as none is, it does what a run does that takes them on trust. -/

namespace TapeC.Tape

/-- What stops a run that looks at promises. -/
inductive Breach where
  /-- A move left of the first cell. -/
  | left
  /-- An index that leads out of its variable. -/
  | outside
  /-- Something in a cell that was to be empty. -/
  | occupied
deriving DecidableEq

namespace Code

variable {bounded : Bool} {a b c body : Code} {s t : Config} {n : Nat}

/-- Runs a program until a promise is broken. What is promised of an index only counts if
`bounded` holds, unless no index could keep it. -/
def checked (bounded : Bool) : Code → Config → Comp Breach Config
  | skip, s => pure s
  | right n, s => pure (s.goto (s.head + n))
  | left n, s => if n ≤ s.head then pure (s.goto (s.head - n)) else .wrong .left
  | inc n, s => pure (s.store (s.cell + .ofNat n))
  | dec n, s => pure (s.store (s.cell - .ofNat n))
  | write, s => pure (s.emit [s.cell])
  | read, s => pure ((s.store (s.input.headD 0)).setInput s.input.tail)
  | loop body, s => Comp.loop (fun s => s.cell != 0) (body.checked bounded) s
  | seq a b, s => a.checked bounded s >>= b.checked bounded
  | note _, s => pure s
  | within n, s =>
    if (bounded = true ∨ n = 0) ∧ n ≤ (s.cells (s.head - 1)).toNat then .wrong .outside else pure s
  | vacant n, s => if s.cells (s.head - n) = 0 then pure s else .wrong .occupied

theorem checked_append : (a ++ b).checked bounded s = a.checked bounded s >>= b.checked bounded := rfl

/-! ### Runs on trust -/

/-- Where no promise is broken, a run does the same on trust. -/
theorem exec_sim_checked (c : Code) (s : Config) : Comp.Sim Eq (c.exec 0 s) (c.checked bounded s) := by
  induction c generalizing s with
  | left n =>
    rw [exec, checked, Nat.zero_add]
    split
    · exact .pure rfl
    · exact .of_wrong (Comp.wrong_ends.2 rfl)
  | loop body ih =>
    refine (Comp.Sim.loop (R := Eq) (fun _ _ h => by rw [h]) (fun _ t h _ => h ▸ ih t) rfl).mono fun _ _ h => h.1
  | seq a b iha ihb => exact (iha s).bind fun _ t h => h ▸ ihb t
  | within n =>
    rw [exec, checked]
    split
    · exact .of_wrong (Comp.wrong_ends.2 rfl)
    · exact .pure rfl
  | vacant n =>
    rw [exec, checked]
    split
    · exact .pure rfl
    · exact .of_wrong (Comp.wrong_ends.2 rfl)
  | skip | right | inc | dec | write | read | note => exact .pure rfl

/-- There is no promise in the program. -/
def promiseless : Code → Bool
  | loop body => body.promiseless
  | seq a b => a.promiseless && b.promiseless
  | within _ | vacant _ => false
  | _ => true

theorem promiseless_append : (a ++ b).promiseless = (a.promiseless && b.promiseless) := rfl

theorem checked_sim_exec (hc : c.promiseless = true) (s : Config) :
    Comp.Sim Eq (c.checked bounded s) (c.exec 0 s) := by
  induction c generalizing s with
  | left n =>
    rw [exec, checked, Nat.zero_add]
    split
    · exact .pure rfl
    · exact .of_wrong (Comp.wrong_ends.2 rfl)
  | loop body ih =>
    refine (Comp.Sim.loop (R := Eq) (fun _ _ h => by rw [h]) (fun _ t h _ => h ▸ ih hc t) rfl).mono fun _ _ h => h.1
  | seq a b iha ihb =>
    obtain ⟨ha, hb⟩ := Bool.and_eq_true_iff.1 hc
    exact (iha ha s).bind fun _ t h => h ▸ ihb hb t
  | within | vacant => cases hc
  | skip | right | inc | dec | write | read | note => exact .pure rfl

/-- Without promises, a run on trust is one that looks at all of them. -/
theorem Runs.checked (h : Runs 0 c s t) (hc : c.promiseless = true) (bounded : Bool) :
    (c.checked bounded s).Ends (.ok t) := by
  have hsim : Comp.Sim Eq (c.checked bounded s) (c.exec 0 s) := checked_sim_exec hc s
  obtain ⟨-, hends⟩ := hsim fun e he => by cases Comp.Ends.unique h he
  obtain ⟨_, hu, rfl⟩ := hends t h
  exact hu

end Code
end TapeC.Tape
