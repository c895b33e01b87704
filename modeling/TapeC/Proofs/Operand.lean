import TapeC.Proofs.Matching

/-! Lowered operators. What is shown of the code of an expression holds at every cell from
some place on, so that operands can be moved. -/

namespace TapeC.Lowering

open Layout Program Tape Routine Code Config Comp Evaluation

variable {floor p : Nat} {M : Matching} {a b : CodeAt} {y z : Eval Cell} {v : Cell}

/-- From `p` on the code computes the value that `y` yields. -/
def EvaluatesAt (floor : Nat) (M : Matching) (p : Nat) (a : CodeAt) (y : Eval Cell) : Prop :=
  ∀ q, p ≤ q → ∀ c, Lowers (a q) c → Evaluates floor M q c y

theorem constant_evaluatesAt (hf : floor ≤ p) (hM : M.Below p) :
    EvaluatesAt floor M p (constant v) (pure v) := by
  intro q hq c hc
  rw [lowers_pure.1 hc]
  exact literal_evaluates (by omega) (hM.mono hq)

theorem lowers_onPair {operation c : Code} (h : Lowers (onPair operation a b p) c) :
    ∃ c₁ c₂, Lowers (a p) c₁ ∧ Lowers (b (p + 1)) c₂ ∧ c = c₁ ++ c₂ ++ left 2 ++ operation := by
  obtain ⟨c₁, h₁, h⟩ := h.bind
  obtain ⟨c₂, h₂, h⟩ := h.bind
  exact ⟨c₁, c₂, h₁, h₂, lowers_pure.1 h⟩

theorem onPair_evaluatesAt {operation : Code} {f : Cell → Cell → Option Cell} {Q : Cell → Prop}
    (hf : floor ≤ p) (hM : M.Below p) (ha : EvaluatesAt floor M p a y)
    (hb : EvaluatesAt floor M p b z) (hQ : ∀ σ r, (z.run σ).Ends (.ok r) → Q r.1)
    (ho : ∀ s : Config, floor ≤ s.head → Q (s.cells (s.head + 1)) →
      match f s.cell (s.cells (s.head + 1)) with
      | some v => ∃ t, Runs floor operation s t ∧ Leaves s.head v s t
      | none => Never floor operation s) :
    EvaluatesAt floor M p (onPair operation a b) (do
      let v ← y
      let w ← z
      match f v w with
      | some u => pure u
      | none => never) := by
  intro q hq c hc
  obtain ⟨c₁, c₂, h₁, h₂, rfl⟩ := lowers_onPair hc
  exact onTwo_evaluates (by omega) (hM.mono hq) (ha q hq c₁ h₁) (hb (q + 1) (by omega) c₂ h₂) hQ
    fun s hs => by subst hs; exact ho s (by omega)

/-- The operators that always evaluate both operands. -/
theorem operate_evaluatesAt (op : BinaryOp) (check : Bool) {operation : Code} {Q : Cell → Prop}
    (hf : floor ≤ p) (hM : M.Below p) (hc : operation? check op = some operation)
    (ha : EvaluatesAt floor M p a y) (hb : EvaluatesAt floor M p b z)
    (hQ : ∀ σ r, (z.run σ).Ends (.ok r) → Q r.1)
    (hcheck : check = true ∨ ∀ v w, Q w → op.eval? v w ≠ none) :
    EvaluatesAt floor M p (onPair operation a b) (do operate op (← y) (← z)) := by
  refine onPair_evaluatesAt (f := op.eval?) (Q := Q) hf hM ha hb hQ fun s hs hq => ?_
  cases hv : op.eval? s.cell (s.cells (s.head + 1)) with
  | some v => exact operation_leaves op check hs hc hv
  | none =>
    rcases hcheck with rfl | h
    · exact operation_never hs hc hv
    · exact absurd hv (h _ _ hq)

/-- A known divisor is not zero, and one that is not known is tested. -/
theorem lowers_onDivisor {operation : Bool → Code} {divisor : Option Cell} {position : Position}
    {c : Code} (h : Lowers (onDivisor operation divisor position a b p) c) :
    divisor ≠ some 0 ∧ Lowers (onPair (operation divisor.isNone) a b p) c :=
  Lowers.of_guard h fun _ => not_lowers_fail

theorem onDivisor_evaluatesAt (op : BinaryOp) {divisor : Option Cell} {position : Position}
    {operation : Bool → Code} (hop : operation? divisor.isNone op = some (operation divisor.isNone))
    (hz : ∀ v w, w ≠ 0 → op.eval? v w ≠ none) (hf : floor ≤ p) (hM : M.Below p)
    (ha : EvaluatesAt floor M p a y) (hb : EvaluatesAt floor M p b z)
    (hd : ∀ d, divisor = some d → z = pure d) :
    EvaluatesAt floor M p (onDivisor operation divisor position a b) (do operate op (← y) (← z)) := by
  intro q hq c hc
  obtain ⟨h0, hc⟩ := lowers_onDivisor hc
  refine operate_evaluatesAt op _ (Q := fun w => ∀ d, divisor = some d → w = d) hf hM hop ha hb ?_ ?_ q
      hq c hc
  · intro σ r hr d h
    rw [hd d h] at hr
    cases pure_ends.1 hr
    rfl
  · cases divisor with
    | none => exact .inl rfl
    | some d => exact .inr fun v w hw => hz v w (by rw [hw d rfl]; simpa using h0)

theorem binary_evaluatesAt {op : BinaryOp} {divisor : Option Cell} {position : Position}
    (hf : floor ≤ p) (hM : M.Below p) (ha : EvaluatesAt floor M p a y)
    (hb : EvaluatesAt floor M p b z) (hd : ∀ d, divisor = some d → z = pure d) :
    EvaluatesAt floor M p (binary op divisor position a b) (Evaluation.binary op y z) := by
  have hpair {op : BinaryOp} {operation : Code} (hc : operation? true op = some operation) :
      EvaluatesAt floor M p (onPair operation a b) (do operate op (← y) (← z)) :=
    operate_evaluatesAt op true (Q := fun _ => True) hf hM hc ha hb (fun _ _ _ => trivial) (.inl rfl)
  cases op with
  | and =>
    intro q hq c hc
    obtain ⟨c₁, h₁, hc⟩ := hc.bind
    obtain ⟨c₂, h₂, hc⟩ := hc.bind
    rw [lowers_pure.1 hc]
    exact andThen_evaluates (by omega) (hM.mono hq) (ha q hq c₁ h₁) (hb _ (by omega) c₂ h₂)
  | or =>
    intro q hq c hc
    obtain ⟨c₁, h₁, hc⟩ := hc.bind
    obtain ⟨c₂, h₂, hc⟩ := hc.bind
    rw [lowers_pure.1 hc]
    exact orElse_evaluates (by omega) (hM.mono hq) (ha q hq c₁ h₁) (hb _ (by omega) c₂ h₂)
  | divide =>
    exact onDivisor_evaluatesAt .divide rfl (fun v w hw => by simp [BinaryOp.eval?, hw]) hf hM ha hb hd
  | modulo =>
    exact onDivisor_evaluatesAt .modulo rfl (fun v w hw => by simp [BinaryOp.eval?, hw]) hf hM ha hb hd
  | add | subtract | multiply | equal | notEqual | less | lessOrEqual | greater | greaterOrEqual |
      bitAnd
  | bitOr | bitXor | shiftLeft | shiftRight => exact hpair rfl

theorem unary_evaluatesAt {op : UnaryOp} (hf : floor ≤ p) (hM : M.Below p)
    (ha : EvaluatesAt floor M p a y) : EvaluatesAt floor M p (unary op a) (op.eval <$> y) := by
  have hone {operation : Code} {f : Cell → Cell}
      (ho : ∀ s : Config, floor ≤ s.head → ∃ t, Runs floor operation s t ∧ Leaves s.head (f s.cell)
        s t) :
      EvaluatesAt floor M p (fun p => return (← a p) ++ left 1 ++ operation) (f <$> y) := by
    intro q hq c hc
    obtain ⟨c₁, h₁, hc⟩ := hc.bind
    rw [lowers_pure.1 hc]
    exact onOne_evaluates (by omega) (hM.mono hq) (ha q hq c₁ h₁) fun s hs => by
      subst hs
      exact ho s (by omega)
  cases op with
  | not => exact hone fun s hs => logicalNot_computes.leaves hs
  | complement => exact hone fun s hs => complement_computes.leaves hs
  | negate =>
    have h := onPair_evaluatesAt (a := constant 0) (y := pure 0) (f := fun v w => some (v - w))
      (Q := fun _ => True) hf hM (constant_evaluatesAt hf hM) ha (fun _ _ _ => trivial)
      fun s hs _ => operation_leaves .subtract true hs rfl rfl
    rw [pure_bind] at h
    rw [map_eq_pure_bind]
    exact h

end TapeC.Lowering
