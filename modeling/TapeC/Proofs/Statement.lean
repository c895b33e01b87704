import TapeC.Proofs.Selection

/-! The code of a statement performs it, from any tape that matches the state before. -/

namespace TapeC.Lowering

open Layout Program Tape Routine Code Config Comp Evaluation

variable {act : Activation} {ctx : Context} {e : Expr}

/-! ### Simple statements -/

theorem discard_executes :
    PlainlyExecutes act ctx (discard fun scopes => expr act scopes e) (do let _ ← Evaluation.expr ctx e) := by
  intro F scopes c hF hc
  obtain ⟨c', hc', hc⟩ := hc.bind
  cases lowers_pure.1 hc
  exact (hF.evaluates (Nat.le_refl _) hc').discard

theorem print_executes {bytes : List Cell} :
    PlainlyExecutes act ctx (fun _ => return writeBytes bytes)
      (modify fun σ => { σ with output := σ.output ++ bytes }) := by
  intro F scopes c hF hc
  cases lowers_pure.1 hc
  exact writeBytes_performs hF.fits

theorem giveBack_executes {position : Position} {value : Option Expr} :
    PlainlyExecutes act ctx (giveBack act position (value.map fun e scopes => expr act scopes e))
      (Evaluation.statement ctx (.returns value position)) := by
  intro F scopes c hF hc
  cases value with
  | none =>
    cases lowers_pure.1 hc
    exact skip_performs
  | some e =>
    cases hr : act.returns with
    | void =>
      simp only [Option.map_some, giveBack, hr] at hc
      exact absurd hc not_lowers_fail
    | int =>
      simp only [Option.map_some, giveBack, hr] at hc
      obtain ⟨c', hc', hc⟩ := hc.bind
      cases lowers_pure.1 hc
      exact giveBack_performs (hF.evaluates (Nat.le_refl _) hc') hF.fits hF.returned

/-! ### Branches and loops -/

variable {body thenArm : CodeIn} {y y' : Eval Unit}

theorem branch_executes {elseArm : Option CodeIn} (ha : Executes act ctx thenArm y)
    (hb : ∀ b, elseArm = some b → Executes act ctx b y') (hnone : elseArm = none → y' = pure ()) :
    PlainlyExecutes act ctx (branch (fun scopes => expr act scopes e) thenArm elseArm) (do
      if (← Evaluation.expr ctx e) ≠ 0 then Evaluation.inScope y else Evaluation.inScope y') := by
  intro F scopes c hF hc
  obtain ⟨cond, hcond, hc⟩ := hc.bind
  obtain ⟨arm, harm, hc⟩ := hc.bind
  have hcond := hF.evaluates (Nat.le_refl _) hcond
  have harm := inScope_executes ha F _ arm (hF.reserve 2) harm
  cases elseArm with
  | none =>
    cases lowers_pure.1 hc
    rw [hnone rfl, inScope_pure]
    exact ifThen_performs hcond harm hF.fits
  | some elseArm =>
    obtain ⟨arm', harm', hc⟩ := hc.bind
    cases lowers_pure.1 hc
    exact ifThenElse_performs hcond harm (inScope_executes (hb _ rfl) F _ arm' (hF.reserve 2) harm') hF.fits

theorem whileLoop_executes (hb : Executes act ctx body y) :
    PlainlyExecutes act ctx (whileLoop (fun scopes => expr act scopes e) body)
      (Evaluation.repeatWhile (Evaluation.expr ctx e) (Evaluation.inScope y)) := by
  intro F scopes c hF hc
  obtain ⟨cond, hcond, hc⟩ := hc.bind
  obtain ⟨round, hround, hc⟩ := hc.bind
  cases lowers_pure.1 hc
  exact repeatWhile_performs (hF.evaluates (Nat.le_refl _) hcond) (inScope_executes hb F scopes round hF hround)

theorem doLoop_executes (hb : Executes act ctx body y) :
    PlainlyExecutes act ctx (doLoop body fun scopes => expr act scopes e)
      (Evaluation.repeatUntil (Evaluation.inScope y) (Evaluation.expr ctx e)) := by
  intro F scopes c hF hc
  obtain ⟨round, hround, hc⟩ := hc.bind
  obtain ⟨cond, hcond, hc⟩ := hc.bind
  cases lowers_pure.1 hc
  exact repeatUntil_performs (inScope_executes hb F scopes round hF hround)
    (hF.evaluates (Nat.le_refl _) hcond) hF.fits

/-- The rounds of a `for`, after what starts it. -/
def rounds (condition step : Option (Scopes → CodeAt)) (body : CodeIn) (scopes : Scopes) : Lower Code := do
  let condition ← (condition.getD fun _ => constant 1) scopes scopes.offset
  let body ← Lowering.inScope body scopes
  let step ←
    match step with
    | some step => discard step scopes
    | none => pure skip
  return Lowering.repeatWhile condition (body ++ step)

theorem forLoop_eq {init : Option CodeIn} {condition step : Option (Scopes → CodeAt)} :
    forLoop init condition step body = Lowering.inScope fun scopes => do
      let (code, scopes) ← init.getD (fun scopes => return (skip, scopes)) scopes
      let (rest, scopes) ← plain (rounds condition step body) scopes
      return (code ++ rest, scopes) := by
  unfold forLoop
  congr
  funext scopes
  cases init <;> cases step <;> simp [plain, rounds]

theorem rounds_executes {condition step : Option Expr} (hb : Executes act ctx body y) :
    PlainlyExecutes act ctx (rounds (condition.map fun e scopes => expr act scopes e)
        (step.map fun e scopes => expr act scopes e) body)
      (Evaluation.repeatWhile ((condition.map (Evaluation.expr ctx)).getD (return 1)) do
        Evaluation.inScope y
        let _ ← (step.map (Evaluation.expr ctx)).getD (return 0)) := by
  intro F scopes c hF hc
  obtain ⟨cond, hcond, hc⟩ := hc.bind
  obtain ⟨round, hround, hc⟩ := hc.bind
  have hM := hF.fits.below_matching
  have hcond : Evaluates 0 F.matching scopes.offset cond
      ((condition.map (Evaluation.expr ctx)).getD (return 1)) := by
    cases condition with
    | none => exact constant_evaluatesAt (Nat.zero_le _) hM _ (Nat.le_refl _) cond hcond
    | some e => exact hF.evaluates (Nat.le_refl _) hcond
  have hround := inScope_executes hb F scopes round hF hround
  have hp := Nat.le_refl scopes.offset
  cases step with
  | none =>
    cases lowers_pure.1 hc
    exact repeatWhile_performs hcond (hround.append skip_performs hp .refl)
  | some e =>
    obtain ⟨c', hc', hc⟩ := hc.bind
    cases lowers_pure.1 hc
    exact repeatWhile_performs hcond (hround.append (discard_executes F scopes c' hF hc') hp .refl)

theorem forLoop_executes {init : Option CodeIn} {condition step : Option Expr}
    (hi : Executes act ctx (init.getD fun scopes => return (skip, scopes)) y')
    (hb : Executes act ctx body y) :
    PlainlyExecutes act ctx (forLoop init (condition.map fun e scopes => expr act scopes e)
        (step.map fun e scopes => expr act scopes e) body)
      (Evaluation.inScope do
        y'
        Evaluation.repeatWhile ((condition.map (Evaluation.expr ctx)).getD (return 1)) do
          Evaluation.inScope y
          let _ ← (step.map (Evaluation.expr ctx)).getD (return 0)) := by
  rw [forLoop_eq]
  exact inScope_executes (hi.append (rounds_executes hb).executes)

/-! ### All statements -/

theorem statements_executes {ss : List Statement}
    (h : ∀ s ∈ ss, Executes act ctx (statement act s) (Evaluation.statement ctx s)) :
    Executes act ctx (statements act ss) (Evaluation.statements ctx ss) := by
  induction ss with
  | nil => exact skip_executes
  | cons s ss ih =>
    intro F scopes c scopes' hF hc
    obtain ⟨_, _, hc⟩ := hc.bind
    exact (h s (by simp)).append (ih fun s hs => h s (by simp [hs])) F scopes c scopes' hF hc

theorem arms_execute {cases : List (Case Statement)}
    (h : ∀ c ∈ cases, ∀ s ∈ c.body, Executes act ctx (statement act s) (Evaluation.statement ctx s)) :
    List.Forall₂ (ArmExecutes act ctx) (arms act cases) (Evaluation.arms ctx cases) := by
  induction cases with
  | nil => exact .nil
  | cons c cases ih =>
    have hrest := ih fun c hc => h c (by simp [hc])
    have hbody := statements_executes (h c (by simp))
    obtain ⟨label, body, hasBreak, unreachable, p⟩ := c
    have hempty : body = [] → Evaluation.statements ctx body = pure () := by
      rintro rfl
      rfl
    cases label with
    | value e => exact .cons ⟨rfl, rfl, hbody, hempty⟩ hrest
    | default => exact .cons ⟨rfl, rfl, hbody, hempty⟩ hrest

theorem statement_executes (s : Statement) :
    Executes act ctx (statement act s) (Evaluation.statement ctx s) := by
  induction s using Statement.induct with
  | step s ih =>
    cases s with
    | declare d => exact declare_executes.noted
    | expr e => exact discard_executes.executes.noted
    | print text p => exact print_executes.executes.noted
    | block body p => exact (inScope_executes (statements_executes ih)).executes
    | ifElse c a b p =>
      refine (branch_executes (ih a (by simp [Statement.parts])) (fun b' hb' => ?_) fun hb' => ?_).executes.noted
      · cases b with
        | none => cases hb'
        | some b => cases hb'; exact ih b (by simp [Statement.parts])
      · cases b with
        | none => rfl
        | some b => cases hb'
    | whileLoop c body p => exact (whileLoop_executes (ih body (by simp [Statement.parts]))).executes.noted
    | doLoop body c p => exact (doLoop_executes (ih body (by simp [Statement.parts]))).executes.noted
    | forLoop init c step body p =>
      have hinit : Executes act ctx ((statement? act init).getD fun scopes => return (skip, scopes))
          (Evaluation.statement? ctx init) := by
        cases init with
        | none => exact skip_executes
        | some s => exact ih s (by simp [Statement.parts])
      refine Executes.noted (PlainlyExecutes.executes fun F scopes code hF hc => ?_)
      obtain ⟨_, _, hc⟩ := hc.bind
      exact forLoop_executes hinit (ih body (by simp [Statement.parts])) F scopes code hF hc
    | switch value cases p =>
      refine (switch_executes (arms_execute fun k hk s hs => ih s ?_)).executes.noted
      simp only [Statement.parts, List.mem_flatMap]
      exact ⟨k, hk, List.mem_append_left _ hs⟩
    | returns value p => exact giveBack_executes.executes.noted
    | breaks p | continues p => exact fun _ _ _ _ _ hc => absurd hc not_lowers_throw
    | empty => exact fun F scopes c scopes' hF hc => skip_executes F scopes c scopes' hF hc

end TapeC.Lowering
