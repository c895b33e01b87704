import TapeC.Proofs.Call
import TapeC.Proofs.Syntax

/-! The code of an expression computes its value, from any cell right of the variables that
are visible. -/

namespace TapeC

open Layout Program Lowering Evaluation

variable {ctx : Context}

/-- An expression with a constant value yields it and does nothing else. -/
theorem Evaluation.expr_of_constant {e : Expr} {v : Cell} (h : e.constant? = some v) :
    Evaluation.expr ctx e = pure v := by
  induction e using Expr.induct generalizing v with
  | number n p => cases h; rfl
  | char c p => cases h; rfl
  | bool b p => cases h; rfl
  | unary op e p ih =>
    obtain ⟨a, ha, rfl⟩ := Option.map_eq_some_iff.1 h
    rw [Evaluation.expr, ih ha, map_pure]
  | binary op a b p iha ihb =>
    obtain ⟨u, hu, h⟩ := Option.bind_eq_some_iff.1 h
    obtain ⟨w, hw, h⟩ := Option.bind_eq_some_iff.1 h
    rw [Evaluation.expr, iha hu, ihb hw]
    cases op with
    | and =>
      cases h
      by_cases hu0 : u = 0 <;> simp [Evaluation.binary, hu0, Cell.ofBool]
    | or =>
      cases h
      by_cases hu0 : u = 0 <;> simp [Evaluation.binary, hu0, Cell.ofBool]
    | _ => simp only [Evaluation.binary, pure_bind, operate, h]
  | access | update | assign | fill | call => cases h

namespace Lowering

variable {F : Frame} {p : Nat} {scopes : Scopes} {act : Activation}

theorem indices_evaluate {path : List (Selector Expr)}
    (h : ∀ e ∈ indexed path, EvaluatesAt 0 F.matching p (expr act scopes e) (Evaluation.expr ctx e)) :
    PathEvaluates 0 F.matching p (indices act scopes path) (Evaluation.indices ctx path) := by
  induction path with
  | nil => exact .nil
  | cons s path ih =>
    cases s with
    | field name => exact .cons .field (ih h)
    | index e =>
      exact .cons (.index (fun n hn => expr_of_constant hn) (h e (by simp [indexed])))
        (ih fun e he => h e (by simp [indexed, he]))

theorem exprs_evaluate {es : List Expr}
    (h : ∀ e ∈ es, EvaluatesAt 0 F.matching p (expr act scopes e) (Evaluation.expr ctx e)) :
    AllEvaluate 0 F.matching p (exprs act scopes es) (Evaluation.exprs ctx es) := by
  induction es with
  | nil => exact .nil
  | cons e es ih => exact .cons (h e (by simp)) (ih fun e he => h e (by simp [he]))

/-- Code that fails to lower evaluates anything. -/
theorem notAssignable_evaluatesAt {operation : String} {e : Expr} {y : Eval Cell} :
    EvaluatesAt 0 F.matching p (notAssignable operation e) y :=
  fun _ _ _ hc => absurd hc not_lowers_fail

theorem expr_evaluatesAt (hF : Describes F scopes p) (hact : Serves F.outside p act ctx) (e : Expr) :
    EvaluatesAt 0 F.matching p (expr act scopes e) (Evaluation.expr ctx e) := by
  have hM := hF.fits.below_matching
  have hp := Nat.zero_le p
  induction e using Expr.induct with
  | number n _ => exact constant_evaluatesAt hp hM
  | char c _ => exact constant_evaluatesAt hp hM
  | bool b _ => exact constant_evaluatesAt hp hM
  | access name path _ ih => exact read_evaluatesAt hF (indices_evaluate ih)
  | binary op a b _ iha ihb => exact binary_evaluatesAt hp hM iha ihb fun d hd => expr_of_constant hd
  | unary op e _ ih => exact unary_evaluatesAt hp hM ih
  | update op before target _ _ ih =>
    cases target with
    | access name path position => exact update_evaluatesAt hF (indices_evaluate ih)
    | _ => exact notAssignable_evaluatesAt
  | assign target op value position iht ih ihv =>
    have hvalue : EvaluatesAt 0 F.matching p
        (match op with
          | none => expr act scopes value
          | some op => binary op value.constant? position (expr act scopes target) (expr act scopes value))
        (match op with
          | none => Evaluation.expr ctx value
          | some op => Evaluation.binary op (Evaluation.expr ctx target) (Evaluation.expr ctx value)) := by
      cases op with
      | none => exact ihv
      | some op => exact binary_evaluatesAt hp hM iht ihv fun d hd => expr_of_constant hd
    cases target with
    | access name path start =>
      have h : EvaluatesAt 0 F.matching p (assign scopes name (indices act scopes path) start _)
          (Evaluation.assign name (Evaluation.indices ctx path) start _) :=
        assign_evaluatesAt hF (indices_evaluate ih) hvalue
      cases op <;> exact h
    | _ => cases op <;> exact notAssignable_evaluatesAt
  | fill target contents _ _ ih ihc =>
    cases target with
    | access name path position =>
      rw [expr, Evaluation.expr, leaves_eq, Evaluation.leaves_eq]
      exact fill_evaluatesAt hF (indices_evaluate ih) ihc
    | _ => exact notAssignable_evaluatesAt
  | call name args _ ih => exact call_evaluatesAt hF hact (exprs_evaluate ih)

end Lowering
end TapeC
