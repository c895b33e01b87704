import TapeC.Proofs.AlikeProgram

/-! Optimizing a program changes neither whether and why it is refused nor what it is warned
of. An expression is lowered without a fault if it has a constant value, so that nothing is
missed where it is replaced by that value or printed as text. -/

namespace TapeC

open Layout Program Tape Lowering

namespace Lowering

variable {act act' : Activation} {scopes : Scopes}

/-! ### Constant expressions -/

/-- An expression with a constant value is lowered without a fault or a warning. -/
theorem expr_pure_of_constant {e : Expr} {v : Cell} (h : e.constant? = some v) (p : Nat) :
    ∃ c, expr act scopes e p = pure c := by
  have hagrees : Agrees (expr act scopes e p) e.constant? := expr_agrees (Expr.isClosed_of_constant h)
  rwa [h] at hagrees

namespace Likeness

/-- Any fault and any code. -/
def diagnostic : Likeness where
  fault _ := True
  code _ _ := True
  ordinary _ _ := trivial
  refl _ := trivial
  append _ _ := trivial
  loop _ := trivial

variable {α β γ : Type} {S : α → β → Prop} {T : β → γ → Prop} {U : α → γ → Prop}

theorem diagnostic_refl {S : α → α → Prop} (h : ∀ a, S a a) (x : Lower α) : diagnostic.Alike S x x := by
  intro w
  cases x.run w with
  | error e => exact ⟨rfl, trivial⟩
  | ok r => exact ⟨h r.1, rfl⟩

theorem call_refl {name : String} : diagnostic.AlikeCall act act name where
  callable := by
    cases act.definitions.callable? name with
    | none => exact .inl ⟨rfl, rfl⟩
    | some callable =>
      cases callable with
      | builtin b => exact .inr (.inl ⟨b, rfl, rfl⟩)
      | defined d => exact .inr (.inr ⟨d, d, rfl, rfl, rfl, fun _ _ => diagnostic_refl (fun _ => trivial) _⟩)

theorem Alike.trans {L : Likeness} {x : Lower α} {y : Lower β} {z : Lower γ} (h : L.Alike S x y)
    (h' : L.Alike T y z) (hU : ∀ a b c, S a b → T b c → U a c) : L.Alike U x z := by
  intro w
  have hw := h w
  have hw' := h' w
  generalize x.run w = r at hw
  generalize y.run w = s at hw hw'
  generalize z.run w = t at hw'
  cases s with
  | error f =>
    match r, t with
    | .error _, .error _ => exact ⟨hw.1.trans hw'.1, hw.2⟩
    | .ok _, _ => exact hw.elim
    | .error _, .ok _ => exact hw'.elim
  | ok b =>
    match r, t with
    | .ok _, .ok _ => exact ⟨hU _ _ _ hw.1 hw'.1, hw.2.trans hw'.2⟩
    | .error _, _ => exact hw.elim
    | .ok _, .error _ => exact hw'.elim

theorem diagnostic_trans_at {a b c : CodeAt} (h : diagnostic.AlikeAt a b) (h' : diagnostic.AlikeAt b c) :
    diagnostic.AlikeAt a c :=
  fun p => (h p).trans (h' p) fun _ _ _ _ _ => trivial

theorem diagnostic_trans_in {a b c : CodeIn} (h : diagnostic.AlikeIn a b) (h' : diagnostic.AlikeIn b c) :
    diagnostic.AlikeIn a c :=
  fun scopes => (h scopes).trans (h' scopes) fun _ _ _ hr hs => ⟨trivial, hr.2.trans hs.2⟩

/-! ### Folding -/

theorem orConstant_alike (e : Expr) : diagnostic.AlikeAt (expr act scopes e) (expr act scopes e.orConstant) := by
  intro p
  rw [Expr.orConstant]
  split
  next v hv =>
    obtain ⟨c, hc⟩ : ∃ c, expr act scopes e p = pure c := expr_pure_of_constant hv p
    rw [hc]
    exact .pure trivial
  next => exact diagnostic_refl (fun _ => trivial) _

/-- An expression is lowered like the folded one. -/
theorem expr_fold_alike (e : Expr) : diagnostic.AlikeAt (expr act scopes e) (expr act scopes e.fold) := by
  have hfold (path : List (Selector Expr)) : indices act scopes (foldPath path) =
      (indexing path).map (Selector.map (Index.map fun e => expr act scopes e.fold)) := by
    rw [foldPath_eq, indices_indexing Definitions.fold_steady]
  have hpath {path : List (Selector Expr)}
      (h : ∀ e ∈ indexed path, diagnostic.AlikeAt (expr act scopes e) (expr act scopes e.fold)) :
      ∀ i ∈ indexed (indexing path), diagnostic.AlikeAt (expr act scopes i.code) (expr act scopes i.code.fold) :=
    fun i hi => h i.code (mem_indexed_indexing hi)
  induction e using Expr.induct with
  | number | char | bool => exact constant_alike
  | access name path p ih =>
    rw [Expr.fold, expr, expr, indices_indexing_id, hfold]
    exact read_alike (hpath ih)
  | binary op a b p iha ihb =>
    rw [Expr.fold]
    refine diagnostic_trans_at ?_ (orConstant_alike _)
    rw [expr, expr, Expr.fold_constant?]
    exact binary_alike iha ihb
  | unary op e p ih =>
    rw [Expr.fold]
    refine diagnostic_trans_at ?_ (orConstant_alike _)
    rw [expr, expr]
    exact unary_alike ih
  | update op before target p _ ih =>
    cases target with
    | access name path q =>
      rw [Expr.fold, Expr.fold, expr, expr, indices_indexing_id, hfold]
      exact update_alike (hpath ih)
    | unary | binary =>
      rw [Expr.fold, Expr.fold, Expr.orConstant]
      split <;> exact notAssignable_alike rfl
    | _ => exact notAssignable_alike rfl
  | assign target op value p iht ih ihv =>
    cases target with
    | access name path q =>
      cases op with
      | none =>
        rw [Expr.fold, Expr.fold, expr, expr, indices_indexing_id, hfold]
        exact assign_alike (hpath ih) ihv
      | some op =>
        rw [Expr.fold] at iht
        rw [Expr.fold, Expr.fold, expr_assign_op, expr_assign_op, indices_indexing_id, hfold, Expr.fold_constant?]
        exact assign_alike (hpath ih) (binary_alike iht ihv)
    | unary | binary =>
      rw [Expr.fold, Expr.fold, Expr.orConstant]
      split <;> cases op <;> exact notAssignable_alike rfl
    | _ => cases op <;> exact notAssignable_alike rfl
  | fill target contents p _ ih ihc =>
    cases target with
    | access name path q =>
      rw [Expr.fold, Expr.fold, expr, expr, indices_indexing_id, hfold, leaves_eq, leaves_eq, foldContents_eq,
        Initializer.map_map]
      exact fill_alike (hpath ih) fun e he => ⟨e.fold_position.symm, ihc e he⟩
    | unary | binary =>
      rw [Expr.fold, Expr.fold, Expr.orConstant]
      split <;> exact notAssignable_alike rfl
    | _ => exact notAssignable_alike rfl
  | call name args p ih =>
    rw [Expr.fold, foldArgs_eq]
    exact call_alike call_refl (forall₂_exprs ih)

/-! ### Printed constants -/

theorem printConstants_unnoticed : Unnoticed Statement.printConstants where
  isEmpty s := by
    cases s with
    | expr e =>
      rcases Statement.printConstants_expr e with h | ⟨text, p, h⟩ <;> rw [h]
      rfl
    | _ => rfl
  checkReturn s rest := by
    cases s with
    | expr e =>
      rcases Statement.printConstants_expr e with h | ⟨text, p, h⟩ <;> rw [h]
      rfl
    | _ => rfl
  declared body := by
    induction body with
    | nil => rfl
    | cons s body ih =>
      cases s with
      | expr e =>
        rw [List.map_cons]
        rcases Statement.printConstants_expr e with h | ⟨text, p, h⟩ <;> rw [h] <;> exact ih
      | declare d => rfl
      | _ => exact ih

/-- A constant number is printed without a fault or a warning, in either way. -/
theorem statement_printed_alike {e : Expr} {s : Statement} (h : e.printed? = some s) :
    diagnostic.AlikeIn (statement act (.expr e)) (statement act s) := by
  unfold Expr.printed? at h
  split at h
  next arg p =>
    obtain ⟨v, hv, rfl⟩ := Option.map_eq_some_iff.1 h
    have hcallable : act.definitions.callable? "printint" = some (.builtin .printInt) := rfl
    intro scopes
    obtain ⟨c, hc⟩ : ∃ c, expr act scopes arg (scopes.offset + 1) = pure c := expr_pure_of_constant hv _
    have hcall : ∃ c, expr act scopes (.call "printint" [arg] p) scopes.offset = pure c := by
      simp only [expr, exprs, call, hcallable, arguments, hc]
      exact ⟨_, rfl⟩
    obtain ⟨c, hc⟩ := hcall
    simp only [statement, noted, plain, discard, hc, pure_bind]
    exact .pure ⟨trivial, rfl⟩
  next => cases h

theorem alikeIn_refl (body : CodeIn) : diagnostic.AlikeIn body body :=
  fun _ => diagnostic_refl (fun _ => ⟨trivial, rfl⟩) _

theorem alikeExpr_refl (e : Scopes → CodeAt) : diagnostic.AlikeExpr e e :=
  fun _ _ => diagnostic_refl (fun _ => trivial) _

/-- A statement is lowered like the one in which constants are printed as text. -/
theorem statement_printConstants_alike (s : Statement) :
    diagnostic.AlikeIn (statement act s) (statement act s.printConstants) := by
  have hact : diagnostic.AlikeFunction act act := ⟨rfl, rfl, rfl, fun _ => trivial⟩
  induction s using Statement.induct with
  | step s ih =>
    cases s with
    | expr e =>
      rw [Statement.printConstants]
      cases h : e.printed? with
      | none => exact alikeIn_refl _
      | some s => exact statement_printed_alike h
    | declare | print | returns | breaks | continues | empty => exact alikeIn_refl _
    | block body p =>
      rw [Statement.printConstants, statement, statement, printConstantsIn_eq]
      exact plain_alike (inScope_alike (statements_alike printConstants_unnoticed ih))
    | ifElse c a b p =>
      rw [Statement.printConstants, statement, statement, printConstantsBranch_eq]
      exact noted_alike hact rfl (plain_alike (branch_alike (alikeExpr_refl _) (ih a List.mem_cons_self)
        (branch_rel fun s hs => ih s (List.mem_cons_of_mem _ hs))))
    | whileLoop c body p =>
      exact noted_alike hact rfl (plain_alike (whileLoop_alike (alikeExpr_refl _) (ih body List.mem_cons_self)))
    | doLoop body c p =>
      exact noted_alike hact rfl (plain_alike (doLoop_alike (ih body List.mem_cons_self) (alikeExpr_refl _)))
    | forLoop init c step body p =>
      have hexprs (o : Option Expr) : diagnostic.AlikeOption (o.map fun e scopes => expr act scopes e)
          (o.map fun e scopes => expr act scopes e) := by
        cases o with
        | none => exact .none
        | some e => exact .some (alikeExpr_refl _)
      have hinit : Option.Rel diagnostic.AlikeIn (statement? act init) (statement? act init) := by
        cases init with
        | none => exact .none
        | some s => exact .some (alikeIn_refl _)
      have hloop := forLoop_alike hinit (hexprs c) (hexprs step) (ih body List.mem_cons_self)
      exact noted_alike hact rfl (plain_alike fun scopes => checkLoopInit_alike.bind fun _ _ _ => hloop scopes)
    | switch value cases p =>
      rw [Statement.printConstants, statement, statement, printConstantsCases_eq, arms_eq, arms_eq]
      refine noted_alike hact rfl (plain_alike (switch_alike (alikeExpr_refl _) ?_))
      rw [List.map_map, List.forall₂_map_left_iff, List.forall₂_map_right_iff, List.forall₂_same]
      intro c hc
      have hlabel : AlikeLabel c.label (id c.label) := by
        cases c.label with
        | default => exact .default
        | value e => exact .value rfl rfl
      have hdead : c.unreachable.map id = c.unreachable := List.map_id c.unreachable
      have hbody (s : Statement) (hs : s ∈ c.body) :
          diagnostic.AlikeIn (statement act s) (statement act s.printConstants) :=
        ih s (List.mem_flatMap.2 ⟨c, hc, List.mem_append_left _ hs⟩)
      have harm := armOf_alike hlabel printConstants_unnoticed hbody fun s (_ : s ∈ c.unreachable) =>
        alikeIn_refl (statement act (id s))
      rwa [hdead] at harm

/-! ### Programs -/

theorem optimized_bodies (definitions : Definitions) (annotate : Bool) :
    diagnostic.AlikeBodies definitions FunctionDef.optimized annotate annotate where
  bodily := Evaluation.optimized_bodily
  returns _ := rfl
  fault _ := trivial
  note _ := trivial
  body act act' d hact _ _ hcall := by
    rw [FunctionDef.optimized, printConstantsIn_eq, mapBody_eq]
    have hexpr (e : Expr) (scopes : Scopes) : diagnostic.AlikeAt (expr act scopes e) (expr act' scopes e.fold) :=
      diagnostic_trans_at (expr_alike e fun name _ _ _ => hcall name) (expr_fold_alike e)
    have hfolded : diagnostic.AlikeIn (statements act d.body) (statements act' (d.body.map (·.mapExprs Expr.fold))) :=
      statements_alike mapExprs_unnoticed fun s _ => statement_alike hact Definitions.fold_steady s fun e _ => hexpr e
    exact diagnostic_trans_in hfolded (statements_alike printConstants_unnoticed fun s _ =>
      statement_printConstants_alike s)

end Likeness
end Lowering

namespace Program

theorem lower_optimize (annotate : Bool) (p : Program) :
    Likeness.diagnostic.AlikeResult (p.lower annotate) ((p.optimize 2).lower annotate) := by
  refine Likeness.lower_alike ?_ fun definitions => Likeness.optimized_bodies definitions annotate
  rw [Evaluation.optimize_eq, Definitions.ofProgram_map Definitions.fold_steady Evaluation.optimized_bodily]

/-- The same fault, or the same cells for global variables and the same warnings. -/
inductive SameDiagnostics : Except CompileFault Compiled → Except CompileFault Compiled → Prop where
  | error (fault : CompileFault) : SameDiagnostics (.error fault) (.error fault)
  | ok {c c' : Compiled} (globalsSize : c.globalsSize = c'.globalsSize) (warnings : c.warnings = c'.warnings) :
      SameDiagnostics (.ok c) (.ok c')

/-- A program is refused for the same reason with and without optimization, or accepted with
the same warnings. -/
theorem compile_same_diagnostics (annotate minify : Bool) (p : Program) :
    SameDiagnostics (p.compile ⟨true, annotate, minify⟩) (p.compile ⟨false, annotate, minify⟩) := by
  have h := lower_optimize annotate p
  simp only [compile, if_true, Bool.false_eq_true, if_false]
  generalize p.lower annotate = x at h
  generalize (p.optimize 2).lower annotate = y at h
  match x, y, h with
  | .ok (_, _, _), .ok (_, _, _), ⟨_, rfl, rfl⟩ => exact .ok rfl rfl
  | .error e, .error _, rfl => exact .error e

end Program
end TapeC
