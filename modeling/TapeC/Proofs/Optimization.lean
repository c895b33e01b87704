import TapeC.Proofs.Definitions

/-! What a program does is not changed by optimizing it. -/

namespace TapeC

open Layout Program Evaluation

namespace Evaluation

variable {ctx ctx' : Context} {f : Expr → Expr}

/-! ### Changed expressions -/

/-- Expressions that are changed do in one context what they did in the other. -/
structure Rewrites (f : Expr → Expr) (ctx ctx' : Context) : Prop where
  structs : ctx'.definitions.structs = ctx.definitions.structs
  constant? : ∀ e, (f e).constant? = e.constant?
  expr : ∀ e, Evaluation.expr ctx' (f e) = Evaluation.expr ctx e

theorem declare_mapExprs (h : Rewrites f ctx ctx') (d : Declaration) :
    declare ctx' (d.mapExprs f) ((d.mapExprs f).contents.map (leaves ctx')) =
      declare ctx d (d.contents.map (leaves ctx)) := by
  have hleaves (i : Initializer Expr) : leaves ctx' (i.map f) = leaves ctx i := by
    rw [leaves_eq, leaves_eq, Initializer.map_map]
    exact Initializer.map_congr i fun e _ => h.expr e
  have hcontents : (d.mapExprs f).contents.map (leaves ctx') = d.contents.map (leaves ctx) := by
    rw [Declaration.mapExprs, Option.map_map]
    exact congrArg (Option.map · d.contents) (funext hleaves)
  rw [hcontents, declare, declare, h.structs]
  rfl

theorem option_mapExprs (h : Rewrites f ctx ctx') (e : Option Expr) {v : Cell} :
    ((e.map f).map (expr ctx')).getD (return v) = (e.map (expr ctx)).getD (return v) := by
  cases e with
  | none => rfl
  | some e => exact h.expr e

theorem statements_map {k : Statement → Statement} {body : List Statement}
    (h : ∀ s ∈ body, statement ctx' (k s) = statement ctx s) :
    statements ctx' (body.map k) = statements ctx body := by
  induction body with
  | nil => rfl
  | cons s body ih =>
    rw [List.map_cons, statements, h s (by simp), ih fun s hs => h s (by simp [hs]), statements]

theorem arms_mapExprs (h : Rewrites f ctx ctx') {cases : List (Case Statement)}
    (hs : ∀ c ∈ cases, ∀ s ∈ c.body, statement ctx' (s.mapExprs f) = statement ctx s) :
    arms ctx' (mapCases f cases) = arms ctx cases := by
  induction cases with
  | nil => rfl
  | cons c cases ih =>
    have hrest := ih fun c hc => hs c (by simp [hc])
    have hbody := statements_map (hs c (by simp))
    rw [← mapBody_eq] at hbody
    obtain ⟨label, body, hasBreak, unreachable, p⟩ := c
    cases label with
    | value e => simp only [mapCases, CaseLabel.mapExprs, arms, h.constant? e, hbody, hrest]
    | default => simp only [mapCases, CaseLabel.mapExprs, arms, hbody, hrest]

theorem branch_map {k : Statement → Statement} {b : Option Statement}
    (h : ∀ s ∈ b.toList, statement ctx' (k s) = statement ctx s) :
    statement? ctx' (b.map k) = statement? ctx b := by
  cases b with
  | none => rfl
  | some s => exact h s (by simp)

/-- Statements do the same if their expressions do. -/
theorem statement_mapExprs (h : Rewrites f ctx ctx') (s : Statement) :
    statement ctx' (s.mapExprs f) = statement ctx s := by
  induction s using Statement.induct with
  | step s ih =>
    cases s with
    | declare d => exact declare_mapExprs h d
    | expr e => rw [Statement.mapExprs, statement, h.expr, statement]
    | print | breaks | continues | empty => rfl
    | block body p =>
      have hbody : statements ctx' (body.map (·.mapExprs f)) = statements ctx body := statements_map ih
      rw [Statement.mapExprs, statement, mapBody_eq, hbody, statement]
    | ifElse c a b p =>
      have hb : statement? ctx' (mapBranch f b) = statement? ctx b := by
        rw [mapBranch_eq]
        exact branch_map fun s hs => ih s (by simp [Statement.parts, Option.mem_toList.1 hs])
      rw [Statement.mapExprs, statement, h.expr, ih a (by simp [Statement.parts]), hb, statement]
    | whileLoop c body p =>
      rw [Statement.mapExprs, statement, h.expr, ih body (by simp [Statement.parts]), statement]
    | doLoop body c p =>
      rw [Statement.mapExprs, statement, h.expr, ih body (by simp [Statement.parts]), statement]
    | forLoop init c step body p =>
      have hinit : statement? ctx' (mapBranch f init) = statement? ctx init := by
        rw [mapBranch_eq]
        exact branch_map fun s hs => ih s (by simp [Statement.parts, Option.mem_toList.1 hs])
      rw [Statement.mapExprs, statement, hinit, option_mapExprs h, option_mapExprs h,
        ih body (by simp [Statement.parts]), statement]
    | switch value cases p =>
      have harms := arms_mapExprs h fun c hc s hs => ih s
        (List.mem_flatMap.2 ⟨c, hc, List.mem_append_left _ hs⟩)
      rw [Statement.mapExprs, statement, h.expr, harms, statement]
    | returns value p =>
      cases value with
      | none => rfl
      | some e => simp only [Statement.mapExprs, Option.map_some, statement, h.expr e]

/-! ### Printed constants -/

/-- Printing the digits of a constant is what printing the number does. -/
theorem statement_printed {e : Expr} {s : Statement} (h : e.printed? = some s) :
    statement ctx s = statement ctx (.expr e) := by
  unfold Expr.printed? at h
  split at h
  next arg p =>
    obtain ⟨v, hv, rfl⟩ := Option.map_eq_some_iff.1 h
    have hcallable : ctx.definitions.callable? "printint" = some (.builtin .printInt) := rfl
    have hcall : expr ctx (.call "printint" [arg] p) = callBuiltin .printInt v := by
      rw [expr, exprs, exprs, expr_of_constant hv, call, hcallable]
      rfl
    rw [statement, statement, hcall, Routine.Builtin.bytes_toString]
    rfl
  next => cases h

theorem arms_printConstants {cases : List (Case Statement)}
    (hs : ∀ c ∈ cases, ∀ s ∈ c.body, statement ctx s.printConstants = statement ctx s) :
    arms ctx (printConstantsCases cases) = arms ctx cases := by
  induction cases with
  | nil => rfl
  | cons c cases ih =>
    have hrest := ih fun c hc => hs c (by simp [hc])
    have hbody := statements_map (hs c (by simp))
    rw [← printConstantsIn_eq] at hbody
    obtain ⟨label, body, hasBreak, unreachable, p⟩ := c
    cases label <;> simp only [printConstantsCases, arms, hbody, hrest]

theorem statement_printConstants (s : Statement) :
    statement ctx s.printConstants = statement ctx s := by
  induction s using Statement.induct with
  | step s ih =>
    cases s with
    | expr e =>
      rw [Statement.printConstants]
      cases h : e.printed? with
      | none => rfl
      | some s => exact statement_printed h
    | declare | print | returns | breaks | continues | empty => rfl
    | block body p =>
      have hbody : statements ctx (body.map Statement.printConstants) = statements ctx body := statements_map ih
      rw [Statement.printConstants, statement, printConstantsIn_eq, hbody, statement]
    | ifElse c a b p =>
      have hb : statement? ctx (printConstantsBranch b) = statement? ctx b := by
        rw [printConstantsBranch_eq]
        exact branch_map fun s hs => ih s (by simp [Statement.parts, Option.mem_toList.1 hs])
      rw [Statement.printConstants, statement, ih a (by simp [Statement.parts]), hb, statement]
    | whileLoop c body p => rw [Statement.printConstants, statement, ih body (by simp [Statement.parts]), statement]
    | doLoop body c p => rw [Statement.printConstants, statement, ih body (by simp [Statement.parts]), statement]
    | forLoop init c step body p =>
      rw [Statement.printConstants, statement, ih body (by simp [Statement.parts]), statement]
    | switch value cases p =>
      have harms := arms_printConstants fun c hc s hs => ih s
        (List.mem_flatMap.2 ⟨c, hc, List.mem_append_left _ hs⟩)
      rw [Statement.printConstants, statement, harms, statement]

end Evaluation

/-! ### Programs -/

/-- The function with its body optimized. -/
def Program.FunctionDef.optimized (d : FunctionDef) : FunctionDef :=
  { d with body := printConstantsIn (mapBody Expr.fold d.body) }

namespace Evaluation

open Definitions

variable {definitions : Definitions}

theorem optimize_eq (p : Program) : p.optimize 2 =
    { p with
      globals := p.globals.map (·.mapExprs Expr.fold)
      functions := p.functions.map FunctionDef.optimized } := by
  simp [Program.optimize, Program.fold, Program.printConstants, Program.mapExprs, FunctionDef.optimized]

theorem optimized_bodily : Bodily FunctionDef.optimized := ⟨fun _ => rfl, fun _ => rfl, fun _ => rfl⟩

/-- A name means the changed function. -/
theorem callable?_mapFunctions {g : FunctionDef → FunctionDef} (hg : Bodily g) (name : String) :
    (mapFunctions g definitions).callable? name =
      (definitions.callable? name).map fun
        | .builtin b => .builtin b
        | .defined d => .defined (g d) := by
  rw [callable?, callable?]
  cases Routine.Builtin.ofName? name with
  | some b => rfl
  | none =>
    have hfind : (mapFunctions g definitions).functions.find? (·.name == name) =
        (definitions.functions.find? (·.name == name)).map g := by
      simp [mapFunctions, List.find?_map, Function.comp_def, hg.name]
    rw [hfind, Option.map_map, Option.map_map]
    rfl

theorem statements_optimized {ctx ctx' : Context} (h : Rewrites Expr.fold ctx ctx') (d : FunctionDef) :
    statements ctx' d.optimized.body = statements ctx d.body := by
  rw [FunctionDef.optimized, printConstantsIn_eq, statements_map fun s _ => statement_printConstants s,
    mapBody_eq]
  exact statements_map fun s _ => statement_mapExprs h s

theorem invoke_optimized (depth : Nat) (d : FunctionDef) (args : List Cell) :
    invoke (mapFunctions .optimized definitions) depth d.optimized args = invoke definitions depth d args := by
  induction depth generalizing d args with
  | zero => rfl
  | succ depth ih =>
    have hcall (name : String) (args : List (Eval Cell)) :
        call ⟨mapFunctions .optimized definitions, invoke (mapFunctions .optimized definitions) depth⟩ name args =
          call ⟨definitions, invoke definitions depth⟩ name args := by
      simp only [call, callable?_mapFunctions optimized_bodily]
      refine bind_congr fun args => ?_
      cases definitions.callable? name with
      | none => rfl
      | some callable =>
        cases callable with
        | builtin b => rfl
        | defined d => exact ih d args
    have hrewrites : Rewrites Expr.fold ⟨definitions, invoke definitions depth⟩
        ⟨mapFunctions .optimized definitions, invoke (mapFunctions .optimized definitions) depth⟩ :=
      ⟨rfl, Expr.fold_constant?, fun e => (expr_fold e).trans (expr_congr hcall e)⟩
    rw [invoke, invoke, statements_optimized hrewrites]
    rfl

theorem start_optimized (globals : List Declaration) (input : List Cell) :
    start (mapFunctions .optimized definitions) (globals.map (·.mapExprs Expr.fold)) input =
      start definitions globals input := by
  have hobjects (structs : List StructLayout) :
      (globals.map (·.mapExprs Expr.fold)).mapM (globalObject structs) = globals.mapM (globalObject structs) := by
    induction globals with
    | nil => rfl
    | cons d globals ih =>
      rw [List.map_cons, List.mapM_cons, List.mapM_cons, globalObject_mapExprs fold_steady, ih]
  rw [start, start, hobjects]
  rfl

/-- An optimized program does what the program does. -/
theorem evaluate_optimize (depth : Nat) (p : Program) (input : List Cell) :
    (p.optimize 2).evaluate depth input = p.evaluate depth input := by
  rw [optimize_eq, Program.evaluate, Program.evaluate, ofProgram_map fold_steady optimized_bodily]
  cases ofProgram p with
  | error fault => rfl
  | ok definitions =>
    have hstart : start (mapFunctions .optimized definitions) (p.globals.map (·.mapExprs Expr.fold)) input =
        start definitions p.globals input := start_optimized p.globals input
    have hmain : (mapFunctions .optimized definitions).functions.find? (·.name == "main") =
        (definitions.functions.find? (·.name == "main")).map .optimized := by
      simp [mapFunctions, List.find?_map, Function.comp_def, optimized_bodily.name]
    simp only [Functor.map, Except.map, bind, Except.bind, hstart]
    cases start definitions p.globals input with
    | error fault => rfl
    | ok σ =>
      simp only [pure, Except.pure, hmain]
      cases definitions.functions.find? (·.name == "main") with
      | none => rfl
      | some main => simp only [Option.map_some, invoke_optimized]

end Evaluation
end TapeC
