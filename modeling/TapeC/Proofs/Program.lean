import TapeC.Compile
import TapeC.Proofs.Globals
import TapeC.Proofs.Loading

/-! Whole programs. The code of a program does what the evaluation of the program does. -/

namespace TapeC.Lowering

open Layout Program Tape Routine Code Config Comp Evaluation Definitions

variable {p : Program} {definitions : Definitions}

theorem foldlM_addFunction {ds fs fs' : List FunctionDef} (h : ds.foldlM addFunction fs = .ok fs') :
    fs' = fs ++ ds := by
  induction ds generalizing fs with
  | nil =>
    cases h
    rw [List.append_nil]
  | cons d ds ih =>
    rw [List.foldlM_cons] at h
    obtain ⟨next, hnext, h⟩ := bind_eq_ok.1 h
    rw [addFunction] at hnext
    split at hnext
    · cases hnext
    obtain ⟨_, _, hnext⟩ := bind_eq_ok.1 hnext
    cases hnext
    rw [ih h, List.append_assoc]
    rfl

theorem ofProgram_functions (h : Definitions.ofProgram p = .ok definitions) :
    definitions.functions = p.functions := by
  obtain ⟨_, _, h⟩ := bind_eq_ok.1 h
  obtain ⟨_, _, h⟩ := bind_eq_ok.1 h
  obtain ⟨functions, hfunctions, h⟩ := bind_eq_ok.1 h
  cases h
  exact foldlM_addFunction hfunctions

theorem Prepared.describes {q : Nat} (h : Prepared definitions q) :
    Describes (globalFrame definitions) (.ofGlobals definitions.globals) q where
  find name := by
    simp [Scopes.find?, Scopes.ofGlobals, Scope.find?, globalFrame, Frame.vars]
  fits := h.fits
  sound v hv := h.types v (List.mem_reverse.1 hv)

/-- The function that a program starts with. -/
theorem callMain_lowers {annotate : Bool} {c : Code} (h : Lowers (callMain definitions annotate) c) :
    ∃ main, definitions.functions.find? (·.name == "main") = some main ∧
      Lowers (Lowering.call (outermost definitions annotate definitions.globalsSize) "main" [] main.position
        definitions.globalsSize) c := by
  rw [callMain] at h
  split at h
  · exact absurd h not_lowers_fail
  next main hmain =>
    split at h
    · exact ⟨main, hmain, h⟩
    · exact absurd h not_lowers_fail

theorem call_main {ctx : Context} {main : FunctionDef}
    (h : ctx.definitions.functions.find? (·.name == "main") = some main) :
    Evaluation.call ctx "main" [] = ctx.invoke main [] := by
  have hcallable : ctx.definitions.callable? "main" = some (.defined main) := by
    rw [callable?, h]
    rfl
  rw [Evaluation.call, Evaluation.arguments, pure_bind, hcallable]

/-- The code of a program, on an empty tape, writes what the evaluation of the program does. -/
theorem lower_sim {annotate : Bool} {code : Code} {size : Nat} {warnings : List Warning} {depth : Nat}
    (input : List Cell) (h : p.lower annotate = .ok (code, size, warnings))
    (hdepth : p.functions.length ≤ depth) :
    Sim (fun t output => t.output = output) (code.exec 0 (blank input)) (p.evaluate depth input) := by
  obtain ⟨definitions, hdefinitions, h⟩ := bind_eq_ok.1 h
  obtain ⟨⟨body, _⟩, hbody, h⟩ := bind_eq_ok.1 h
  cases h
  obtain ⟨σ, t, hσ, hruns, hhead, hprepared, hholds, -⟩ := ofProgram_runs input hdefinitions
  obtain ⟨main, hmain, hcall⟩ := callMain_lowers ⟨_, _, hbody⟩
  rw [← ofProgram_functions hdefinitions] at hdepth
  have hstart : (do
      let definitions ← Definitions.ofProgram p
      return (definitions, ← start definitions p.globals input)) = Except.ok (definitions, σ) :=
    bind_eq_ok.2 ⟨definitions, hdefinitions, bind_eq_ok.2 ⟨σ, hσ, rfl⟩⟩
  have hnone : AllEvaluate 0 (globalFrame definitions).matching definitions.globalsSize [] [] := .nil
  have hevaluates := call_evaluatesAt hprepared.describes (outermost_serves hdepth hprepared) hnone
    definitions.globalsSize (Nat.le_refl _) _ hcall t σ hhead hholds
  rw [call_main hmain] at hevaluates
  rw [Program.evaluate, hstart]
  simp only [hmain]
  refine hruns.append_sim ?_
  rw [map_eq_pure_bind]
  exact hevaluates.bind_right fun u r hy => ⟨r.2.output, pure_ends.2 rfl, hy.holds.output⟩

end TapeC.Lowering
