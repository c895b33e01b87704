import TapeC.Proofs.Contents
import TapeC.Proofs.Folding

/-! The definitions of a program do not depend on how its expressions are written. Replacing
expressions by others with the same constant values leaves the global variables as they are,
and functions are taken in by their names and parameters alone. -/

namespace TapeC.Layout.Definitions

open Program Evaluation

/-- A change of expressions that keeps constant values and positions. -/
structure Steady (f : Expr → Expr) : Prop where
  constant? : ∀ e, (f e).constant? = e.constant?
  position : ∀ e, (f e).position = e.position

theorem fold_steady : Steady Expr.fold := ⟨Expr.fold_constant?, Expr.fold_position⟩

variable {f : Expr → Expr} {structs : List StructLayout} {d : Declaration}

/-! ### Global variables -/

theorem globalCell_map (hf : Steady f) {name : String} (c : Content Expr) :
    globalCell name (c.map f) = globalCell name c := by
  cases c with
  | byte v => rfl
  | value e => simp only [Content.map, globalCell, hf.constant? e, hf.position e]

theorem mapM_globalCell (hf : Steady f) {name : String} (cells : List (Content Expr)) :
    (cells.map (Content.map f)).mapM (globalCell name) = cells.mapM (globalCell name) := by
  induction cells with
  | nil => rfl
  | cons c cells ih => rw [List.map_cons, List.mapM_cons, List.mapM_cons, globalCell_map hf, ih]

/-- The constant contents of a global variable. -/
theorem layOutContents_steady (hf : Steady f) {α : Type} {name : String} {position : Position} {shape : Shape}
    {next : List Cell → Except CompileFault α} (i : Initializer Expr) :
    (do
      let cells ← layOutContents Expr.position name position shape (i.map f)
      next (← cells.mapM (globalCell name))) = (do
      let cells ← layOutContents Expr.position name position shape i
      next (← cells.mapM (globalCell name))) := by
  have hplace : Expr.position ∘ f = Expr.position := funext hf.position
  rw [layOutContents_map, hplace]
  cases layOutContents Expr.position name position shape i with
  | error fault => rfl
  | ok cells =>
    change (((cells.map (Content.map f)).mapM (globalCell name)) >>= next) = (cells.mapM (globalCell name) >>= next)
    rw [mapM_globalCell hf]

theorem globalContents_mapExprs (hf : Steady f) {shape : Shape} :
    globalContents (d.mapExprs f) shape = globalContents d shape := by
  rw [globalContents, globalContents, Declaration.mapExprs]
  cases d.contents with
  | none => rfl
  | some i => exact layOutContents_steady hf i

theorem addGlobal_mapExprs (hf : Steady f) {g : Globals} :
    addGlobal structs g (d.mapExprs f) = addGlobal structs g d := by
  simp only [addGlobal, globalContents_mapExprs hf]
  rfl

theorem globalObject_mapExprs (hf : Steady f) :
    globalObject structs (d.mapExprs f) = globalObject structs d := by
  rw [globalObject, globalObject, Declaration.mapExprs]
  cases d.contents with
  | none => rfl
  | some i =>
    refine bind_congr fun type => ?_
    exact layOutContents_steady hf i

/-! ### Functions -/

/-- A change of functions that keeps their names and parameters. -/
structure Bodily (g : FunctionDef → FunctionDef) : Prop where
  name : ∀ d, (g d).name = d.name
  params : ∀ d, (g d).params = d.params
  position : ∀ d, (g d).position = d.position

variable {g : FunctionDef → FunctionDef}

theorem addFunction_map (hg : Bodily g) {d : FunctionDef} {fs : List FunctionDef} :
    addFunction (fs.map g) (g d) = List.map g <$> addFunction fs d := by
  have hany : (fs.map g).any (·.name == d.name) = fs.any (·.name == d.name) := by
    simp [List.any_map, Function.comp_def, hg.name]
  rw [addFunction, addFunction, hg.name, hg.params, hg.position, hany]
  split
  · rfl
  · cases checkParameters [] d.params with
    | error fault => rfl
    | ok _ => simp [pure, Except.pure, bind, Except.bind, Functor.map, Except.map]

theorem foldlM_addFunction_map (hg : Bodily g) {ds fs : List FunctionDef} :
    (ds.map g).foldlM addFunction (fs.map g) = List.map g <$> ds.foldlM addFunction fs := by
  induction ds generalizing fs with
  | nil => rfl
  | cons d ds ih =>
    rw [List.map_cons, List.foldlM_cons, List.foldlM_cons, addFunction_map hg]
    cases addFunction fs d with
    | error fault => rfl
    | ok next => exact ih

/-! ### Programs -/

/-- The definitions with changed functions. -/
def mapFunctions (g : FunctionDef → FunctionDef) (definitions : Definitions) : Definitions :=
  { definitions with functions := definitions.functions.map g }

/-- A program with changed expressions and functions. -/
theorem ofProgram_map (hf : Steady f) (hg : Bodily g) (p : Program) :
    ofProgram { p with globals := p.globals.map (·.mapExprs f), functions := p.functions.map g } =
      mapFunctions g <$> ofProgram p := by
  have hglobals (structs : List StructLayout) :
      (p.globals.map (·.mapExprs f)).foldlM (addGlobal structs) {} = p.globals.foldlM (addGlobal structs) {} := by
    rw [List.foldlM_map]
    simp only [addGlobal_mapExprs hf]
  have hfunctions : (p.functions.map g).foldlM addFunction (List.map g []) =
      List.map g <$> p.functions.foldlM addFunction [] :=
    foldlM_addFunction_map hg
  rw [List.map_nil] at hfunctions
  simp only [ofProgram, hglobals, hfunctions, map_bind, bind_map_left, map_pure]
  rfl

end TapeC.Layout.Definitions
