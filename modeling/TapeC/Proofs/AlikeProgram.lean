import TapeC.Compile
import TapeC.Proofs.AlikeTree
import TapeC.Proofs.Optimization

/-! Functions and programs whose lowerings are alike. What is shown of the bodies of functions
carries over to calls by induction on how many can be inside each other. -/

namespace TapeC.Lowering.Likeness

open Layout Program Tape Routine Code Definitions

variable {L : Likeness} {act act' : Activation} {definitions : Definitions} {g : FunctionDef → FunctionDef}
  {annotate annotate' : Bool}

/-! ### Functions -/

theorem declareParameters_alike (scopes : Scopes) (params : List Parameter) :
    L.Alike Eq (declareParameters scopes params) (declareParameters scopes params) := by
  induction params generalizing scopes with
  | nil => exact .pure rfl
  | cons q params ih =>
    exact (alike_liftM declare_failsOrdinarily).bind fun (_, next) _ h => h ▸ ih next

theorem functionBody_alike {d d' : FunctionDef} (hact : L.AlikeFunction act act')
    (hglobals : act.definitions.globals = act'.definitions.globals) (hname : d.name = d'.name)
    (hparams : d.params = d'.params) (h : L.AlikeIn (statements act d.body) (statements act' d'.body)) :
    L.Alike L.code (functionBody act d) (functionBody act' d') := by
  rw [functionBody, functionBody, hglobals, hact.returnCell, hname, hparams]
  refine (declareParameters_alike _ d'.params).bind fun scopes _ hscopes => ?_
  subst hscopes
  refine (h scopes).bind fun (body, next) (body', next') hr => ?_
  obtain ⟨hbody, hnext⟩ := hr
  cases hnext
  have hbody : L.code body body' := hbody
  refine .pure ?_
  repeat' first | assumption | exact hact.note _ | exact L.refl rfl | apply L.append

/-- Functions with changed bodies, which are alike wherever calls in them are. -/
structure AlikeBodies (L : Likeness) (definitions : Definitions) (g : FunctionDef → FunctionDef)
    (annotate annotate' : Bool) : Prop where
  bodily : Bodily g
  returns : ∀ d, (g d).returns = d.returns
  fault : ∀ e, L.fault e
  note : ∀ text, L.code (if annotate then .note text else skip) (if annotate' then .note text else skip)
  body : ∀ act act' d, L.AlikeFunction act act' → act.definitions = definitions →
    act'.definitions = mapFunctions g definitions → (∀ name, L.AlikeCall act act' name) →
    L.AlikeIn (statements act d.body) (statements act' (g d).body)

/-- Calls are alike if functions are expanded to code that is. -/
theorem alikeCall_of_inline (hg : Bodily g) (hact : act.definitions = definitions)
    (hact' : act'.definitions = mapFunctions g definitions)
    (h : ∀ d position p, L.Alike L.code (act.inline d position p) (act'.inline (g d) position p)) (name : String) :
    L.AlikeCall act act' name where
  callable := by
    rw [hact, hact', Evaluation.callable?_mapFunctions hg]
    cases definitions.callable? name with
    | none => exact .inl ⟨rfl, rfl⟩
    | some callable =>
      cases callable with
      | builtin b => exact .inr (.inl ⟨b, rfl, rfl⟩)
      | defined d => exact .inr (.inr ⟨d, g d, rfl, rfl, by rw [hg.params], h d⟩)

theorem inlineCall_alike (h : L.AlikeBodies definitions g annotate annotate') (depth : Nat) (active : List String)
    (d : FunctionDef) (position : Position) (p : Nat) :
    L.Alike L.code (inlineCall definitions annotate depth active d position p)
      (inlineCall (mapFunctions g definitions) annotate' depth active (g d) position p) := by
  have hfail : L.Alike L.code (fail position (.recursion d.name)) (fail position (.recursion d.name)) :=
    fun _ => ⟨rfl, h.fault _⟩
  induction depth generalizing active d position p with
  | zero =>
    rw [inlineCall, inlineCall, h.bodily.name]
    exact hfail
  | succ depth ih =>
    rw [inlineCall, inlineCall, h.bodily.name]
    split
    · exact hfail
    · have hact : L.AlikeFunction
          ⟨definitions, annotate, d.returns, p, inlineCall definitions annotate depth (d.name :: active)⟩
          ⟨mapFunctions g definitions, annotate', (g d).returns, p,
            inlineCall (mapFunctions g definitions) annotate' depth (d.name :: active)⟩ :=
        ⟨rfl, (h.returns d).symm, rfl, h.note⟩
      refine functionBody_alike hact rfl (h.bodily.name d).symm (h.bodily.params d).symm ?_
      refine h.body _ _ d hact rfl rfl (alikeCall_of_inline h.bodily rfl rfl fun d' position' p' => ?_)
      exact ih (d.name :: active) d' position' p' fun _ => ⟨rfl, h.fault _⟩

/-! ### Programs -/

theorem callMain_alike (h : L.AlikeBodies definitions g annotate annotate') :
    L.Alike L.code (callMain definitions annotate) (callMain (mapFunctions g definitions) annotate') := by
  have hmain : (mapFunctions g definitions).functions.find? (·.name == "main") =
      (definitions.functions.find? (·.name == "main")).map g := by
    simp [mapFunctions, List.find?_map, Function.comp_def, h.bodily.name]
  rw [callMain, callMain, hmain]
  cases definitions.functions.find? (·.name == "main") with
  | none => exact alike_fail (by simp)
  | some main =>
    simp only [Option.map_some, h.bodily.params, h.bodily.position]
    split
    · refine call_alike (alikeCall_of_inline h.bodily rfl rfl ?_ "main") .nil _
      have hlength : (mapFunctions g definitions).functions.length = definitions.functions.length := List.length_map _
      intro d position p
      simp only [outermost, hlength]
      exact inlineCall_alike h _ _ d position p
    · exact alike_fail (by simp)

/-- The same fault, or code that is related, the same cells for global variables and the
same warnings. -/
def AlikeResult (L : Likeness) :
    Except CompileFault (Code × Nat × List Warning) → Except CompileFault (Code × Nat × List Warning) → Prop
  | .ok (c, n, w), .ok (c', n', w') => L.code c c' ∧ n = n' ∧ w = w'
  | .error e, .error f => e = f
  | _, _ => False

theorem lower_alike {p p' : Program}
    (hp : Definitions.ofProgram p' = mapFunctions g <$> Definitions.ofProgram p)
    (h : ∀ definitions, L.AlikeBodies definitions g annotate annotate') :
    L.AlikeResult (p.lower annotate) (p'.lower annotate') := by
  rw [lower, lower, hp]
  cases hdefinitions : Definitions.ofProgram p with
  | error fault => exact rfl
  | ok definitions =>
    have hmain := callMain_alike (h definitions) []
    change L.AlikeResult (callMain definitions annotate [] >>= _)
      (callMain (mapFunctions g definitions) annotate' [] >>= _)
    change L.SameEnd L.code (callMain definitions annotate [])
      (callMain (mapFunctions g definitions) annotate' []) at hmain
    generalize callMain definitions annotate [] = x at hmain
    generalize callMain (mapFunctions g definitions) annotate' [] = y at hmain
    match x, y, hmain with
    | .ok (c, w), .ok (c', _), ⟨hc, rfl⟩ => exact ⟨L.append (L.refl (globalCode_noteless hdefinitions)) hc, rfl, rfl⟩
    | .error e, .error _, ⟨rfl, _⟩ => exact rfl

end TapeC.Lowering.Likeness
