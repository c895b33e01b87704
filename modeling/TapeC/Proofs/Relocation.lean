import TapeC.Proofs.DisplacedStatement

/-! Functions at another place. A function sees its own variables and the global ones. If it names
none of the global ones, and the functions that it calls do not either, then it is expanded to the same
code wherever it is called. An expression of literals, operators and calls of such functions has
the same code at every cell. -/

namespace TapeC

open Layout Program Tape Routine Relation

namespace Lowering.Displacement

open Code

variable {D : Displacement} {N : String → Prop} {act act' : Activation} {d : FunctionDef}

/-! ### Functions -/

theorem declareParameters_moved {s s' : Scopes} {ps : List Parameter} (hs : s.Moved D.distance N s') :
    D.Agree (Scopes.Moved D.distance fun name => name ∈ ps.map Parameter.name ∨ N name) (declareParameters s ps)
      (declareParameters s' ps) := by
  induction ps generalizing N s s' with
  | nil => exact .pure (hs.mono fun name hname => hname.resolve_left List.not_mem_nil)
  | cons p ps ih =>
    refine (agree_liftM (hs.declare ..)).bind fun _ _ hnext => (ih hnext).mono fun _ _ h => h.mono fun name hname => ?_
    simpa only [List.map_cons, List.mem_cons, or_assoc, or_left_comm] using hname

/-- A function body, as far away as the global variables are that can be named in it. -/
theorem functionBody_moved (hact : D.MovedFunction act act')
    (hglobals : (Scopes.ofGlobals act.definitions.globals).FoundMoved D.distance N (.ofGlobals act.definitions.globals))
    (hfree : ∀ name ∈ d.free, N name)
    (hcalls : ∀ e ∈ bodyExprs d.body, ∀ name args p, Expr.Has (.call name args p) e → D.MovedCall act act' name) :
    D.Agree Eq (functionBody act d) (functionBody act' d) := by
  have hstart : ((Scopes.ofGlobals act.definitions.globals).enterAt (act.returnCell + 1)).Moved D.distance N
      ((Scopes.ofGlobals act.definitions.globals).enterAt (act.returnCell + D.distance + 1)) := by
    rw [Nat.add_right_comm]
    exact ⟨rfl, hglobals⟩
  have hbody : D.MovedIn (fun name => name ∈ d.params.map Parameter.name ∨ N name)
      (fun name => name ∈ d.params.map Parameter.name ∨ N name) (statements act d.body) (statements act' d.body) := by
    refine statements_moved (fun t ht => statement_moved hact t fun e he => hcalls e ?_) fun name hname =>
      mem_or_of_filter hfree hname
    rw [bodyExprs_eq]
    exact List.mem_flatMap.2 ⟨t, ht, he⟩
  rw [functionBody, functionBody, hact.definitions, hact.returnCell, hact.note, hact.note]
  refine (declareParameters_moved hstart).bind fun s s' hs => (hbody s s' hs).bindIn fun code next next' hnext => ?_
  dsimp only
  rw [hnext.claimed]
  exact .pure rfl

/-! ### Expansion -/

variable {definitions : Definitions} {annotate : Bool} {depth : Nat} {chain : List String} {P : FunctionDef → Prop}

/-- Functions that call no others, and that name no global variables but those in `N`. -/
structure Enclosed (definitions : Definitions) (N : String → Prop) (P : FunctionDef → Prop) : Prop where
  free : ∀ d, P d → ∀ name ∈ d.free, N name
  calls : ∀ d, P d → ∀ e ∈ bodyExprs d.body, ∀ name args p, Expr.Has (.call name args p) e →
    ∀ d', definitions.callable? name = some (.defined d') → P d'

/-- A function is expanded to the same code further on. The induction is on the number of functions
that can be expanded inside it; which ones are being expanded is the same at both places. -/
theorem inlineCall_moved
    (hglobals : (Scopes.ofGlobals definitions.globals).FoundMoved D.distance N (.ofGlobals definitions.globals))
    (h : Enclosed definitions N P) (hd : P d) (position : Position) :
    D.MovedAt (inlineCall definitions annotate depth chain d position)
      (inlineCall definitions annotate depth chain d position) := by
  intro q
  induction depth generalizing chain d position q with
  | zero => exact agree_fail
  | succ depth ih =>
    rw [inlineCall, inlineCall]
    split
    · exact agree_fail
    · exact functionBody_moved ⟨rfl, rfl, rfl, rfl⟩ hglobals (h.free d hd) fun e he name args p hcall =>
        ⟨rfl, fun d' hd' position q => ih (h.calls d hd e he name args p hcall d' hd') position q⟩

/-! ### Equal results -/

/-- Places that are that far apart, where the warnings are the same. -/
def apart (distance : Nat) : Displacement := ⟨distance, Eq, fun a h => congrArg (a :: ·) h⟩

theorem eq_of_agree {distance : Nat} {α : Type} {x y : Lower α} (h : (apart distance).Agree Eq x y) : x = y := by
  funext w
  have hw : Concur _ (x w) (y w) := h w w rfl
  generalize x w = r at hw ⊢
  generalize y w = r' at hw ⊢
  match r, r', hw with
  | .ok (_, _), .ok (_, _), ⟨rfl, rfl⟩ => rfl
  | .error _, .error _, rfl => rfl

end Lowering.Displacement

/-! ### Programs -/

namespace Program

open Lowering Displacement

variable {p : Program} {definitions : Definitions}

/-- A function that the expression calls, or that such a function calls in its turn. -/
def CalledFrom (p : Program) (e : Expr) (g : String) : Prop :=
  ∃ f args position, Expr.Has (.call f args position) e ∧ ReflTransGen p.Calls f g

/-- Variables are placed for the global declarations only. -/
theorem exists_of_mem_globals (h : Definitions.ofProgram p = .ok definitions) {v : Variable}
    (hv : v ∈ definitions.globals) : ∃ g ∈ p.globals, g.name = v.name := by
  obtain ⟨structs, -, h⟩ := bind_eq_ok.1 h
  obtain ⟨globals, hglobals, h⟩ := bind_eq_ok.1 h
  obtain ⟨functions, -, h⟩ := bind_eq_ok.1 h
  cases h
  refine foldlM_keeps (P := fun g : Definitions.Globals => ∀ v ∈ g.vars, ∃ d ∈ p.globals, d.name = v.name)
    (fun g d g' hd hg hadd => ?_) (by simp) hglobals v hv
  obtain ⟨type, -, hadd⟩ := bind_eq_ok.1 hadd
  obtain ⟨⟨v, scopes⟩, hdeclare, hadd⟩ := bind_eq_ok.1 hadd
  obtain ⟨_, -, hadd⟩ := bind_eq_ok.1 hadd
  cases hadd
  rw [List.forall_mem_append, List.forall_mem_singleton]
  refine ⟨hg, d, hd, ?_⟩
  rw [Scopes.declare] at hdeclare
  split at hdeclare
  · cases hdeclare
  · cases hdeclare
    rfl

/-- A name of no global variable finds nothing among them, at whatever distance. -/
theorem foundMoved_ofGlobals (h : Definitions.ofProgram p = .ok definitions) (distance : Nat) :
    (Scopes.ofGlobals definitions.globals).FoundMoved distance (fun name => ∀ g ∈ p.globals, g.name ≠ name)
      (.ofGlobals definitions.globals) := by
  intro name hname
  have hnone : (Scopes.ofGlobals definitions.globals).find? name = none := by
    rw [Scopes.find?_ofGlobals, List.find?_eq_none]
    intro v hv
    obtain ⟨g, hg, hv⟩ := exists_of_mem_globals h (List.mem_reverse.1 hv)
    simpa [hv] using hname g hg
  rw [hnone]
  rfl

/-- What an expression calls is enclosed, if no function of it names a global variable. -/
theorem enclosed_calledFrom {e : Expr} (h : Definitions.ofProgram p = .ok definitions)
    (hfree : ∀ d ∈ p.functions, p.CalledFrom e d.name → ∀ g ∈ p.globals, g.name ∉ d.free) :
    Enclosed definitions (fun name => ∀ g ∈ p.globals, g.name ≠ name) fun d =>
      d ∈ p.functions ∧ p.CalledFrom e d.name where
  free d hd name hname g hg := fun hg' => hfree d hd.1 hd.2 g hg (hg' ▸ hname)
  calls d hd e' he' name args position hcall d' hd' := by
    obtain ⟨hmem, f, args', position', hcall', hreach⟩ := hd
    obtain ⟨hmem', rfl⟩ := mem_of_callable? h hd'
    have hcalls : p.Calls d.name d'.name := ⟨⟨d, hmem, rfl, e', he', args, position, hcall⟩, d', hmem', rfl⟩
    exact ⟨hmem', f, args', position', hcall', hreach.tail hcalls⟩

/-- Code does not depend on its place: an expression of literals, operators and calls is lowered to the
same code, or refused for the same fault, with the same warnings, at any two cells and in whatever function,
if the functions that it calls, at once or through others, name no global variable. -/
theorem expr_relocatable {e : Expr} {annotate : Bool} {depth : Nat} {chain : List String} {returns returns' : ReturnKind}
    {r r' q q' : Nat} {s s' : Scopes} (h : Definitions.ofProgram p = .ok definitions) (he : e.accessed = [])
    (hfree : ∀ d ∈ p.functions, p.CalledFrom e d.name → ∀ g ∈ p.globals, g.name ∉ d.free) :
    expr ⟨definitions, annotate, returns, r, inlineCall definitions annotate depth chain⟩ s e q =
      expr ⟨definitions, annotate, returns', r', inlineCall definitions annotate depth chain⟩ s' e q' := by
  wlog hle : q ≤ q' generalizing q q' r r' returns returns' s s'
  · exact (this (Nat.le_of_not_le hle)).symm
  obtain ⟨n, rfl⟩ := Nat.exists_eq_add_of_le hle
  have hcalls : (apart n).Known ⟨definitions, annotate, returns, r, inlineCall definitions annotate depth chain⟩
      ⟨definitions, annotate, returns', r', inlineCall definitions annotate depth chain⟩ (fun _ => False) e := by
    refine ⟨fun name path position hhas => ?_, fun name args position hcall => ⟨rfl, fun d hd position => ?_⟩⟩
    · exact List.not_mem_nil (he ▸ Expr.mem_accessed hhas)
    · obtain ⟨hmem, rfl⟩ := mem_of_callable? h hd
      have hcalled : p.CalledFrom e d.name := ⟨d.name, _, _, hcall, .refl⟩
      exact inlineCall_moved (foundMoved_ofGlobals h n) (enclosed_calledFrom h hfree) ⟨hmem, hcalled⟩ position
  exact eq_of_agree (expr_moved (fun _ => False.elim) e hcalls q)

/-- A function whose parameter hides the global variable, one where a variable of its own does, and
`main`, which assigns the global one. -/
def shadows : Program where
  globals := [⟨.int, "g", [], none, .start⟩]
  functions := [⟨.void, "main", [], [.expr (.assign g none (.number 1 .start) .start)], .start⟩,
    ⟨.int, "outer", [⟨"g", .start⟩], [.returns (some (.call "inner" [g] .start)) .start], .start⟩,
    ⟨.int, "inner", [⟨"x", .start⟩], [.declare ⟨.int, "g", [], some (.single (.access "x" [] .start)), .start⟩,
      .returns (some g) .start], .start⟩]
where
  g : Expr := .access "g" [] .start

/-- A call that does not lead to `main`. -/
def outerOfSeven : Expr := .call "outer" [.number 7 .start] .start

theorem not_calledFrom_main : ¬ shadows.CalledFrom outerOfSeven "main" := by
  have hcalls : ∀ e ∈ outerOfSeven :: shadows.functions.flatMap fun d => bodyExprs d.body,
      ∀ args position, ¬ Expr.Has (.call "main" args position) e := by
    simp only [← Expr.mem_nodes]
    simp [shadows, shadows.g, outerOfSeven, bodyExprs, Statement.exprs, Declaration.exprs, Initializer.leaves, Expr.nodes,
      argsNodes, pathNodes]
  rintro ⟨f, args, position, hcall, hreach⟩
  obtain rfl | ⟨g, -, ⟨d, hd, -, e, he, args, position, hcall⟩, -⟩ := hreach.cases_tail
  · exact hcalls _ List.mem_cons_self _ _ hcall
  · exact hcalls e (List.mem_cons_of_mem _ (List.mem_flatMap.2 ⟨d, hd, he⟩)) _ _ hcall

theorem expr_relocatable_of_shadows :
    ∃ definitions, Definitions.ofProgram shadows = .ok definitions ∧ outerOfSeven.accessed = [] ∧
      (∀ d ∈ shadows.functions, shadows.CalledFrom outerOfSeven d.name → ∀ g ∈ shadows.globals, g.name ∉ d.free) ∧
      (expr (outermost definitions false 1) .empty outerOfSeven 1 []).toBool = true ∧
      expr (outermost definitions false 1) .empty outerOfSeven 1 =
        expr (outermost definitions false 5) (Scopes.empty.reserve 9) outerOfSeven 9 := by
  have hfree : ∀ d ∈ shadows.functions, shadows.CalledFrom outerOfSeven d.name →
      ∀ g ∈ shadows.globals, g.name ∉ d.free := by
    intro d hd hcalled
    simp only [shadows, List.mem_cons, List.not_mem_nil, or_false] at hd
    obtain rfl | rfl | rfl := hd
    · exact absurd hcalled not_calledFrom_main
    · decide
    · decide
  exact ⟨_, rfl, rfl, hfree, rfl, expr_relocatable rfl rfl hfree⟩

end Program
end TapeC
