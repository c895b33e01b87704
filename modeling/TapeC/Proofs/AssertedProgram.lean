import TapeC.Proofs.AssertedStatement
import TapeC.Proofs.Reading

/-! Programs whose lowering passes its assertions. A function is expanded behind the global
variables, where its parameters are declared. No program fails an assertion but those about walks,
and those hold as well if no array has length zero, as in all programs that are read. -/

namespace TapeC.Lowering

open Layout Program Tape Routine Code

variable {A : Assertions} {act : Activation} {inline : FunctionDef → Position → CodeAt} {scopes scopes' : Scopes}
  {definitions : Definitions} {annotate : Bool}

/-! ### Functions -/

theorem cell_solid : Shape.cell.Solid := ⟨nofun, .int⟩

theorem declareParameters_safe {params : List Parameter} (hs : Safe A act scopes)
    (h : Lowers (declareParameters scopes params) scopes') : Safe A act scopes' ∧ Follows scopes scopes' := by
  induction params generalizing scopes with
  | nil =>
    cases lowers_pure.1 h
    exact ⟨hs, .refl⟩
  | cons q params ih =>
    obtain ⟨⟨v, next⟩, hdeclare, h⟩ := h.bind
    have hv := lowers_lift.1 hdeclare
    obtain ⟨hs', hfollows⟩ := ih (hs.declare .int (fun _ => cell_solid) hv) h
    exact ⟨hs', (Follows.declare hv).trans hfollows⟩

theorem outerScopes_safe (h : Prepared act.definitions act.returnCell) (hsolid : A.Walks → act.definitions.Solid) :
    Safe A act (outerScopes act) :=
  ⟨outerScopes_settled h, hsolid, fun hw _ v hv => (hsolid hw).globals v (Scopes.mem_of_find?_ofGlobals hv)⟩

/-- The global variables end left of where a function is expanded. -/
theorem ofGlobals_offset_le {p : Nat} (h : Prepared definitions p) :
    (Scopes.ofGlobals definitions.globals).offset ≤ p := by
  have hmax (ns : List Nat) (m : Nat) (hm : m ≤ p) (hns : ∀ n ∈ ns, n ≤ p) : ns.foldl max m ≤ p := by
    induction ns generalizing m with
    | nil => exact hm
    | cons n ns ih =>
      obtain ⟨hn, hns⟩ := List.forall_mem_cons.1 hns
      exact ih (max m n) (Nat.max_le.2 ⟨hm, hn⟩) hns
  refine hmax _ 0 (Nat.zero_le _) fun n hn => ?_
  obtain ⟨v, hv, rfl⟩ := List.mem_map.1 hn
  exact h.fits.below v (List.mem_reverse.2 hv)

theorem functionBody_asserted {d : FunctionDef} (h : Prepared act.definitions act.returnCell)
    (hsolid : A.Walks → act.definitions.Solid) (hcalls : SameCalls act inline) (hd : d ∈ act.definitions.functions) :
    Asserted.functionBody A { act with inline } d = functionBody act d := by
  have hbody : Passes A act (Asserted.statements A { act with inline } d.body) (statements act d.body) :=
    statements_passes fun s hs => statement_passes hcalls fun hw => (hsolid hw).functions d hd s hs
  have henter : A.enterAt (Scopes.ofGlobals act.definitions.globals) (act.returnCell + 1) = pure (outerScopes act) := by
    have hle := Nat.le_succ_of_le (ofGlobals_offset_le h)
    rw [Assertions.enterAt, Assertions.check_of hle, pure_bind]
    rfl
  simp only [Asserted.functionBody, functionBody, henter, pure_bind]
  refine bind_congr_of_lowers fun inner hinner => ?_
  obtain ⟨hs, hfollows⟩ := declareParameters_safe (outerScopes_safe h hsolid) hinner
  obtain ⟨heq, hnext⟩ := hbody inner hs
  rw [heq]
  refine bind_congr_of_lowers fun r hlast => ?_
  obtain ⟨hs', hfollows'⟩ := hnext r.1 r.2 hlast
  have hexit : r.2.exit.1 = r.2.claimed := by
    rw [Scopes.exit, (hfollows.trans hfollows').outer]
    rfl
  simp only [exit_of hs', pure_bind, hexit]
  rfl

/-- A call is expanded alike behind the global variables. -/
theorem inlineCall_asserted (hsolid : A.Walks → definitions.Solid) {depth : Nat} {active : List String}
    {d : FunctionDef} (hd : d ∈ definitions.functions) {position : Position} {p : Nat} (h : Prepared definitions p) :
    Asserted.inlineCall A definitions annotate depth active d position p =
      inlineCall definitions annotate depth active d position p := by
  induction depth generalizing active d position p with
  | zero => rfl
  | succ depth ih =>
    let act : Activation :=
      ⟨definitions, annotate, d.returns, p, inlineCall definitions annotate depth (d.name :: active)⟩
    have hcalls : SameCalls act (Asserted.inlineCall A definitions annotate depth (d.name :: active)) :=
      fun _ hd _ _ h => ih hd h
    have hbody : Asserted.functionBody A { act with inline := _ } d = functionBody act d :=
      functionBody_asserted h hsolid hcalls hd
    rw [Asserted.inlineCall, inlineCall]
    exact if_congr Iff.rfl rfl hbody

/-! ### Programs -/

theorem callMain_asserted (hsolid : A.Walks → definitions.Solid) (h : Prepared definitions definitions.globalsSize) :
    Asserted.callMain A definitions annotate = callMain definitions annotate := by
  have hcalls : SameCalls (outermost definitions annotate definitions.globalsSize)
      (Asserted.inlineCall A definitions annotate definitions.functions.length []) :=
    fun _ hd _ _ h => inlineCall_asserted hsolid hd h
  rw [Asserted.callMain, callMain]
  cases definitions.functions.find? (·.name == "main") with
  | none => rfl
  | some main =>
    refine if_congr Iff.rfl ?_ rfl
    have hnone : ∀ e ∈ ([] : List Expr), AgreeFrom definitions.globalsSize (constant 0) (constant 0) :=
      List.forall_mem_nil _
    exact call_asserted hcalls h hnone _ (Nat.le_refl _)

theorem compile_asserted {options : Options} {p : Program} (h : A.Walks → p.Solid) :
    Asserted.compile A options p = p.compile options := by
  have hlower {p : Program} (h : A.Walks → p.Solid) :
      Asserted.lower A options.annotate p = p.lower options.annotate := by
    rw [Asserted.lower, Program.lower]
    cases hdefinitions : Definitions.ofProgram p with
    | error fault => rfl
    | ok definitions =>
      obtain ⟨_, _, -, -, -, hprepared, -⟩ := ofProgram_runs [] hdefinitions
      have hmain : Asserted.callMain A definitions options.annotate = callMain definitions options.annotate :=
        callMain_asserted (fun hw => Definitions.ofProgram_solid (h hw) hdefinitions) hprepared
      change (Asserted.callMain A definitions options.annotate).run [] >>= _ = _
      rw [hmain]
      rfl
  have hsolid (hw : A.Walks) : (if options.optimize then p.optimize 2 else p).Solid := by
    split
    · exact (h hw).optimize 2
    · exact h hw
  rw [Asserted.compile, Program.compile]
  exact congrArg (· >>= _) (hlower hsolid)

/-- Whatever assertions are tested, a program is compiled as if none was: each expression is
lowered at a free cell, right of the returned value and of the variables that have a name, no
distance is taken to a cell right of the head, and scopes give back what they took. The assertions
about walks ask for a program in which no array has length zero, as is any that is read. -/
theorem compile_keeps_assertions (A : Assertions) (options : Options) :
    (∀ p : Program, (A.Walks → p.Solid) → Asserted.compile A options p = p.compile options) ∧
      ∀ ts p, Grammar.program ts = .ok p → Asserted.compile A options p = p.compile options :=
  ⟨fun _ h => compile_asserted h, fun _ _ h => compile_asserted fun _ => (Grammar.written_program h).solid⟩

/-- An assignment to an element of an array of eight columns, in a row known at run time only. The
stored value is printed. -/
def storing (rows column : Nat) : Program :=
  let i : Declaration := ⟨.int, "i", [], some (.single (.number 0 .start)), .start⟩
  let a : Declaration := ⟨.int, "a", [rows, 8], none, .start⟩
  let target : Expr := .access "a" [.index (.access "i" [] .start), .index (.number column .start)] .start
  let print : Expr := .call "printint" [.assign target none (.number 7 .start) .start] .start
  { functions := [⟨.void, "main", [], [.declare i, .declare a, .expr print], .start⟩] }

theorem storing_solid {rows column : Nat} (h : 0 < rows) : (storing rows column).Solid := by
  refine ⟨nofun, nofun, fun f hf s hs d hd n hn => ?_⟩
  cases List.mem_singleton.1 hf
  have hown : s.parts = [] ∧ ∀ d, s = .declare d → ∀ n ∈ d.dims, 0 < n := by
    rcases List.mem_cons.1 hs with rfl | hs
    · exact ⟨rfl, by rintro _ ⟨⟩; nofun⟩
    rcases List.mem_cons.1 hs with rfl | hs
    · exact ⟨rfl, by rintro _ ⟨⟩; simpa using h⟩
    · cases List.mem_singleton.1 hs
      exact ⟨rfl, nofun⟩
  cases hd with
  | self => exact hown.2 d rfl n hn
  | part ht => rw [hown.1] at ht; cases ht

/-- A global array and a function that reads the array at its own first element. -/
def reading : List Token :=
  Token.ofKinds [.keyword .int, .identifier "a", .symbol .leftBracket, .number 2, .symbol .rightBracket,
    .symbol .semicolon, .keyword .void, .identifier "main", .symbol .leftParen, .symbol .rightParen,
    .symbol .leftBrace, .identifier "a", .symbol .leftBracket, .identifier "a", .symbol .leftBracket, .number 0,
    .symbol .rightBracket, .symbol .rightBracket, .symbol .semicolon, .symbol .rightBrace]

theorem storing_keeps_assertions :
    let A : Assertions := fun _ => some (.unsupported .start .continue)
    Asserted.compile A {} (storing 2 5) = (storing 2 5).compile {} ∧ ((storing 2 5).compile {}).isOk ∧
      ∃ p, Grammar.program reading = .ok p ∧ Asserted.compile A {} p = p.compile {} ∧ (p.compile {}).isOk := by
  intro A
  refine ⟨(compile_keeps_assertions A {}).1 _ fun _ => storing_solid (by decide), by decide +kernel, ?_⟩
  let first : Expr := .access "a" [.index (.number 0 .start)] .start
  let p : Program :=
    { globals := [⟨.int, "a", [2], none, .start⟩]
      functions := [⟨.void, "main", [], [.expr (.access "a" [.index first] .start)], .start⟩] }
  have hread : Grammar.program reading = .ok p := by cbv
  exact ⟨p, hread, (compile_keeps_assertions A {}).2 _ p hread, by decide +kernel⟩

/-- Tests one assertion. -/
def Assertions.only (a : Assertion) (fault : CompileFault) : Assertions := fun b => if a = b then some fault else none

/-- In an array without rows a walk leads on from a place behind it. That place is right of the cell
at which the assignment is lowered, or even of the head behind the walk. -/
theorem storing_fails_assertions :
    let fault : CompileFault := .unsupported .start .continue
    ((storing 0 2).compile {}).isOk ∧ Asserted.compile (.only .walk fault) {} (storing 0 2) = .error fault ∧
      ((storing 0 5).compile {}).isOk ∧ Asserted.compile (.only .walked fault) {} (storing 0 5) = .error fault := by
  refine ⟨by decide +kernel, by rfl, by decide +kernel, by rfl⟩

end TapeC.Lowering
