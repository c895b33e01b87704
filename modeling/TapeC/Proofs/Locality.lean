import TapeC.Proofs.ConfinedStatement
import TapeC.Proofs.Program

/-! Locality of generated code. On a tape on which all runtime indices are in bounds, code ends
with the head where lowering counts on it, and of the cells that were taken before it changes
none but those of variables that it assigns, of global variables that a called function assigns,
and of the returned value, if it sets that. -/

namespace TapeC.Lowering

open Layout Program Tape Routine Code Config

variable {bounded : Bool} {act : Activation} {scopes scopes' : Scopes} {V : Nat → Prop} {f p q : Nat} {c : Code}

/-! ### Functions -/

theorem declareParameters_settled {params : List Parameter} (hs : Settled act scopes)
    (h : Lowers (declareParameters scopes params) scopes') :
    Settled act scopes' ∧ After scopes (params.map Parameter.name) scopes' ∧
      scopes'.offset = scopes.offset + params.length := by
  induction params generalizing scopes with
  | nil =>
    cases lowers_pure.1 h
    exact ⟨hs, .refl, rfl⟩
  | cons q params ih =>
    obtain ⟨⟨v, next⟩, hdeclare, h⟩ := h.bind
    obtain ⟨hnext, hafter, hoffset⟩ := hs.declare .int (lowers_lift.1 hdeclare)
    obtain ⟨hs', hafter', hoffset'⟩ := ih hnext h
    refine ⟨hs', hafter.trans hafter', ?_⟩
    rw [hoffset', hoffset, List.length_cons, Nat.add_assoc, Nat.add_comm params.length]
    rfl

/-- The scopes in front of the parameters of a function. -/
def outerScopes (act : Activation) : Scopes :=
  (Scopes.ofGlobals act.definitions.globals).enterAt (act.returnCell + 1)

theorem outerScopes_settled (h : Prepared act.definitions act.returnCell) : Settled act (outerScopes act) where
  below _ v hv := Nat.le_succ_of_le (h.fits.below v (List.mem_reverse.2 (Scopes.mem_of_find?_ofGlobals hv)))
  types _ v hv := h.types v (Scopes.mem_of_find?_ofGlobals hv)
  start := Nat.le_refl _
  returned := Nat.lt_succ_self _
  prepared := h.mono (Nat.le_succ _)

/-- What the body of a function may change left of its cells. -/
theorem touches_of_writable {d : FunctionDef} {x : Nat}
    (h : After (outerScopes act) (d.params.map Parameter.name) scopes)
    (hlt : x < act.returnCell) (hx : Writable act scopes (bodyDoes d.body) x) : act.definitions.Touches d x := by
  obtain ⟨effect, hdoes, hon⟩ := h.writable (Nat.lt_succ_of_lt hlt) hx
  cases effect with
  | assigns name =>
    obtain ⟨v, hv, hx⟩ := hon
    exact .assigns hdoes hv hx
  | calls name =>
    obtain ⟨e, he, hx⟩ := hon
    exact .calls hdoes he hx
  | returns => exact absurd hon (Nat.ne_of_lt hlt)

/-- The body of a function ends where it starts and changes nothing left of that but global
variables. -/
theorem functionBody_confined {d : FunctionDef} (h : Prepared act.definitions act.returnCell)
    (hact : Contained bounded act) (hc : Lowers (functionBody act d) c) :
    Confined bounded (act.definitions.Touches d) act.returnCell act.returnCell act.returnCell c := by
  obtain ⟨inner, hparams, hc⟩ := hc.bind
  obtain ⟨⟨body, last⟩, hbody, hc⟩ := hc.bind
  cases lowers_pure.1 hc
  obtain ⟨hinner, hafter, hoffset⟩ := declareParameters_settled (outerScopes_settled h) hparams
  obtain ⟨-, hafter', hconfined⟩ := statements_keeps (fun s _ => statement_keeps hact s) inner body last hinner hbody
  have hp := Nat.le_refl act.returnCell
  have hstart : (outerScopes act).offset = act.returnCell + 1 := rfl
  obtain ⟨n, hn⟩ := Nat.exists_eq_add_of_le (Nat.le_trans hafter.offset hafter'.offset)
  rw [hstart] at hoffset hn
  have hclaimed : last.claimed = n := by
    rw [Scopes.claimed, Scope.claimed, hafter'.start, hafter.start, show last.inner.next = _ from hn]
    exact Nat.add_sub_cancel_left _ _
  have hbody : Confined bounded (act.definitions.Touches d) act.returnCell (act.returnCell + (1 + d.params.length))
      (act.returnCell + (1 + n)) body := by
    rw [← Nat.add_assoc, ← Nat.add_assoc, ← hoffset, ← hn]
    exact hconfined.mono (by omega) fun x hlt hx => touches_of_writable hafter hlt hx
  rw [hclaimed]
  have hnote {text : String} : (act.note text).track 0 = some 0 := note_track
  have hfront : (act.note ("call " ++ d.name) ++ right (1 + d.params.length)).track 0 = some (1 + d.params.length) :=
    track_seq hnote (by rw [track_right, Nat.zero_add])
  have hback : (left n).track (1 + n) = some 1 := track_left_add
  exact ((((Confined.track act.returnCell (i := 0) hfront).append hbody).follow hback hp).follow (j := 0) rfl hp).follow
    hnote hp

/-- Calls that are expanded inside each other only change global variables. -/
theorem inlineCall_confined {definitions : Definitions} {annotate : Bool} {depth : Nat} {active : List String}
    {d : FunctionDef} {position : Position} (h : Prepared definitions p)
    (hc : Lowers (inlineCall definitions annotate depth active d position p) c) :
    Confined bounded (definitions.Touches d) p p p c := by
  induction depth generalizing active d position p c with
  | zero => exact absurd hc not_lowers_fail
  | succ depth ih =>
    rw [inlineCall] at hc
    split at hc
    · exact absurd hc not_lowers_fail
    · let act : Activation :=
        ⟨definitions, annotate, d.returns, p, inlineCall definitions annotate depth (d.name :: active)⟩
      have hact : Contained bounded act := fun _ _ _ _ hq hcall => ih hq hcall
      exact functionBody_confined h hact hc

/-! ### States of lowering -/

/-- The code of calls in the functions of a program, wherever they are expanded. -/
structure Expanded (act : Activation) : Prop where
  definitions : ∃ p, Definitions.ofProgram p = .ok act.definitions
  globals : act.definitions.globalsSize ≤ act.returnCell
  inline : ∃ annotate depth active, act.inline = inlineCall act.definitions annotate depth active

/-- The scopes that lowering comes to in the code of a function: behind its parameters, behind
each statement, inside a scope and behind cells without a name. -/
inductive Visited (act : Activation) : Scopes → Prop where
  | parameters {params : List Parameter} {scopes : Scopes}
      (h : Lowers (declareParameters (outerScopes act) params) scopes) : Visited act scopes
  | statement {t : Statement} {scopes scopes' : Scopes} {c : Code} (h : Visited act scopes)
      (hc : Lowers (statement act t scopes) (c, scopes')) : Visited act scopes'
  | enter {scopes : Scopes} (h : Visited act scopes) : Visited act scopes.enter
  | reserve {scopes : Scopes} (h : Visited act scopes) (n : Nat) : Visited act (scopes.reserve n)

namespace Expanded

theorem globals_prepared (h : Expanded act) : Prepared act.definitions act.definitions.globalsSize := by
  obtain ⟨p, hp⟩ := h.definitions
  obtain ⟨-, -, -, -, -, hprepared, -⟩ := ofProgram_runs [] hp
  exact hprepared

theorem prepared (h : Expanded act) : Prepared act.definitions act.returnCell := h.globals_prepared.mono h.globals

theorem contained (h : Expanded act) : Contained bounded act := by
  obtain ⟨annotate, depth, active, hinline⟩ := h.inline
  intro d position q c hq hc
  rw [hinline] at hc
  exact inlineCall_confined hq hc

theorem settled (h : Expanded act) (hs : Visited act scopes) : Settled act scopes := by
  induction hs with
  | parameters hparams => exact (declareParameters_settled (outerScopes_settled h.prepared) hparams).1
  | statement _ hc ih =>
    have hact : Contained true act := h.contained
    exact (statement_keeps hact _ _ _ _ ih hc).1
  | enter _ ih => exact ih.enter
  | reserve _ n ih => exact ih.reserve n

end Expanded

/-! ### Runs of fragments -/

/-- On the machine, from any tape on which all runtime indices are in bounds, the code halts
with the head on `q` if it starts with the head on `p`, or not at all. Of the cells left of `p`
it changes none but those in `V`. -/
def Local (c : Code) (p q : Nat) (V : Nat → Prop) : Prop :=
  ∃ m, Machine.ofString c.text = .ok m ∧ ∀ s : State, s.pc = 0 → s.head = p → p < s.tape.size →
    ¬ (c.checked true s.config).Ends (.error .outside) → ∀ limit budget t, m.runFrom limit budget s = .ok t →
      t.head = q ∧ ∀ x < p, ¬ V x → t.tape.getD x 0 = s.tape.getD x 0

theorem Confined.local (h : Confined true V p p q c) : Local c p q V := by
  obtain ⟨m, hm, hexecutes⟩ := Machine.ofString_text c
  refine ⟨m, hm, fun s hpc hhead hsize hinside limit budget t ht => ?_⟩
  obtain ⟨hstray, hok⟩ := h.exec (s := s.config) hhead fun b hb => by
    cases b with
    | outside => exact hinside
    | left => exact hb.elim
    | occupied => cases hb
  -- the same run after the head has been on the first cell
  have hs : State.Sound 0 { s with lowest := 0 } := ⟨by rwa [← hhead] at hsize, rfl, Nat.zero_le _⟩
  obtain ⟨hends, hnever⟩ := hexecutes 0 _ hs hpc hstray
  obtain ⟨k, ht⟩ := Machine.runFrom_lowest ht 0
  by_cases hhalts : ∃ u, (c.exec 0 s.config).Ends (.ok u)
  · obtain ⟨u, hu⟩ := hhalts
    obtain ⟨n, t', rfl, -, hrun, hshort⟩ := hends u hu
    by_cases hn : n ≤ budget
    · rw [hrun limit budget hn] at ht
      cases ht
      exact ⟨(hok _ hu).1, (hok _ hu).2 rfl⟩
    · obtain ⟨_, hfault⟩ := hshort limit budget (by omega)
      rw [hfault] at ht
      cases ht
  · obtain ⟨_, hfault⟩ := hnever (fun r hr => by
      cases r with
      | ok u => exact hhalts ⟨u, hr⟩
      | error e => exact hstray e hr) limit budget
    rw [hfault] at ht
    cases ht

/-- Code of expressions, statements and called functions is local, wherever they stand in the
functions of a program. An expression at `p` leads one cell on and a statement to the first cell
that is free after it, and both change only variables that they assign, global variables that
called functions assign, and the returned value if they return one. A called function leads back
to where it is expanded and changes only global variables that it assigns, itself or through other
functions; so it changes no variable of its caller and no cell that guards an arm of it. -/
theorem lowered_local (hact : Expanded act) (hs : Visited act scopes) :
    (∀ e p c, scopes.offset ≤ p → Lowers (expr act scopes e p) c →
      Local c p (p + 1) (Writable act scopes e.Does)) ∧
    (∀ t c scopes', Lowers (statement act t scopes) (c, scopes') →
      Local c scopes.offset scopes'.offset (Writable act scopes t.Does)) ∧
    ∀ d position p c, scopes.offset ≤ p → Lowers (act.inline d position p) c →
      Local c p p (act.definitions.Touches d) ∧
        ∀ x, act.definitions.Touches d x → x < act.definitions.globalsSize := by
  have hsettled := hact.settled hs
  refine ⟨fun e p c hp hc => ?_, fun t c scopes' hc => ?_, fun d position p c hp hc => ⟨?_, fun x hx => ?_⟩⟩
  · exact Confined.local (expr_confined hsettled hact.contained e p hp c hc)
  · exact Confined.local (statement_keeps hact.contained t scopes c scopes' hsettled hc).2.2
  · exact Confined.local (hact.contained d position p c (hsettled.prepared.mono hp) hc)
  · obtain ⟨v, hv, -, hlt⟩ := hx.covered
    exact Nat.lt_of_lt_of_le hlt (hact.globals_prepared.fits.below v (List.mem_reverse.2 hv))

theorem exists_lowers {α : Type} {x : Lower α} (h : (x.run []).isOk = true) : ∃ a, Lowers x a := by
  cases hx : x.run [] with
  | error fault => rw [hx] at h; cases h
  | ok r => exact ⟨r.1, [], r.2, hx⟩

/-- The call of a function that sets a global variable, expanded behind a variable of its caller,
may change the cell of the global variable and no other cell in front of it. -/
theorem lowered_local_of_setter :
    let g : Declaration := ⟨.int, "g", [], none, .start⟩
    let f : FunctionDef :=
      ⟨.void, "f", [], [.expr (.assign (.access "g" [] .start) none (.number 1 .start) .start)], .start⟩
    ∃ definitions scopes c, Definitions.ofProgram { globals := [g], functions := [f] } = .ok definitions ∧
      let act := outermost definitions false 1
      Lowers (declareParameters (outerScopes act) [⟨"x", .start⟩]) scopes ∧ Lowers (act.inline f .start 3) c ∧
      Local c 3 3 (definitions.Touches f) ∧ ∀ x, definitions.Touches f x → x < 1 := by
  intro g f
  let definitions : Definitions :=
    { globals := [⟨"g", .cell, 0⟩], globalsSize := 1, globalCode := .skip ++ right 1, functions := [f] }
  have hdefinitions : Definitions.ofProgram { globals := [g], functions := [f] } = .ok definitions := rfl
  obtain ⟨scopes, hscopes⟩ : ∃ scopes,
      Lowers (declareParameters (outerScopes (outermost definitions false 1)) [⟨"x", .start⟩]) scopes :=
    exists_lowers (by decide +kernel)
  obtain ⟨c, hc⟩ : ∃ c, Lowers ((outermost definitions false 1).inline f .start 3) c :=
    exists_lowers (by decide +kernel)
  have hexpanded : Expanded (outermost definitions false 1) := ⟨⟨_, hdefinitions⟩, Nat.le_refl 1, false, 1, [], rfl⟩
  have hoffset : scopes.offset = 3 := (declareParameters_settled (outerScopes_settled hexpanded.prepared) hscopes).2.2
  refine ⟨definitions, scopes, c, hdefinitions, hscopes, hc, ?_⟩
  exact (lowered_local hexpanded (.parameters hscopes)).2.2 f .start 3 c (Nat.le_of_eq hoffset) hc

end TapeC.Lowering
