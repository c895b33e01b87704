import TapeC.Lowering.Call
import TapeC.Proofs.Statement

/-! The code of functions. A body finds its arguments where its parameters are declared, and
leaves what it gives back in the cell of the returned value. Calls are expanded in place, so
that what is shown of a body is shown of all calls by induction on how many can be inside each
other. -/

namespace TapeC.Lowering

open Layout Program Tape Routine Code Config Comp Evaluation

variable {act : Activation} {ctx : Context} {F : Frame} {scopes scopes' : Scopes} {p : Nat} {c : Code}

/-! ### Parameters -/

theorem parameters_cons {q : Parameter} {qs : List Parameter} {v : Cell} {vs : List Cell} :
    parameters (q :: qs) (v :: vs) = parameters qs vs ++ [⟨q.name, .cell, [some v]⟩] := by
  simp [parameters]

/-- Declared parameters stand for the arguments that the tape holds. -/
theorem declareParameters_inside {params : List Parameter} {args : List Cell} {s : Config} {σ : Store}
    (hF : Inside act ctx scopes F) (h : Lowers (declareParameters scopes params) scopes')
    (hlen : args.length = params.length) (hargs : ∀ i v, args[i]? = some v → s.cells (scopes.offset + i) = v)
    (hσ : F.Holds s σ) :
    ∃ F', Inside act ctx scopes' F' ∧ Grows F scopes.offset F' ∧
      scopes'.offset = scopes.offset + params.length ∧ scopes'.inner.start = scopes.inner.start ∧
      F'.Holds s { σ with locals := parameters params args ++ σ.locals } := by
  induction params generalizing args scopes F σ with
  | nil =>
    cases lowers_pure.1 h
    exact ⟨F, hF, .refl, rfl, rfl, hσ⟩
  | cons q params ih =>
    obtain ⟨v, args, rfl⟩ := List.exists_cons_of_length_eq_add_one hlen
    obtain ⟨⟨u, next⟩, hdeclare, h⟩ := h.bind
    obtain ⟨rfl, hnext, hoffset, hstart⟩ := hF.declare .int (lowers_lift.1 hdeclare)
    have hoffset : next.offset = scopes.offset + 1 := hoffset
    have hu : Represents s ⟨q.name, .cell, scopes.offset⟩ ⟨q.name, .cell, [some v]⟩ := by
      refine ⟨rfl, rfl, rfl, fun i w hi => ?_⟩
      cases i with
      | zero =>
        cases hi
        exact hargs 0 v rfl
      | succ i => cases hi
    have hrest : ∀ i w, args[i]? = some w → s.cells (next.offset + i) = w := by
      intro i w hi
      rw [hoffset, Nat.add_assoc, Nat.add_comm 1 i]
      exact hargs (i + 1) w hi
    obtain ⟨F', hF', hgrows, hend, hstart', hholds⟩ :=
      ih hnext h (Nat.succ.inj hlen) hrest (hσ.declare hu)
    have hdeclared : Grows F scopes.offset (F.declare ⟨q.name, .cell, scopes.offset⟩) :=
      grows_declare (Nat.le_refl _)
    refine ⟨F', hF', hdeclared.trans hgrows (by omega), ?_, hstart'.trans hstart, ?_⟩
    · rw [hend, hoffset, List.length_cons]
      omega
    · rw [parameters_cons, List.append_assoc]
      exact hholds

/-! ### Bodies -/

/-- The global variables, as a function sees them. -/
def globalFrame (definitions : Definitions) : Frame := ⟨[], definitions.globals.reverse, none⟩

/-- Global variables that lie left of `p` and do not overlap. -/
structure Prepared (definitions : Definitions) (p : Nat) : Prop where
  fits : (globalFrame definitions).Fits p
  types : ∀ v ∈ definitions.globals, v.shape.type.Sound
  structs : ∀ s ∈ definitions.structs, s.type.Sound

theorem Prepared.mono {definitions : Definitions} {q : Nat} (h : Prepared definitions p) (hpq : p ≤ q) :
    Prepared definitions q :=
  ⟨h.fits.mono hpq, h.types, h.structs⟩

/-- Before its parameters are declared, a function sees the global variables. -/
theorem Prepared.inside (h : Prepared act.definitions act.returnCell)
    (hact : Serves (globalFrame act.definitions) (act.returnCell + 1) act ctx) :
    Inside act ctx ((Scopes.ofGlobals act.definitions.globals).enterAt (act.returnCell + 1))
      ⟨[], act.definitions.globals.reverse, some act.returnCell⟩ where
  vars := List.append_nil _
  fits :=
    { stacked := h.fits.stacked
      below v hv := Nat.le_succ_of_le (h.fits.below v hv)
      returned r hr := by
        cases hr
        exact ⟨Nat.lt_succ_self _, fun v hv => .inl (h.fits.below v hv)⟩ }
  types v hv := h.types v (List.mem_reverse.1 hv)
  start := Nat.le_refl _
  structs := h.structs
  serves := hact
  returned := rfl

theorem runs_note_of_activation {floor : Nat} {text : String} {s : Config} : Runs floor (act.note text) s s := by
  rw [Activation.note]
  split
  · exact runs_note.2 rfl
  · exact runs_skip.2 rfl

theorem invoke_run {definitions : Definitions} {depth : Nat} {d : FunctionDef} {args : List Cell} {σ : Store} :
    (invoke definitions (depth + 1) d args).run σ =
      (Evaluation.statements ⟨definitions, invoke definitions depth⟩ d.body).run
        { σ with locals := parameters d.params args, returned := 0 } >>= fun r =>
          pure (r.2.returned, { r.2 with locals := σ.locals, returned := σ.returned }) :=
  rfl

/-- The head goes back over what a body declares, and from there to the cell of its value. -/
theorem runs_wayBack {t : Config} (name : String) (hstart : scopes.inner.start = act.returnCell + 1)
    (hle : act.returnCell + 1 ≤ scopes.offset) (ht : t.head = scopes.offset) :
    Runs 0 (left scopes.claimed ++ (left 1 ++ act.note ("end " ++ name))) t (t.goto act.returnCell) := by
  have hclaimed : scopes.claimed = scopes.offset - (act.returnCell + 1) := by
    rw [← hstart]
    rfl
  have hhead : t.head - scopes.claimed = act.returnCell + 1 := by omega
  refine .append ((runs_left (by omega)).2 rfl) (.append ((runs_left ?_).2 rfl) ?_)
  · rw [head_goto, hhead]
    omega
  · rw [head_goto, hhead]
    exact runs_note_of_activation

/-- The code of a body, with the head back on the cell of its value. -/
theorem functionBody_returns {d : FunctionDef} {args : List Cell} {depth : Nat}
    (h : Prepared act.definitions act.returnCell)
    (hact : Serves (globalFrame act.definitions) (act.returnCell + 1) act
      ⟨act.definitions, invoke act.definitions depth⟩)
    (hc : Lowers (functionBody act d) c) (hlen : args.length = d.params.length) :
    Returns (globalFrame act.definitions) act.returnCell c args
      (invoke act.definitions (depth + 1) d args) := by
  intro s σ hs h0 hargs hσ
  obtain ⟨scopes, hparams, hc⟩ := hc.bind
  obtain ⟨⟨body, scopes'⟩, hbody, hc⟩ := hc.bind
  cases lowers_pure.1 hc
  let inner : Store := { σ with locals := [], returned := 0 }
  have hinner : (⟨[], act.definitions.globals.reverse, some act.returnCell⟩ : Frame).Holds s inner :=
    ⟨.nil, hσ.globals, fun r hr => by (cases hr; exact h0), hσ.input, hσ.output⟩
  obtain ⟨F, hF, hgrows, hoffset, hstart, hholds⟩ :=
    declareParameters_inside (h.inside hact) hparams hlen hargs hinner
  obtain ⟨F', hF', hgrows', hle, hstart', hperforms⟩ :=
    statements_executes (fun s _ => statement_executes s) F scopes body scopes' hF hbody
  have hoffset : scopes.offset = act.returnCell + 1 + d.params.length := hoffset
  have hstart' : scopes'.inner.start = act.returnCell + 1 := hstart'.trans hstart
  have hgrown := hgrows.trans hgrows' (by rw [hoffset]; exact Nat.le_add_right _ _)
  rw [show inner.locals = [] from rfl, List.append_nil] at hholds
  have hright : Runs 0 (act.note ("call " ++ d.name) ++ right (1 + d.params.length)) s
      (s.goto scopes.offset) := by
    refine runs_note_of_activation.append (runs_right.2 ?_)
    rw [hs, ← Nat.add_assoc, ← hoffset]
  have hsim := hright.append_sim (hperforms (s.goto scopes.offset) _ rfl hholds.goto)
  rw [exec_append_assoc, exec_append_assoc, invoke_run]
  refine append_sim hsim fun t r ht => ?_
  have hback := runs_wayBack d.name hstart' (by rw [hoffset] at hle; omega) ht.head
  refine hback.sim ⟨rfl, ?_, ?_, ?_, rfl, rfl⟩
  · exact ht.holds.returned _ (hgrown.returnCell.trans rfl)
  · have hglobals := (ht.holds.goto (p := act.returnCell)).globals
    rw [hgrown.globals] at hglobals
    exact ⟨.nil, hglobals, nofun, ht.holds.input, ht.holds.output⟩
  · intro x hx hcovers
    have hx' : x < act.returnCell + 1 := Nat.lt_succ_of_lt hx
    refine ht.keeps x (by rw [hoffset]; omega) fun hc => ?_
    rcases hgrows.covers x hx' hc with hvar | hr
    · exact hcovers (.inl hvar)
    · cases hr
      exact absurd hx (Nat.lt_irrefl _)

/-! ### Calls inside each other -/

/-- An expanded call yields what the call does, if the evaluation can go as deep. -/
theorem inlineCall_returns {definitions : Definitions} {annotate : Bool} {depth depth' : Nat}
    {active : List String} {d : FunctionDef} {position : Position} {args : List Cell}
    (hdepth : depth ≤ depth') (h : Prepared definitions p)
    (hc : Lowers (inlineCall definitions annotate depth active d position p) c)
    (hlen : args.length = d.params.length) :
    Returns (globalFrame definitions) p c args (invoke definitions depth' d args) := by
  induction depth generalizing depth' active d position args p c with
  | zero => exact absurd hc not_lowers_fail
  | succ depth ih =>
    obtain ⟨depth', rfl⟩ : ∃ k, depth' = k + 1 := ⟨depth' - 1, by omega⟩
    rw [inlineCall] at hc
    split at hc
    · exact absurd hc not_lowers_fail
    · apply functionBody_returns h ?_ hc hlen
      exact ⟨rfl, fun d position q c args hq hc => ih (by omega) (h.mono (by exact Nat.le_of_succ_le hq)) hc⟩

/-- The code of the functions of a program does what calls of them yield. -/
theorem outermost_serves {definitions : Definitions} {annotate : Bool} {returnCell depth : Nat}
    (hdepth : definitions.functions.length ≤ depth) (h : Prepared definitions p) :
    Serves (globalFrame definitions) p (outermost definitions annotate returnCell)
      ⟨definitions, invoke definitions depth⟩ :=
  ⟨rfl, fun _ _ _ _ _ hq hc => inlineCall_returns hdepth (h.mono hq) hc⟩

end TapeC.Lowering
