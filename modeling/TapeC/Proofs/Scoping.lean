import TapeC.Proofs.Command
import TapeC.Proofs.Expression

/-! Code among scopes. The variables of the scopes around a statement make its frame; a
declaration adds one to both, and leaving a scope forgets those that were added. -/

namespace TapeC.Lowering

open Layout Program Tape Routine Code Config Comp Evaluation

variable {act : Activation} {ctx : Context} {F F' : Frame} {scopes scopes' : Scopes} {c : Code}
  {y y' : Eval Unit} {body : CodeIn} {e : Expr}

/-- What is known of a place in a function. -/
structure Inside (act : Activation) (ctx : Context) (scopes : Scopes) (F : Frame) : Prop where
  vars : (scopes.inner :: scopes.outer).flatMap Scope.vars = F.vars
  fits : F.Fits scopes.offset
  types : ∀ v ∈ F.vars, v.shape.type.Sound
  start : scopes.inner.start ≤ scopes.offset
  structs : ∀ s ∈ act.definitions.structs, s.type.Sound
  serves : Serves F.outside scopes.offset act ctx
  returned : F.returnCell = some act.returnCell

namespace Inside

theorem describes (h : Inside act ctx scopes F) : Describes F scopes scopes.offset where
  find name := by
    rw [← h.vars, List.find?_flatMap]
    rfl
  fits := h.fits
  sound := h.types

theorem enter (h : Inside act ctx scopes F) : Inside act ctx scopes.enter F :=
  ⟨h.vars, h.fits, h.types, Nat.le_refl _, h.structs, h.serves, h.returned⟩

theorem reserve (h : Inside act ctx scopes F) (n : Nat) : Inside act ctx (scopes.reserve n) F :=
  have hle : scopes.offset ≤ (scopes.reserve n).offset := Nat.le_add_right _ n
  ⟨h.vars, h.fits.mono hle, h.types, Nat.le_trans h.start hle, h.structs, h.serves.mono hle, h.returned⟩

theorem evaluates (h : Inside act ctx scopes F) {q : Nat} (hq : scopes.offset ≤ q)
    (hc : Lowers (expr act scopes e q) c) : Evaluates 0 F.matching q c (Evaluation.expr ctx e) :=
  expr_evaluatesAt h.describes h.serves e q hq c hc

end Inside

/-- The code of a statement performs an evaluation, wherever it stands in a function. -/
def Executes (act : Activation) (ctx : Context) (body : CodeIn) (y : Eval Unit) : Prop :=
  ∀ F scopes c scopes', Inside act ctx scopes F → Lowers (body scopes) (c, scopes') →
    ∃ F', Inside act ctx scopes' F' ∧ Grows F scopes.offset F' ∧ scopes.offset ≤ scopes'.offset ∧
      scopes'.inner.start = scopes.inner.start ∧ Performs F F' scopes.offset scopes'.offset c y

/-- The code of a statement that declares nothing. -/
def PlainlyExecutes (act : Activation) (ctx : Context) (code : Scopes → Lower Code) (y : Eval Unit) : Prop :=
  ∀ F scopes c, Inside act ctx scopes F → Lowers (code scopes) c →
    Performs F F scopes.offset scopes.offset c y

theorem PlainlyExecutes.executes {code : Scopes → Lower Code} (h : PlainlyExecutes act ctx code y) :
    Executes act ctx (plain code) y := by
  intro F scopes c scopes' hF hc
  obtain ⟨c', hc', hc⟩ := hc.bind
  cases lowers_pure.1 hc
  exact ⟨F, hF, .refl, Nat.le_refl _, rfl, h F scopes c hF hc'⟩

theorem inScope_executes (h : Executes act ctx body y) :
    PlainlyExecutes act ctx (Lowering.inScope body) (Evaluation.inScope y) := by
  intro F scopes c hF hc
  obtain ⟨⟨c', inner⟩, hc', hc⟩ := hc.bind
  cases lowers_pure.1 hc
  obtain ⟨F', hF', hgrows, hle, hstart, hperforms⟩ := h F scopes.enter c' inner hF.enter hc'
  rw [Scopes.claimed, Scope.claimed, hstart]
  exact hperforms.inScope hle hgrows.toExtends

theorem skip_executes : Executes act ctx (fun scopes => return (skip, scopes)) (pure ()) := by
  intro F scopes c scopes' hF hc
  cases lowers_pure.1 hc
  exact ⟨F, hF, .refl, Nat.le_refl _, rfl, skip_performs⟩

theorem Executes.append {more : CodeIn} (h : Executes act ctx body y) (h' : Executes act ctx more y') :
    Executes act ctx (fun scopes => do
      let (code, scopes) ← body scopes
      let (rest, scopes) ← more scopes
      return (code ++ rest, scopes)) (do y; y') := by
  intro F scopes c scopes'' hF hc
  obtain ⟨⟨c₁, scopes'⟩, h₁, hc⟩ := hc.bind
  obtain ⟨⟨c₂, _⟩, h₂, hc⟩ := hc.bind
  cases lowers_pure.1 hc
  obtain ⟨F', hF', hgrows, hle, hstart, hperforms⟩ := h F scopes c₁ scopes' hF h₁
  obtain ⟨F'', hF'', hgrows', hle', hstart', hperforms'⟩ := h' F' scopes' c₂ _ hF' h₂
  exact ⟨F'', hF'', hgrows.trans hgrows' hle, Nat.le_trans hle hle', hstart'.trans hstart,
    hperforms.append hperforms' hle hgrows⟩

theorem Executes.noted {s : Statement} (h : Executes act ctx body y) :
    Executes act ctx (noted act s body) y := by
  intro F scopes c scopes' hF hc
  obtain ⟨⟨c', _⟩, hc', hc⟩ := hc.bind
  cases lowers_pure.1 hc
  obtain ⟨F', hF', hgrows, hle, hstart, hperforms⟩ := h F scopes c' _ hF hc'
  refine ⟨F', hF', hgrows, hle, hstart, fun s σ hs hσ => Runs.append_sim ?_ (hperforms s σ hs hσ)⟩
  cases noteText? _ with
  | none => exact runs_skip.2 rfl
  | some text =>
    rw [Option.map_some, Option.getD_some, Activation.note]
    split
    · exact runs_note.2 rfl
    · exact runs_skip.2 rfl

/-! ### Declarations -/

theorem Inside.declare {name : String} {shape : Shape} {position : Position} {v : Variable}
    (h : Inside act ctx scopes F) (hs : shape.type.Sound)
    (hv : scopes.declare name shape position = .ok (v, scopes')) :
    v = ⟨name, shape, scopes.offset⟩ ∧ Inside act ctx scopes' (F.declare v) ∧ scopes'.offset = v.stop ∧
      scopes'.inner.start = scopes.inner.start := by
  rw [Scopes.declare] at hv
  split at hv
  · cases hv
  cases hv
  have hle : scopes.offset ≤ (⟨name, shape, scopes.offset⟩ : Variable).stop := Nat.le_add_right _ _
  refine ⟨rfl, ⟨?_, h.fits.declare rfl, fun u hu => ?_, Nat.le_trans h.start hle, h.structs,
    h.serves.mono hle, h.returned⟩, rfl, rfl⟩
  · exact congrArg (_ :: ·) h.vars
  · rcases List.mem_cons.1 hu with rfl | hu
    · exact hs
    · exact h.types u hu

theorem grows_declare {v : Variable} {p : Nat} (hv : p ≤ v.cell) : Grows F p (F.declare v) := by
  refine ⟨Frame.extends_declare, fun x hx hc => ?_⟩
  rcases hc with ⟨u, hu, hx₁, hx₂⟩ | hr
  · rcases List.mem_cons.1 hu with rfl | hu
    · omega
    · exact .inl ⟨u, hu, hx₁, hx₂⟩
  · exact .inr hr

/-- The cells of an object stand from the cell `p` on, and the head stands behind them. -/
structure LeavesObject (F : Frame) (p size : Nat) (s t : Config) (cells : List (Option Cell)) (σ : Store) : Prop where
  head : t.head = p + size
  holds : F.Holds t σ
  keeps : F.matching.Keeps p s t
  length : cells.length = size
  values : ∀ i c, cells[i]? = some (some c) → t.cells (p + i) = c

/-- A declaration whose code leaves the cells of an object behind. -/
theorem declared_executes {d : Declaration} {type : ElementType} {code : Code}
    (cells : Eval (List (Option Cell))) (hF : Inside act ctx scopes F)
    (htype : resolveType act.definitions.structs d.position d.type = .ok type)
    (hdeclare : Lowers (do
      let (_, scopes) ← scopes.declare d.name ⟨type, d.dims⟩ d.position
      return (code, scopes) : Lower (Code × Scopes)) (c, scopes'))
    (hcells : ∀ s σ, s.head = scopes.offset → F.Holds s σ →
      Sim (fun t r => LeavesObject F scopes.offset (Shape.size ⟨type, d.dims⟩) s t r.1 r.2)
        (code.exec 0 s) (cells.run σ)) :
    ∃ F', Inside act ctx scopes' F' ∧ Grows F scopes.offset F' ∧ scopes.offset ≤ scopes'.offset ∧
      scopes'.inner.start = scopes.inner.start ∧ Performs F F' scopes.offset scopes'.offset c (do
        let cells ← cells
        modify (·.declare ⟨d.name, ⟨type, d.dims⟩, cells⟩)) := by
  obtain ⟨⟨v, inner⟩, hv, hc⟩ := hdeclare.bind
  cases lowers_pure.1 hc
  obtain ⟨rfl, hF', hoffset, hstart⟩ := hF.declare (resolveType_sound hF.structs htype) (lowers_lift.1 hv)
  refine ⟨_, hF', grows_declare (Nat.le_refl _), by rw [hoffset]; exact Nat.le_add_right _ _, hstart, ?_⟩
  intro s σ hs hσ
  rw [StateT.run_bind, hoffset]
  refine (hcells s σ hs hσ).then_right fun t r ht => .pure ⟨ht.head, ?_, ht.keeps⟩
  exact ht.holds.declare ⟨rfl, rfl, ht.length, ht.values⟩

/-- Without contents, the head passes over the cells of an object. -/
theorem passed_leaves {s : Config} {σ : Store} {p size : Nat} (hs : s.head = p) (hσ : F.Holds s σ) :
    Sim (fun t r => LeavesObject F p size s t r.1 r.2) ((right size).exec 0 s)
      ((pure (List.replicate size none) : Eval (List (Option Cell))).run σ) := by
  refine (runs_right.2 rfl).sim (S := fun t (r : List (Option Cell) × Store) => _)
    ⟨by rw [head_goto, hs], hσ.goto, fun _ _ _ => rfl, List.length_replicate, fun i k hi => ?_⟩
  rw [List.getElem?_replicate] at hi
  split at hi <;> cases hi

/-- Contents that are written in place leave an object. -/
theorem arguments_leave {s : Config} {σ : Store} {as : List CodeAt} {ys : List (Eval Cell)} {p : Nat}
    (h : AllEvaluate 0 F.matching p as ys) (hM : F.matching.Below p) (hc : Lowers (Lowering.arguments p as) c)
    (hs : s.head = p) (hσ : F.Holds s σ) :
    Sim (fun t r => LeavesObject F p as.length s t r.1 r.2) (c.exec 0 s)
      (((·.map some) <$> Evaluation.arguments ys).run σ) := by
  rw [StateT.run_map, map_eq_pure_bind]
  refine (arguments_sim h (Nat.le_refl _) hM hc hs hσ).and_ends.then_right fun t r ⟨ht, hr⟩ => .pure ?_
  have hlen : r.1.length = as.length := (arguments_length hr).trans h.length_eq.symm
  refine ⟨by rw [ht.head, hlen], ht.holds, ht.keeps, by rw [List.length_map, hlen], fun i k hi => ?_⟩
  rw [List.getElem?_map] at hi
  obtain ⟨k', hk', hi⟩ := Option.map_eq_some_iff.1 hi
  cases hi
  exact ht.values i k hk'

theorem declare_executes {d : Declaration} :
    Executes act ctx (Lowering.declare act d fun scopes => d.contents.map (leaves act scopes))
      (Evaluation.declare ctx d (d.contents.map (Evaluation.leaves ctx))) := by
  intro F scopes c scopes' hF hc
  obtain ⟨type, htype, hc⟩ := hc.bind
  rw [lowers_lift] at htype
  rw [Evaluation.declare, ← hF.serves.definitions, htype]
  have hM := hF.fits.below_matching
  cases hcontents : d.contents with
  | none =>
    rw [hcontents] at hc
    obtain ⟨code, hcode, hc⟩ := hc.bind
    cases lowers_pure.1 hcode
    exact declared_executes _ hF htype hc fun s σ => passed_leaves
  | some contents =>
    rw [hcontents] at hc
    obtain ⟨cs, hcs, hc⟩ := hc.bind
    obtain ⟨code, hcode, hdeclare⟩ := hc.bind
    rw [lowers_lift, leaves_eq, layOutContents_map] at hcs
    cases hcells : layOutContents (Leaf.position ∘ fun e => ⟨e.position, expr act scopes e⟩) d.name d.position
        ⟨type, d.dims⟩ contents with
    | error fault => rw [hcells] at hcs; cases hcs
    | ok cells =>
    rw [hcells] at hcs
    cases hcs
    rw [inPlace_eq] at hcode
    have hlaid : laidOut d.name d.position ⟨type, d.dims⟩ (Evaluation.leaves ctx contents) =
        pure (cells.map (Content.map (Evaluation.expr ctx))) := by
      rw [laidOut, Evaluation.leaves_eq, layOutContents_map, layOutContents_place _ hcells]
      rfl
    have heval : AllEvaluate 0 F.matching scopes.offset
        ((cells.map (Content.map fun e => ⟨e.position, expr act scopes e⟩)).map Content.code)
        ((cells.map (Content.map (Evaluation.expr ctx))).map Evaluation.content) :=
      contents_evaluate (Nat.zero_le scopes.offset) hM fun e _ => expr_evaluatesAt hF.describes hF.serves e
    have h := declared_executes ((·.map some) <$> Evaluation.arguments
      ((cells.map (Content.map (Evaluation.expr ctx))).map Evaluation.content)) hF htype hdeclare fun s σ hs hσ => ?_
    · simpa [hlaid] using h
    · rw [← length_layOutContents hcells]
      simpa using arguments_leave heval hM hcode hs hσ

end TapeC.Lowering
