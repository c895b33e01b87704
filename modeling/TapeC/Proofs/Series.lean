import TapeC.Lowering.Control
import TapeC.Proofs.Access
import TapeC.Proofs.Contents

/-! Code for several values: next to each other, as arguments and declared variables have
them, or moved one after another into the cells of a variable. -/

namespace TapeC.Lowering

open Layout Program Tape Routine Code Config Comp Evaluation

variable {floor p q : Nat} {M : Matching} {s t : Config} {σ : Store} {c : Code}

/-! ### Values next to each other -/

/-- The end of code for values from `p` on that starts at `s`. -/
structure Matching.Lines (M : Matching) (p : Nat) (s t : Config) (vs : List Cell) (σ : Store) :
    Prop where
  head : t.head = p + vs.length
  values : ∀ i v, vs[i]? = some v → t.cells (p + i) = v
  holds : M.holds t σ
  keeps : M.Keeps p s t

/-- Code for an evaluation each. -/
def AllEvaluate (floor : Nat) (M : Matching) (p : Nat) : List CodeAt → List (Eval Cell) → Prop :=
  List.Forall₂ (EvaluatesAt floor M p)

theorem arguments_sim {as : List CodeAt} {ys : List (Eval Cell)} (h : AllEvaluate floor M p as ys)
    (hpq : p ≤ q) (hM : M.Below p) (hc : Lowers (Lowering.arguments q as) c) (hs : s.head = q)
    (hσ : M.holds s σ) :
    Sim (fun t r => M.Lines q s t r.1 r.2) (c.exec floor s) ((Evaluation.arguments ys).run σ) := by
  induction h generalizing q c s σ with
  | nil =>
    cases lowers_pure.1 hc
    exact (runs_skip.2 rfl).sim ⟨hs, fun _ _ hi => (nomatch hi), hσ, .refl⟩
  | @cons a y as ys ha _ ih =>
    obtain ⟨c₁, h₁, hc⟩ := hc.bind
    obtain ⟨c₂, h₂, hc⟩ := hc.bind
    cases lowers_pure.1 hc
    rw [Evaluation.arguments, StateT.run_bind, exec_append]
    refine (ha q hpq c₁ h₁ s σ hs hσ).bind fun t r ht => ?_
    rw [StateT.run_bind]
    refine (ih (q := q + 1) (by omega) h₂ ht.head ht.holds).then_right fun u r' hu => .pure ?_
    refine ⟨by rw [hu.head, List.length_cons]; omega, fun i v hi => ?_, hu.holds,
      ht.keeps.trans hu.keeps (by omega)⟩
    cases i with
    | zero =>
      cases hi
      exact (hu.keeps.cell hM (by omega) (by omega)).trans ht.value
    | succ i =>
      rw [show q + (i + 1) = q + 1 + i by omega]
      exact hu.values i v hi

theorem inPlace_eq {cells : List (Content Leaf)} :
    inPlace q cells = Lowering.arguments q (cells.map Content.code) := by
  induction cells generalizing q with
  | nil => rfl
  | cons c cells ih =>
    rw [inPlace, List.map_cons, Lowering.arguments]
    simp only [ih]

/-! ### Contents -/

variable {ε : Type} {leaf : ε → Leaf} {value : ε → Eval Cell} {cells : List (Content ε)}

/-- Contents whose expressions have code for their values. -/
theorem contents_evaluate (hf : floor ≤ p) (hM : M.Below p)
    (h : ∀ e, .value e ∈ cells → EvaluatesAt floor M p (leaf e).code (value e)) :
    AllEvaluate floor M p ((cells.map (Content.map leaf)).map Content.code)
      ((cells.map (Content.map value)).map Evaluation.content) := by
  simp only [List.map_map]
  induction cells with
  | nil => exact .nil
  | cons c cells ih =>
    refine .cons ?_ (ih fun e he => h e (List.mem_cons_of_mem _ he))
    cases c with
    | byte v => exact constant_evaluatesAt hf hM
    | value e => exact h e List.mem_cons_self

/-! ### Values moved into a variable -/

variable {F : Frame} {scopes : Scopes} {v : Variable} {name : String} {position : Position}
  {P : List (Selector (Index CodeAt))} {E : List (Selector (Index (Eval Cell)))}

/-- A place without terms is known at once. -/
theorem place_static {place : Place CodeAt} (hF : Describes F scopes p) (hσ : F.Holds s σ)
    (hP : PathEvaluates 0 F.matching p P E) (hv : scopes.find? name = some v)
    (hp : Place.ofPath v position P = .ok place) (ht : place.terms = []) :
    (∃ w, ((Evaluation.place name E position).run σ).Ends (.error w)) ∨
      ∃ i, ((Evaluation.place name E position).run σ).Ends (.ok ((⟨name, i⟩, place.shape), σ)) ∧
        i + place.shape.size ≤ v.size ∧ v.cell + i = place.base := by
  obtain ⟨hrun, hE⟩ := runtime_of_static hP hp ht
  rw [hF.find] at hv
  have hlen : ([] : List Cell).length = (runtime P).length := by rw [hrun]; rfl
  have h := select_ends hσ hv (hF.sound v (List.mem_of_find?_eq_some hv)) hp hlen
  rw [ht] at h
  simpa [Evaluation.place, evaluated_eq hP, filled_eq hP, hE, Evaluation.arguments, weighted] using h

/-- The value behind the head is moved to a cell at a fixed distance. -/
theorem runs_moveBack {t : Config} {x : Nat} (ht : t.head = q + 1) (hx : x < q) :
    Runs 0 (left 1 ++ moveTo (q - x)) t (((t.goto q).put x (t.cells q)).put q 0) := by
  have hleft : Runs 0 (left 1) t (t.goto q) := (runs_left (by omega)).2 (by rw [ht]; rfl)
  refine hleft.append ((runs_moveTo (by omega) (by rw [head_goto]; omega)).2 ?_)
  rw [head_goto, show q - (q - x) = x by omega, Config.cell, cells_goto, head_goto]

theorem store_sim {cs : List (Content Leaf)} {es : List (Content (Eval Cell))} {i : Nat}
    (h : AllEvaluate 0 F.matching p (cs.map Content.code) (es.map Evaluation.content))
    (hF : F.Fits p) (hpq : p ≤ q) (hv : F.vars.find? (·.name == name) = some v)
    (hi : i + cs.length ≤ v.size) (hc : Lowers (Lowering.store (v.cell + i) q cs) c) (hs : s.head = q)
    (hσ : F.Holds s σ) :
    Sim (fun t r => t.head = q ∧ F.Holds t r.2 ∧ F.matching.Keeps q s t) (c.exec 0 s)
      ((storeAll name i es).run σ) := by
  have hmem := List.mem_of_find?_eq_some hv
  have hstop : v.cell + v.size ≤ p := hF.below v hmem
  induction cs generalizing es i c s σ with
  | nil =>
    cases lowers_pure.1 hc
    cases es with
    | nil => exact (runs_skip.2 rfl).sim ⟨hs, hσ, .refl⟩
    | cons e es => cases h
  | cons k cs ih =>
    cases es with
    | nil => cases h
    | cons e es =>
    cases h with
    | cons he hes =>
    obtain ⟨c₁, h₁, hc⟩ := hc.bind
    obtain ⟨c₂, h₂, hc⟩ := hc.bind
    cases lowers_pure.1 hc
    rw [List.length_cons] at hi
    rw [storeAll, StateT.run_bind, exec_append_assoc, exec_append_assoc]
    refine append_sim (he q hpq c₁ h₁ s σ hs hσ) fun t r ht => ?_
    have hmove := runs_moveBack ht.head (x := v.cell + i) (by omega)
    rw [ht.value] at hmove
    rw [← exec_append_assoc, StateT.run_bind, store_run, pure_bind]
    refine hmove.append_sim ?_
    have hcells : ∀ x < q, ((((t.goto q).put (v.cell + i) r.1).put q 0).cells x) =
        if x = v.cell + i then r.1 else t.cells x := fun x hx => by
      rw [cells_put_of_ne (by omega), cells_put, cells_goto]
    refine (ih (i := i + 1) hes (by omega) h₂ rfl
      (ht.holds.change hF hv (by omega) (fun x hx => hcells x (by omega)) rfl rfl)).mono ?_
    rintro u r' ⟨hu, hσ', hk⟩
    refine ⟨hu, hσ', fun x hx hx' => ?_⟩
    have hne : x ≠ v.cell + i := by
      rintro rfl
      exact hx' (.inl ⟨v, hmem, by omega, by rw [Variable.stop]; omega⟩)
    rw [hk x hx hx', hcells x hx, if_neg hne, ht.keeps x hx hx']

theorem fill_evaluatesAt {i : Initializer ε} (hF : Describes F scopes p)
    (hP : PathEvaluates 0 F.matching p P E)
    (hi : ∀ e ∈ i.leaves, EvaluatesAt 0 F.matching p (leaf e).code (value e)) :
    EvaluatesAt 0 F.matching p (Lowering.fill scopes name P position (i.map leaf))
      (Evaluation.fill name E position (i.map value)) := by
  intro q hpq c hc s σ hs hσ
  obtain ⟨place, hplace, hc⟩ := hc.bind
  obtain ⟨hterms, hc⟩ := Lowers.of_guard hc fun _ => not_lowers_fail
  obtain ⟨cs, hcs, hc⟩ := hc.bind
  obtain ⟨c₁, h₁, hc⟩ := hc.bind
  cases lowers_pure.1 hc
  obtain ⟨v, hv, hp⟩ := lowers_place hplace
  rw [lowers_lift, layOutContents_map] at hcs
  cases hcells : layOutContents (Leaf.position ∘ leaf) name position place.shape i with
  | error e => rw [hcells] at hcs; cases hcs
  | ok cells =>
  rw [hcells] at hcs
  cases hcs
  rw [Evaluation.fill, StateT.run_bind]
  refine .of_start ((place_static hF hσ hP hv hp (by simpa using hterms)).imp_right
    fun ⟨k, h, hk, hbase⟩ => ⟨_, h, ?_⟩)
  have hlaid : laidOut name position place.shape (i.map value) =
      pure (cells.map (Content.map value)) := by
    rw [laidOut, layOutContents_map, layOutContents_place _ hcells]
    rfl
  have heval := contents_evaluate (Nat.zero_le p) hF.fits.below_matching fun e he =>
    hi e (mem_layOutContents hcells he)
  rw [hF.find] at hv
  rw [← hbase] at h₁
  have hstore := store_sim heval hF.fits hpq hv (i := k)
    (by rw [List.length_map, length_layOutContents hcells]; exact hk) h₁ hs hσ
  simp only [hlaid, pure_bind, StateT.run_bind, exec_append_eq, bind_assoc]
  refine hstore.bind fun t r ⟨ht, hσ', hkeeps⟩ => ?_
  have hend : Runs 0 (clear ++ right 1) t ((t.put q 0).goto (q + 1)) :=
    (runs_clear.2 rfl).append (runs_right.2 (by rw [store_def, head_put, ht]))
  have hcells' : ∀ x < q, ((t.put q 0).goto (q + 1)).cells x = t.cells x := fun x hx => by
    rw [cells_goto, cells_put_of_ne (by omega)]
  exact hend.sim ⟨rfl, cells_put_self,
    F.matching.holds_of_below (hF.fits.below_matching.mono hpq) hσ' hcells' rfl rfl,
    fun x hx hc => (hcells' x hx).trans (hkeeps x hx hc)⟩

end TapeC.Lowering
