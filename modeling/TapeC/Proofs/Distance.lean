import TapeC.Proofs.Frame
import TapeC.Proofs.Operand
import TapeC.Proofs.Place

/-! The distance to a place with indices that are only known at run time: the code for the
sum of its terms and what the path selects once the indices are evaluated. -/

namespace TapeC.Lowering

open Layout Program Tape Routine Code Config Comp Evaluation

variable {floor p : Nat} {M : Matching} {κ : Type}

/-! ### Terms -/

/-- The sum of terms with these values, as a cell computes it. -/
def weighted : List (Term κ) → List Cell → Cell
  | t :: ts, v :: vs => v * Cell.ofInt t.stride + weighted ts vs
  | _, _ => 0

theorem cell_ofInt_natCast (n : Nat) : Cell.ofInt n = .ofNat n := by
  rw [Cell.ofInt, UInt8.ofInt, ← UInt8.toNat_inj, UInt8.toNat_ofNat', UInt8.toNat_ofNat']
  omega

theorem weighted_eq (ts : List (Term κ × Cell)) :
    weighted (ts.map Prod.fst) (ts.map Prod.snd) = .ofNat (Place.distance ts) := by
  induction ts with
  | nil => rfl
  | cons t ts ih =>
    rw [List.map_cons, List.map_cons, weighted, ih, Place.distance, Place.distance, List.map_cons,
      List.sum_cons, UInt8.ofNat_add, UInt8.ofNat_mul, cell_ofInt_natCast, UInt8.ofNat_toNat]

theorem term_evaluatesAt {t : Term CodeAt} {y : Eval Cell} (hf : floor ≤ p) (hM : M.Below p)
    (h : EvaluatesAt floor M p t.code y) :
    EvaluatesAt floor M p (term t) ((· * Cell.ofInt t.stride) <$> y) := by
  rw [term]
  by_cases h1 : t.stride = 1
  · rw [if_pos h1, h1, show (fun v : Cell => v * Cell.ofInt (1 : Nat)) = id by
      funext v
      exact UInt8.mul_one v, id_map]
    exact h
  · rw [if_neg h1]
    have hpair := operate_evaluatesAt .multiply true (Q := fun _ => True) hf hM rfl h
      (constant_evaluatesAt (v := Cell.ofInt t.stride) hf hM) (fun _ _ _ => trivial) (.inl rfl)
    simp only [pure_bind] at hpair
    rw [map_eq_pure_bind]
    exact hpair

/-- The code of an evaluation for each term. -/
def TermsEvaluate (floor : Nat) (M : Matching) (p : Nat) : List (Term CodeAt) → List (Eval Cell) → Prop :=
  List.Forall₂ fun t y => EvaluatesAt floor M p t.code y

theorem sum_evaluatesAt {first : CodeAt} {y : Eval Cell} {ts : List (Term CodeAt)}
    {ys : List (Eval Cell)} (hf : floor ≤ p) (hM : M.Below p) (hfirst : EvaluatesAt floor M p first y)
    (h : TermsEvaluate floor M p ts ys) :
    EvaluatesAt floor M p (sum first ts) (do
      let a ← y
      let vs ← Evaluation.arguments ys
      return a + weighted ts vs) := by
  induction h generalizing first y with
  | nil => simpa [sum, Evaluation.arguments, weighted] using hfirst
  | @cons t z ts zs ht _ ih =>
    have hadd := operate_evaluatesAt .add true (Q := fun _ => True) hf hM rfl hfirst
      (term_evaluatesAt hf hM ht) (fun _ _ _ => trivial) (.inl rfl)
    have hsum := ih hadd
    simpa [sum, Evaluation.arguments, weighted, operate, BinaryOp.eval?, UInt8.add_assoc] using hsum

/-- The code for the sum of terms computes it from the values of their indices. -/
theorem distance_evaluatesAt {t : Term CodeAt} {ts : List (Term CodeAt)} {ys : List (Eval Cell)} (hf : floor ≤ p)
    (hM : M.Below p) (h : TermsEvaluate floor M p (t :: ts) ys) :
    EvaluatesAt floor M p (sum (term t) ts) (weighted (t :: ts) <$> Evaluation.arguments ys) := by
  cases h with
  | @cons _ y _ ys hy hys =>
    have hweighted : weighted (t :: ts) <$> Evaluation.arguments (y :: ys) = (do
        let a ← (· * Cell.ofInt t.stride) <$> y
        let vs ← Evaluation.arguments ys
        return a + weighted ts vs : Eval Cell) := by
      simp [Evaluation.arguments, weighted]
    rw [hweighted]
    exact sum_evaluatesAt hf hM (term_evaluatesAt hf hM hy) hys

/-! ### Paths -/

/-- An index, or a field, beside its evaluation. -/
inductive SelectorEvaluates (floor : Nat) (M : Matching) (p : Nat) :
    Selector (Index CodeAt) → Selector (Index (Eval Cell)) → Prop where
  | field {name : String} : SelectorEvaluates floor M p (.field name) (.field name)
  | index {k : Option Cell} {position : Position} {a : CodeAt} {y : Eval Cell}
      (constant : ∀ n, k = some n → y = pure n) (code : EvaluatesAt floor M p a y) :
      SelectorEvaluates floor M p (.index ⟨k, position, a⟩) (.index ⟨k, position, y⟩)

def PathEvaluates (floor : Nat) (M : Matching) (p : Nat) :
    List (Selector (Index CodeAt)) → List (Selector (Index (Eval Cell))) → Prop :=
  List.Forall₂ (SelectorEvaluates floor M p)

variable {P : List (Selector (Index CodeAt))} {E : List (Selector (Index (Eval Cell)))}

theorem evaluated_eq (h : PathEvaluates floor M p P E) :
    evaluated E = filled P <$> Evaluation.arguments (runtime E) := by
  induction h with
  | nil => simp [evaluated, Evaluation.arguments, runtime, filled]
  | @cons a b P E hab _ ih =>
    cases hab with
    | field => simp [evaluated, runtime, filled, ih]
    | @index k position code y hk _ =>
      cases k with
      | some n => simp [evaluated, runtime, filled, ih, hk n rfl]
      | none => simp [evaluated, runtime, filled, ih, Evaluation.arguments]

theorem runtime_evaluate (h : PathEvaluates floor M p P E) :
    List.Forall₂ (EvaluatesAt floor M p) (runtime P) (runtime E) := by
  induction h with
  | nil => exact .nil
  | @cons a b P E hab _ ih =>
    cases hab with
    | field => exact ih
    | @index k position code y _ hc =>
      cases k with
      | some n => exact ih
      | none => exact .cons hc ih

theorem filled_eq {vs : List Cell} (h : PathEvaluates floor M p P E) : filled E vs = filled P vs := by
  induction h generalizing vs with
  | nil => rfl
  | @cons a b P E hab _ ih =>
    cases hab with
    | field => simp only [filled, ih]
    | @index k position code y _ hc => cases k <;> simp only [filled, ih]

theorem arguments_length {ys : List (Eval Cell)} {σ : Store} {r : List Cell × Store}
    (h : ((Evaluation.arguments ys).run σ).Ends (.ok r)) : r.1.length = ys.length := by
  induction ys generalizing σ r with
  | nil =>
    cases pure_ends.1 h
    rfl
  | cons y ys ih =>
    rw [Evaluation.arguments, StateT.run_bind] at h
    rcases bind_ends.1 h with ⟨_, _, he⟩ | ⟨a, _, h⟩
    · cases he
    · rw [StateT.run_bind] at h
      rcases bind_ends.1 h with ⟨_, _, he⟩ | ⟨b, hb, h⟩
      · cases he
      · cases pure_ends.1 h
        rw [List.length_cons, ih hb, List.length_cons]

/-! ### Selected places -/

variable {F : Frame} {s : Config} {σ : Store} {name : String} {v : Variable} {position : Position}
  {place : Place CodeAt} {vs : List Cell}

/-- The distance between terms with these values, as the tape has it, is that to the place. -/
theorem select_ends (hσ : F.Holds s σ) (hv : F.vars.find? (·.name == name) = some v)
    (hsound : v.shape.type.Sound) (hp : Place.ofPath v position P = .ok place)
    (hlen : vs.length = (runtime P).length) :
    (∃ w, ((select name position (filled P []) (filled P vs)).run σ).Ends (.error w)) ∨
      ∃ i, ((select name position (filled P []) (filled P vs)).run σ).Ends
          (.ok ((⟨name, i⟩, place.shape), σ)) ∧
        i + place.shape.size ≤ v.size ∧ v.cell + i = place.base + (weighted place.terms vs).toNat := by
  obtain ⟨o, ho, hvo⟩ := hσ.find hv
  have hname : v.name = name := by simpa using List.find?_some hv
  simp only [select, StateT.run_bind, StateT.run_get, pure_bind, ho]
  rw [hvo.shape]
  have hfill := filling_filled hlen
  have hzeros : (List.replicate (runtime P).length (0 : Cell)).length = (runtime P).length :=
    List.length_replicate
  have horigin := filling_filled hzeros
  rw [filled_replicate] at horigin
  cases hq₀ : Place.ofPath ⟨name, v.shape, 0⟩ position (filled P []) with
  | error e => exact .inl ⟨.outOfRange, wrong_ends.2 rfl⟩
  | ok q₀ =>
  cases hq : Place.ofPath ⟨name, v.shape, 0⟩ position (filled P vs) with
  | error e => exact .inl ⟨.outOfRange, wrong_ends.2 rfl⟩
  | ok q =>
    rw [← hname] at hq hq₀
    obtain ⟨ts, hterms, hcodes, hbase, hshape⟩ := Place.ofPath_along hfill hp hq
    obtain ⟨ts₀, -, hcodes₀, hbase₀, -⟩ := Place.ofPath_along horigin hp hq₀
    have hle := Place.ofPath_within hfill hsound hq
    have hzero : Place.distance ts₀ = 0 := Place.distance_of_zero fun t ht => by
      have hmem : (t.1.code, t.2) ∈ (runtime P).zip (List.replicate (runtime P).length 0) := by
        rw [← hcodes₀]
        exact List.mem_map_of_mem ht
      exact List.eq_of_mem_replicate (List.of_mem_zip hmem).2
    have hvs : vs = ts.map Prod.snd := by
      have hzip : ((runtime P).zip vs).map Prod.snd = vs := List.map_snd_zip (Nat.le_of_eq hlen)
      rw [← hzip, ← hcodes]
      simp
    refine .inr ⟨_, by rw [← hshape]; exact pure_ends.2 rfl, ?_, ?_⟩
    · have := Nat.mod_le (q.base - q₀.base) Cell.modulus
      rw [hshape] at hle
      omega
    · rw [hterms, hvs, weighted_eq, UInt8.toNat_ofNat', show q.base - q₀.base = Place.distance ts by omega]
      change _ = _ + _ % Cell.modulus
      omega

end TapeC.Lowering
