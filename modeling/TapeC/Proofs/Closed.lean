import TapeC.Lowering.Call
import TapeC.Proofs.Expression
import TapeC.Proofs.Loading

/-! Expressions of literals and operators. Their code is there exactly if they have a
constant value, and that value is what the code computes from any tape, without a look at
the cells to its left. -/

namespace TapeC

open Layout Program Tape Code Lowering Evaluation

/-- Whether an expression consists of literals and operators. -/
def Program.Expr.isClosed : Expr → Bool
  | .number _ _ | .char _ _ | .bool _ _ => true
  | .unary _ e _ => e.isClosed
  | .binary _ a b _ => a.isClosed && b.isClosed
  | _ => false

/-- An expression with a constant value consists of literals and operators. -/
theorem Program.Expr.isClosed_of_constant {e : Expr} {v : Cell} (h : e.constant? = some v) : e.isClosed = true := by
  induction e using Expr.induct generalizing v with
  | number | char | bool => rfl
  | unary op e p ih =>
    obtain ⟨w, hw, -⟩ := Option.map_eq_some_iff.1 h
    exact ih hw
  | binary op a b p iha ihb =>
    obtain ⟨v, hv, h⟩ := Option.bind_eq_some_iff.1 h
    obtain ⟨w, hw, -⟩ := Option.bind_eq_some_iff.1 h
    exact Bool.and_eq_true_iff.2 ⟨iha hv, ihb hw⟩
  | access | update | assign | fill | call => cases h

namespace Lowering

variable {act : Activation} {scopes : Scopes} {e : Expr} {p : Nat} {v : Cell}

/-! ### Lowering -/

/-- The lowering yields code if there is a value, and otherwise finds a division by zero. -/
def Agrees (x : Lower Code) : Option Cell → Prop
  | some _ => ∃ c, x = pure c
  | none => ∃ position, x = fail position .divisionByZero

theorem agrees_fail {position : Position} : Agrees (fail position .divisionByZero) none :=
  ⟨position, rfl⟩

theorem agrees_pure {c : Code} : Agrees (pure c) (some v) := ⟨c, rfl⟩

theorem Agrees.bind {x : Lower Code} {f : Code → Lower Code} {k : Option Cell}
    {g : Cell → Option Cell} (h : Agrees x k) (hf : ∀ c v, k = some v → Agrees (f c) (g v)) :
    Agrees (x >>= f) (k.bind g) := by
  cases k with
  | none =>
    obtain ⟨position, rfl⟩ := h
    exact ⟨position, rfl⟩
  | some v =>
    obtain ⟨c, rfl⟩ := h
    rw [pure_bind]
    exact hf c v rfl

variable {a b : CodeAt} {j k : Option Cell}

theorem onPair_agrees {operation : Code} {f : Cell → Cell → Option Cell} (ha : Agrees (a p) j)
    (hb : Agrees (b (p + 1)) k) (hf : ∀ v w, k = some w → f v w ≠ none) :
    Agrees (onPair operation a b p) (do f (← j) (← k)) :=
  ha.bind fun _ v _ => hb.bind fun _ w hw => by
    obtain ⟨u, hu⟩ := Option.ne_none_iff_exists'.1 (hf v w hw)
    rw [hu]
    exact agrees_pure

theorem onDivisor_agrees {operation : Bool → Code} {position : Position} {f : Cell → Cell → Option Cell}
    (ha : Agrees (a p) j) (hb : Agrees (b (p + 1)) k) (hf : ∀ v w, f v w = none ↔ w = 0) :
    Agrees (onDivisor operation k position a b p) (do f (← j) (← k)) := by
  by_cases hk : k = some 0
  · have hnone : (do f (← j) (← k)) = none := by
      subst hk
      cases j with
      | none => rfl
      | some v => exact (hf v 0).2 rfl
    rw [hnone, onDivisor, if_pos hk]
    exact agrees_fail
  · have h : onDivisor operation k position a b p = onPair (operation k.isNone) a b p := by
      rw [onDivisor, if_neg hk]
    rw [h]
    refine onPair_agrees ha hb fun v w hw h0 => hk ?_
    rw [hw, (hf v w).1 h0]

/-- Code for an expression of literals and operators is there if and only if it has a
constant value. -/
theorem expr_agrees (he : e.isClosed = true) : Agrees (expr act scopes e p) e.constant? := by
  induction e using Expr.induct generalizing p with
  | number | char | bool => exact agrees_pure
  | unary op e position ih =>
    have h := ih (p := p) he
    have hbind {f : Code → Code} (g : Cell → Cell) :
        Agrees (do return f (← expr act scopes e p)) (e.constant?.map g) := by
      rw [Option.map_eq_bind]
      exact h.bind fun _ _ _ => agrees_pure
    cases op with
    | not => exact hbind _
    | complement => exact hbind _
    | negate =>
      have h' : Agrees (onPair Routine.subtract (constant 0) (expr act scopes e) p)
          (do (fun _ w => some (0 - w)) (← some (0 : Cell)) (← e.constant?)) :=
        onPair_agrees agrees_pure (ih he) fun _ _ _ => by simp
      rw [Expr.constant?, Option.map_eq_bind]
      exact h'
  | binary op a b position iha ihb =>
    obtain ⟨ha, hb⟩ := Bool.and_eq_true_iff.1 he
    have hpair {operation : Code} (hop : ∀ v w, op.eval? v w ≠ none) :
        Agrees (onPair operation (expr act scopes a) (expr act scopes b) p)
          (Expr.binary op a b position).constant? :=
      onPair_agrees (iha ha) (ihb hb) fun v w _ => hop v w
    cases op with
    | and | or =>
      exact (iha ha).bind fun _ _ _ => (ihb hb).bind fun _ _ _ => agrees_pure
    | divide | modulo =>
      exact onDivisor_agrees (iha ha) (ihb hb) fun v w => by simp [BinaryOp.eval?]
    | _ => exact hpair fun v w => by simp [BinaryOp.eval?]
  | access | update | assign | fill | call => cases he

/-! ### Running -/

/-- A state that is about what is read and written, and no cell. -/
def transmission : Matching where
  covered _ := False
  holds s σ := s.input = σ.input ∧ s.output = σ.output
  congr h _ hi ho := ⟨hi.trans h.1, ho.trans h.2⟩

theorem transmission_below : transmission.Below p := fun _ h => h.elim

/-- The code of an expression of literals and operators does not go left of where it starts. -/
theorem expr_evaluatesAt_of_closed (ctx : Context) (he : e.isClosed = true) :
    EvaluatesAt p transmission p (expr act scopes e) (Evaluation.expr ctx e) := by
  induction e using Expr.induct with
  | number | char | bool => exact constant_evaluatesAt (Nat.le_refl p) transmission_below
  | unary op e _ ih => exact unary_evaluatesAt (Nat.le_refl p) transmission_below (ih he)
  | binary op a b _ iha ihb =>
    obtain ⟨ha, hb⟩ := Bool.and_eq_true_iff.1 he
    exact binary_evaluatesAt (Nat.le_refl p) transmission_below (iha ha) (ihb hb)
      fun d hd => expr_of_constant hd
  | access | update | assign | fill | call => cases he

/-! ### Values -/

/-- What a run of code for a value leaves behind, if it starts in `s` with the head on `p`. -/
structure Settles (p : Nat) (v : Cell) (s t : State) : Prop where
  value : t.tape.getD p 0 = v
  head : t.head = p + 1
  output : t.output = s.output
  input : t.input = s.input
  lowest : t.lowest = p
  below : ∀ x < p, t.tape.getD x 0 = s.tape.getD x 0

theorem settles_of_realizes {m : Machine} {c : Code} {s : State}
    (h : m.Realizes p s (c.exec p s.config)) {t : Config} (ht : Runs p c s.config t)
    (hhead : t.head = p + 1) (hvalue : t.cells p = v) (hbelow : ∀ x < p, t.cells x = s.config.cells x)
    (hinput : t.input = s.config.input) (houtput : t.output = s.config.output) :
    ∃ n u, (∀ limit budget, n ≤ budget → m.runFrom limit budget s = .ok u) ∧ Settles p v s u := by
  obtain ⟨n, u, rfl, hu, hrun, -⟩ := h.1 t ht
  exact ⟨n, u, hrun, hvalue, hhead, Array.toList_inj.1 houtput, hinput, hu.lowest, hbelow⟩

end Lowering
end TapeC
