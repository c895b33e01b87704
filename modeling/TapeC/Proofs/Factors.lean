import Mathlib.Algebra.Order.Group.Unbundled.Abs
import Mathlib.Algebra.Order.Ring.Int
import Mathlib.Tactic.Linarith
import TapeC.Proofs.Value

/-! The search for factors finds the cheapest of all. It looks at two steps for each count up to half
of the number. For a fixed count the cost falls with each step up to the quotient and rises behind
it, so only the two steps around the quotient matter; a count beyond half of the number does no better
than the step two with it. -/

namespace TapeC.Routine

theorem cheapest_le {α : Type} {cost : α → Nat} {first x : α} {others : List α} (h : x ∈ first :: others) :
    cost (cheapest cost first others) ≤ cost x := by
  induction others generalizing first x with
  | nil =>
    rw [List.mem_singleton.1 h]
    rfl
  | cons y ys ih =>
    change cost (cheapest cost (if cost y < cost first then y else first) ys) ≤ cost x
    split
    next hlt =>
      obtain rfl | h := List.mem_cons.1 h
      · exact (ih List.mem_cons_self).trans hlt.le
      · exact ih h
    next hge =>
      obtain rfl | h := List.mem_cons.1 h
      · exact ih List.mem_cons_self
      obtain rfl | h := List.mem_cons.1 h
      · exact (ih List.mem_cons_self).trans (Nat.le_of_not_lt hge)
      · exact ih (List.mem_cons_of_mem _ h)

namespace Factors

variable {n a b q : Int} {f : Factors}

/-! ### The candidates -/

theorem mem_candidates : f ∈ candidates n ↔ 2 ≤ f.count ∧ (f.count : Int) ≤ n / 2 ∧ 2 ≤ f.step ∧
    (f.step = (n / f.count).toNat ∨ f.step = (n / f.count).toNat + 1) ∧
      f.remainder = n - (f.count * f.step : Nat) := by
  obtain ⟨count, step, remainder⟩ := f
  simp only [candidates, List.mem_flatMap, List.mem_range'_1, List.mem_map, List.mem_filter, List.mem_cons,
    List.not_mem_nil, or_false, decide_eq_true_eq]
  constructor
  · rintro ⟨_, ⟨hcount, hle⟩, _, ⟨hstep, htwo⟩, heq⟩
    cases heq
    exact ⟨hcount, by omega, htwo, hstep, rfl⟩
  · rintro ⟨hcount, hle, htwo, hstep, rfl⟩
    exact ⟨count, ⟨hcount, by omega⟩, step, ⟨hstep, htwo⟩, rfl⟩

theorem candidates_eq_nil (h : n < 4) : candidates n = [] := by
  refine List.eq_nil_iff_forall_not_mem.2 fun f hf => ?_
  obtain ⟨hcount, hle, -⟩ := mem_candidates.1 hf
  omega

/-! ### Costs -/

/-- The cost of a number with the factors `a` and `b`. -/
def total (n a b : Int) : Int := a + b + |n - a * b|

theorem cost_eq_total (h : f ∈ candidates n) : (f.cost : Int) = total n f.count f.step := by
  obtain ⟨-, -, -, -, hremainder⟩ := mem_candidates.1 h
  simp [cost, total, hremainder]

/-- Steps below the quotient cost no less than it. -/
theorem total_le_of_le (ha : 1 ≤ a) (hb : b ≤ q) (hq : a * q ≤ n) : total n a q ≤ total n a b := by
  have hmul : (q - b) * 1 ≤ (q - b) * a := Int.mul_le_mul_of_nonneg_left ha (by omega)
  have hab : a * b ≤ a * q := Int.mul_le_mul_of_nonneg_left hb (by omega)
  rw [total, total, abs_of_nonneg (by omega), abs_of_nonneg (by omega)]
  linarith

/-- Steps that are too large cost no less than smaller ones that are too. -/
theorem total_le_of_ge (ha : 0 ≤ a) (hb : q ≤ b) (hq : n ≤ a * q) : total n a q ≤ total n a b := by
  have hab : a * q ≤ a * b := Int.mul_le_mul_of_nonneg_left hb ha
  rw [total, total, abs_of_nonpos (by omega), abs_of_nonpos (by omega)]
  omega

/-- For a count among those of the search, no step does better than the two that it looks at. -/
theorem exists_le_of_count (ha : 2 ≤ a) (han : a ≤ n / 2) (b : Int) : ∃ f ∈ candidates n, (f.cost : Int) ≤ total n a b := by
  obtain ⟨count, rfl⟩ := Int.eq_ofNat_of_zero_le (show 0 ≤ a by omega)
  have hcount : 2 ≤ count := by omega
  have hquotient : 2 ≤ n / count := Int.le_ediv_of_mul_le (by omega) (by omega)
  have hbelow : count * (n / count) ≤ n := Int.mul_ediv_self_le (by omega)
  have habove : n ≤ count * (n / count + 1) := by
    have hlt : n < count * (n / count) + count := Int.lt_mul_ediv_self_add (by omega)
    rw [Int.mul_add, Int.mul_one]
    exact hlt.le
  have hnat : ((n / count).toNat : Int) = n / count := Int.toNat_of_nonneg (by omega)
  have hcandidate (step : Nat) (htwo : 2 ≤ step) (hstep : step = (n / count).toNat ∨ step = (n / count).toNat + 1) :
      ∃ f ∈ candidates n, (f.cost : Int) = total n count step := by
    have hmem : ⟨count, step, n - (count * step : Nat)⟩ ∈ candidates n :=
      mem_candidates.2 ⟨hcount, han, htwo, hstep, rfl⟩
    exact ⟨_, hmem, cost_eq_total hmem⟩
  by_cases hb : b ≤ n / count
  · obtain ⟨f, hf, hcost⟩ := hcandidate _ (by omega) (.inl rfl)
    rw [hnat] at hcost
    exact ⟨f, hf, hcost.trans_le (total_le_of_le (by omega) hb hbelow)⟩
  · obtain ⟨f, hf, hcost⟩ := hcandidate _ (by omega) (.inr rfl)
    rw [Int.natCast_add, hnat] at hcost
    exact ⟨f, hf, hcost.trans_le (total_le_of_ge (by omega) (by omega) habove)⟩

theorem exists_le (hn : 4 ≤ n) (ha : 2 ≤ a) (hb : 2 ≤ b) : ∃ f ∈ candidates n, (f.cost : Int) ≤ total n a b := by
  by_cases han : a ≤ n / 2
  · exact exists_le_of_count ha han b
  · obtain ⟨f, hf, hle⟩ := exists_le_of_count (n := n) (Int.le_refl 2) (by omega) a
    have hswap : total n 2 a = total n a 2 := by simp only [total, Int.mul_comm 2 a, Int.add_comm 2 a]
    exact ⟨f, hf, (hle.trans_eq hswap).trans (total_le_of_ge (by omega) hb (by omega))⟩

/-! ### The search -/

theorem cost_le_of_best? (h : best? n = some f) {g : Factors} (hg : g ∈ candidates n) : f.cost ≤ g.cost := by
  unfold best? at h
  split at h
  · cases h
  next first others hc =>
    cases h
    exact cheapest_le (hc ▸ hg)

theorem exists_best? (hn : 4 ≤ n) : ∃ f, best? n = some f := by
  obtain ⟨f, hf, -⟩ := exists_le hn (Int.le_refl 2) (Int.le_refl 2)
  unfold best?
  split
  next hnil =>
    rw [hnil] at hf
    cases hf
  next => exact ⟨_, rfl⟩

/-- Numbers from four on have factors, and no two factors from two on are cheaper, whatever makes up
the difference; smaller numbers have none. -/
theorem best?_minimal (n : Int) : (n < 4 → best? n = none) ∧ (4 ≤ n → ∃ f, best? n = some f ∧
    2 ≤ f.count ∧ 2 ≤ f.step ∧ (f.count * f.step + f.remainder : Int) = n ∧
      ∀ a b : Int, 2 ≤ a → 2 ≤ b → (f.count + f.step + |f.remainder| : Int) ≤ a + b + |n - a * b|) := by
  constructor
  · intro hn
    rw [best?, candidates_eq_nil hn]
  · intro hn
    obtain ⟨f, hf⟩ := exists_best? hn
    have hmem := mem_of_best? hf
    obtain ⟨hcount, -, hstep, -, hremainder⟩ := mem_candidates.1 hmem
    refine ⟨f, hf, hcount, hstep, by rw [hremainder]; push_cast; omega, fun a b ha hb => ?_⟩
    obtain ⟨g, hg, hle⟩ := exists_le hn ha hb
    calc (f.count + f.step + |f.remainder| : Int)
      _ = f.cost := by rw [cost, ← Int.natCast_natAbs]; push_cast; rfl
      _ ≤ g.cost := Int.ofNat_le.2 (cost_le_of_best? hf hg)
      _ ≤ a + b + |n - a * b| := hle

/-- Eight times twelve and one make 97, and no other factors cost less than 21. -/
theorem best?_minimal_prime : (4 : Int) ≤ 97 ∧ best? 97 = some ⟨8, 12, 1⟩ ∧
    ∀ a b : Int, 2 ≤ a → 2 ≤ b → 21 ≤ a + b + |97 - a * b| := by
  have hbest : best? 97 = some ⟨8, 12, 1⟩ := by decide +kernel
  obtain ⟨f, hf, -, -, -, hle⟩ := (best?_minimal 97).2 (by decide)
  obtain rfl := Option.some.inj (hf.symm.trans hbest)
  exact ⟨by decide, hbest, fun a b ha hb => (by decide : (21 : Int) ≤ 8 + 12 + |1|).trans (hle a b ha hb)⟩

end Factors
end TapeC.Routine
