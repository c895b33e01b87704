import TapeC.Lowering.Basic

/-! What a lowering yields, whatever warnings it adds. The lemmas take a lowering that
succeeds apart. -/

namespace TapeC.Lowering

open Layout Program Tape

variable {α β : Type} {x : Lower α} {f : α → Lower β} {a : α} {b : β}

/-- The lowering succeeds with `a`. -/
def Lowers (x : Lower α) (a : α) : Prop := ∃ w w', x.run w = .ok (a, w')

@[simp] theorem lowers_pure {a' : α} : Lowers (pure a : Lower α) a' ↔ a' = a := by
  constructor
  · rintro ⟨w, w', h⟩
    cases h
    rfl
  · rintro rfl
    exact ⟨[], [], rfl⟩

theorem Lowers.bind (h : Lowers (x >>= f) b) : ∃ a, Lowers x a ∧ Lowers (f a) b := by
  obtain ⟨w, w'', h⟩ := h
  rw [StateT.run_bind] at h
  rcases hx : x.run w with e | ⟨a, w'⟩
  · rw [hx] at h
    cases h
  · rw [hx] at h
    exact ⟨a, ⟨w, w', hx⟩, w', w'', h⟩

@[simp] theorem not_lowers_fail {position : Position} {cause : SemanticCause} :
    ¬ Lowers (fail position cause : Lower α) a := by
  rintro ⟨w, w', h⟩
  cases h

@[simp] theorem not_lowers_throw {fault : CompileFault} : ¬ Lowers (throw fault : Lower α) a := by
  rintro ⟨w, w', h⟩
  cases h

@[simp] theorem lowers_lift {e : Except CompileFault α} : Lowers (liftM e : Lower α) a ↔ e = .ok a := by
  constructor
  · rintro ⟨w, w', h⟩
    cases e with
    | error fault => cases h
    | ok a' => cases h; rfl
  · rintro rfl
    exact ⟨[], [], rfl⟩

/-- A test that refuses is passed. -/
theorem Lowers.of_guard {c : Prop} [Decidable c] {refused : Lower β} {g : β → Lower α}
    (h : Lowers (if c then refused >>= g else x) a) (hr : ∀ b, ¬ Lowers refused b) :
    ¬ c ∧ Lowers x a := by
  by_cases hc : c
  · rw [if_pos hc] at h
    obtain ⟨b, hb, -⟩ := h.bind
    exact absurd hb (hr b)
  · rw [if_neg hc] at h
    exact ⟨hc, h⟩

/-- A test that warns changes nothing. -/
theorem Lowers.of_warning {c : Prop} [Decidable c] {warning : Lower β}
    (h : Lowers (if c then warning >>= fun _ => x else x) a) : Lowers x a := by
  by_cases hc : c
  · rw [if_pos hc] at h
    obtain ⟨_, -, h⟩ := h.bind
    exact h
  · rwa [if_neg hc] at h

end TapeC.Lowering
