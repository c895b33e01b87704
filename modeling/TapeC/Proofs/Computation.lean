import Mathlib.Tactic.Common

/-! Computations that need not end. A computation is told by what it has come to
after each amount of fuel: nothing yet, a fault or a result. Loops are the only
thing that takes fuel. The relation `Sim` compares two computations: unless the
second one goes wrong, either both yield related results or neither ends. -/

namespace TapeC

/-- A computation with results in `α` and faults in `ε`. More fuel changes nothing
about one that has ended. -/
structure Comp (ε α : Type) where
  run : Nat → Option (Except ε α)
  mono : ∀ {n m r}, n ≤ m → run n = some r → run m = some r

namespace Comp

variable {ε δ α β γ σ τ : Type}

@[ext] theorem ext {x y : Comp ε α} (h : ∀ n, x.run n = y.run n) : x = y := by
  cases x; cases y; congr 1; exact funext h

/-- The computation ends with `r`. -/
def Ends (x : Comp ε α) (r : Except ε α) : Prop := ∃ n, x.run n = some r

theorem Ends.unique {x : Comp ε α} {r s : Except ε α} (hr : x.Ends r) (hs : x.Ends s) : r = s := by
  obtain ⟨n, hn⟩ := hr
  obtain ⟨m, hm⟩ := hs
  have h := x.mono (Nat.le_max_left n m) hn
  rw [x.mono (Nat.le_max_right n m) hm] at h
  exact (Option.some.inj h).symm

/-! ### Sequences -/

def ok (a : α) : Comp ε α := ⟨fun _ => some (.ok a), fun _ h => h⟩

/-- A computation that goes wrong at once. -/
def wrong (e : ε) : Comp ε α := ⟨fun _ => some (.error e), fun _ h => h⟩

/-- A computation without end. -/
def never : Comp ε α := ⟨fun _ => none, fun _ h => h⟩

/-- One computation and then another, which gets the same fuel. -/
def andThen (x : Comp ε α) (f : α → Comp ε β) : Comp ε β where
  run n :=
    match x.run n with
    | none => none
    | some (.error e) => some (.error e)
    | some (.ok a) => (f a).run n
  mono {n m r} hnm h := by
    cases hx : x.run n with
    | none => simp [hx] at h
    | some s =>
      cases s with
      | error e => simpa [hx, x.mono hnm hx] using h
      | ok a => simpa [x.mono hnm hx] using (f a).mono hnm (by simpa [hx] using h)

instance : Monad (Comp ε) where
  pure := ok
  bind := andThen

theorem run_pure (a : α) (n : Nat) : (pure a : Comp ε α).run n = some (.ok a) := rfl

theorem run_bind (x : Comp ε α) (f : α → Comp ε β) (n : Nat) :
    (x >>= f).run n = match x.run n with
      | none => none
      | some (.error e) => some (.error e)
      | some (.ok a) => (f a).run n := rfl

protected theorem id_map (x : Comp ε α) : id <$> x = x := by
  ext1 n
  change (x >>= pure).run n = _
  rw [run_bind]
  rcases h : x.run n with _ | ⟨_ | _⟩ <;> simp [run_pure]

protected theorem bind_assoc (x : Comp ε α) (f : α → Comp ε β) (g : β → Comp ε γ) :
    x >>= f >>= g = x >>= fun a => f a >>= g := by
  ext1 n
  simp only [run_bind]
  rcases h : x.run n with _ | ⟨_ | _⟩ <;> rfl

instance : LawfulMonad (Comp ε) := .mk' _ Comp.id_map (fun _ _ => rfl) Comp.bind_assoc

@[simp] theorem pure_ends {a : α} {r : Except ε α} : (pure a : Comp ε α).Ends r ↔ r = .ok a := by
  simp [Ends, run_pure, eq_comm]

@[simp] theorem wrong_ends {e : ε} {r : Except ε α} : (wrong e : Comp ε α).Ends r ↔ r = .error e := by
  simp [Ends, wrong, eq_comm]

@[simp] theorem not_never_ends {r : Except ε α} : ¬ (never : Comp ε α).Ends r := by
  simp [Ends, never]

theorem bind_ends {x : Comp ε α} {f : α → Comp ε β} {r : Except ε β} :
    (x >>= f).Ends r ↔
      (∃ e, x.Ends (.error e) ∧ r = .error e) ∨ ∃ a, x.Ends (.ok a) ∧ (f a).Ends r := by
  constructor
  · rintro ⟨n, hn⟩
    rw [run_bind] at hn
    rcases hx : x.run n with _ | ⟨e | a⟩ <;> simp only [hx] at hn
    · cases hn
    · exact .inl ⟨e, ⟨n, hx⟩, (Option.some.inj hn).symm⟩
    · exact .inr ⟨a, ⟨n, hx⟩, n, hn⟩
  · rintro (⟨e, ⟨n, hn⟩, rfl⟩ | ⟨a, ⟨n, hn⟩, m, hm⟩)
    · exact ⟨n, by simp [run_bind, hn]⟩
    · refine ⟨max n m, ?_⟩
      rw [run_bind, x.mono (Nat.le_max_left n m) hn]
      exact (f a).mono (Nat.le_max_right n m) hm

theorem bind_ends_of_ok {x : Comp ε α} {f : α → Comp ε β} {a : α} {r : Except ε β} (hx : x.Ends (.ok a)) :
    (x >>= f).Ends r ↔ (f a).Ends r := by
  rw [bind_ends]
  constructor
  · rintro (⟨_, he, -⟩ | ⟨b, hb, hr⟩)
    · cases he.unique hx
    · cases hb.unique hx
      exact hr
  · exact fun hr => .inr ⟨a, hx, hr⟩

theorem not_bind_ends {x : Comp ε α} {f : α → Comp ε β} (hx : ∀ r, ¬ x.Ends r) (r : Except ε β) :
    ¬ (x >>= f).Ends r := by
  rw [bind_ends]
  rintro (⟨e, he, -⟩ | ⟨a, ha, -⟩)
  · exact hx _ he
  · exact hx _ ha

/-! ### Loops -/

/-- What a loop has come to, with fuel for its number of rounds. -/
def loopRun (test : σ → Bool) (body : σ → Comp ε σ) : Nat → σ → Option (Except ε σ)
  | 0, _ => none
  | n + 1, s =>
    if test s then
      match (body s).run n with
      | none => none
      | some (.error e) => some (.error e)
      | some (.ok s) => loopRun test body n s
    else some (.ok s)

/-- Repeats `body` for as long as `test` holds. -/
def loop (test : σ → Bool) (body : σ → Comp ε σ) (s : σ) : Comp ε σ where
  run n := loopRun test body n s
  mono {n m r} := by
    induction n generalizing m s with
    | zero => simp [loopRun]
    | succ n ih =>
      intro hnm h
      obtain ⟨m, rfl⟩ : ∃ k, m = k + 1 := ⟨m - 1, by omega⟩
      have hnm : n ≤ m := by omega
      simp only [loopRun] at h ⊢
      split at h
      next ht =>
        rcases hb : (body s).run n with _ | ⟨e | s'⟩ <;> simp only [hb] at h
        · cases h
        · simpa [ht, (body s).mono hnm hb] using h
        · simpa [ht, (body s).mono hnm hb] using ih s' hnm h
      next ht => simpa [ht] using h

variable {test : σ → Bool} {body : σ → Comp ε σ} {s : σ} {r : Except ε σ}

theorem loop_ends_of_not (h : test s = false) : (loop test body s).Ends r ↔ r = .ok s := by
  constructor
  · rintro ⟨_ | n, hn⟩ <;> simp [loop, loopRun, h] at hn
    exact hn.symm
  · rintro rfl
    exact ⟨1, by simp [loop, loopRun, h]⟩

theorem loop_ends_of_test (h : test s = true) :
    (loop test body s).Ends r ↔ (body s >>= loop test body).Ends r := by
  constructor
  · rintro ⟨_ | n, hn⟩ <;> simp only [loop, loopRun, h, ↓reduceIte] at hn
    · cases hn
    · rcases hb : (body s).run n with _ | ⟨e | s'⟩ <;> simp only [hb] at hn
      · cases hn
      · exact ⟨n, by rw [run_bind, hb]; exact hn⟩
      · exact ⟨n, by rw [run_bind, hb]; exact hn⟩
  · rintro ⟨n, hn⟩
    rw [run_bind] at hn
    refine ⟨n + 1, ?_⟩
    simp only [loop, loopRun, h, ↓reduceIte]
    rcases hb : (body s).run n with _ | ⟨e | s'⟩ <;> simp only [hb] at hn ⊢
    · cases hn
    · exact hn
    · exact hn

/-- What holds of every way in which a loop can end. -/
theorem loop_ends_induction {motive : σ → Except ε σ → Prop}
    (stop : ∀ s, test s = false → motive s (.ok s))
    (fault : ∀ s e, test s = true → (body s).Ends (.error e) → motive s (.error e))
    (round : ∀ s s' r, test s = true → (body s).Ends (.ok s') → (loop test body s').Ends r →
      motive s' r → motive s r)
    (h : (loop test body s).Ends r) : motive s r := by
  obtain ⟨n, hn⟩ := h
  induction n generalizing s with
  | zero => cases hn
  | succ n ih =>
    simp only [loop, loopRun] at hn
    split at hn
    next ht =>
      rcases hb : (body s).run n with _ | ⟨e | s'⟩ <;> simp only [hb] at hn
      · cases hn
      · cases hn
        exact fault s e ht ⟨n, hb⟩
      · exact round s s' r ht ⟨n, hb⟩ ⟨n, hn⟩ (ih hn)
    next ht =>
      cases hn
      exact stop s (by simpa using ht)

/-! ### Simulation -/

/-- Unless `y` goes wrong, `x` ends if and only if `y` does, and then with results
that are related. -/
def Sim (R : α → β → Prop) (x : Comp ε α) (y : Comp δ β) : Prop :=
  (∀ e, ¬ y.Ends (.error e)) →
    (∀ r, x.Ends r → ∃ a b, r = .ok a ∧ y.Ends (.ok b) ∧ R a b) ∧
    ∀ b, y.Ends (.ok b) → ∃ a, x.Ends (.ok a) ∧ R a b

variable {R S : α → β → Prop} {x x' : Comp ε α} {y y' : Comp δ β}

theorem Sim.mono (h : Sim R x y) (hRS : ∀ a b, R a b → S a b) : Sim S x y := by
  intro hw
  obtain ⟨h₁, h₂⟩ := h hw
  refine ⟨fun r hr => ?_, fun b hb => ?_⟩
  · obtain ⟨a, b, rfl, hb, hab⟩ := h₁ r hr
    exact ⟨a, b, rfl, hb, hRS a b hab⟩
  · obtain ⟨a, ha, hab⟩ := h₂ b hb
    exact ⟨a, ha, hRS a b hab⟩

theorem Sim.congr_left (h : Sim R x y) (hx : ∀ r, x'.Ends r ↔ x.Ends r) : Sim R x' y := by
  intro hw
  simpa only [hx] using h hw

theorem Sim.congr_right (h : Sim R x y) (hy : ∀ r, y'.Ends r ↔ y.Ends r) : Sim R x y' := by
  intro hw
  simp only [hy] at hw ⊢
  exact h hw

theorem Sim.of_wrong {e : δ} (h : y.Ends (.error e)) : Sim R x y := fun hw => absurd h (hw e)

/-- Two computations that both end. -/
theorem Sim.of_ends {a : α} {b : β} (ha : x.Ends (.ok a)) (hb : y.Ends (.ok b)) (h : R a b) :
    Sim R x y := by
  refine fun _ => ⟨fun _ hr => ⟨a, b, hr.unique ha, hb, h⟩, fun _ hb' => ⟨a, ha, ?_⟩⟩
  cases hb'.unique hb
  exact h

theorem Sim.pure {a : α} {b : β} (h : R a b) :
    Sim R (Pure.pure a : Comp ε α) (Pure.pure b : Comp δ β) :=
  .of_ends (by simp) (by simp) h

/-- Two computations of which neither ends. -/
theorem Sim.of_never (hx : ∀ r, ¬ x.Ends r) (hy : ∀ r, ¬ y.Ends r) : Sim R x y :=
  fun _ => ⟨fun r hr => absurd hr (hx r), fun _ hb => absurd hb (hy _)⟩

theorem Sim.bind {α' β' : Type} {S : α' → β' → Prop} {f : α → Comp ε α'} {g : β → Comp δ β'}
    (h : Sim R x y) (hfg : ∀ a b, R a b → Sim S (f a) (g b)) : Sim S (x >>= f) (y >>= g) := by
  intro hw
  have hy : ∀ e, ¬ y.Ends (.error e) := fun e he => hw e (bind_ends.2 (.inl ⟨e, he, rfl⟩))
  have hg : ∀ b, y.Ends (.ok b) → ∀ e, ¬ (g b).Ends (.error e) :=
    fun b hb e he => hw e (bind_ends.2 (.inr ⟨b, hb, he⟩))
  obtain ⟨h₁, h₂⟩ := h hy
  constructor
  · intro r hr
    rcases bind_ends.1 hr with ⟨e, he, -⟩ | ⟨a, ha, hf⟩
    · obtain ⟨_, _, h, -⟩ := h₁ _ he
      cases h
    · obtain ⟨a', b, h, hb, hab⟩ := h₁ _ ha
      cases h
      obtain ⟨c, d, rfl, hd, hcd⟩ := (hfg a b hab (hg b hb)).1 r hf
      exact ⟨c, d, rfl, bind_ends.2 (.inr ⟨b, hb, hd⟩), hcd⟩
  · intro d hd
    rcases bind_ends.1 hd with ⟨e, -, he⟩ | ⟨b, hb, hgd⟩
    · cases he
    · obtain ⟨a, ha, hab⟩ := h₂ b hb
      obtain ⟨c, hc, hcd⟩ := (hfg a b hab (hg b hb)).2 d hgd
      exact ⟨c, bind_ends.2 (.inr ⟨a, ha, hc⟩), hcd⟩

/-- A computation that the other side does nothing for. -/
theorem Sim.bind_left {α' : Type} {S : α' → β → Prop} {f : α → Comp ε α'} (h : Sim R x y)
    (hf : ∀ a b, R a b → ∃ c, (f a).Ends (.ok c) ∧ S c b) : Sim S (x >>= f) y := by
  have := h.bind (f := f) (g := Pure.pure) (S := S) fun a b hab => by
    obtain ⟨c, hc, hcb⟩ := hf a b hab
    exact .of_ends hc (by simp) hcb
  simpa using this

theorem Sim.bind_right {β' : Type} {S : α → β' → Prop} {g : β → Comp δ β'} (h : Sim R x y)
    (hg : ∀ a b, R a b → ∃ c, (g b).Ends (.ok c) ∧ S a c) : Sim S x (y >>= g) := by
  have := h.bind (f := Pure.pure) (g := g) (S := S) fun a b hab => by
    obtain ⟨c, hc, hac⟩ := hg a b hab
    exact .of_ends (by simp) hc hac
  simpa using this

/-- A step that only the second computation takes. -/
theorem Sim.then_right {β' : Type} {S : α → β' → Prop} {g : β → Comp δ β'} (h : Sim R x y)
    (hg : ∀ a b, R a b → Sim S (Pure.pure a : Comp ε α) (g b)) : Sim S x (y >>= g) := by
  have := h.bind (f := Pure.pure) hg
  rwa [bind_pure] at this

/-- A start of the second computation that goes wrong or has a known result. -/
theorem Sim.of_start {β' : Type} {S : α → β' → Prop} {g : β → Comp δ β'}
    (hy : (∃ e, y.Ends (.error e)) ∨ ∃ b, y.Ends (.ok b) ∧ Sim S x (g b)) : Sim S x (y >>= g) := by
  rcases hy with ⟨e, he⟩ | ⟨b, hb, h⟩
  · exact .of_wrong (bind_ends.2 (.inl ⟨e, he, rfl⟩))
  · exact h.congr_right fun r => bind_ends_of_ok hb

theorem map_ends {f : α → β} {x : Comp ε α} {r : Except ε β} :
    (f <$> x).Ends r ↔ ∃ r', x.Ends r' ∧ r = r'.map f := by
  rw [map_eq_pure_bind, bind_ends]
  constructor
  · rintro (⟨e, he, rfl⟩ | ⟨a, ha, hr⟩)
    · exact ⟨_, he, rfl⟩
    · exact ⟨_, ha, pure_ends.1 hr⟩
  · rintro ⟨e | a, h, rfl⟩
    · exact .inl ⟨e, h, rfl⟩
    · exact .inr ⟨a, h, pure_ends.2 rfl⟩

theorem Sim.of_map {β' : Type} {S : α → β' → Prop} {g : β → β'} (h : Sim S x (g <$> y)) :
    Sim (fun a b => S a (g b)) x y := by
  intro hw
  obtain ⟨h₁, h₂⟩ := h fun e he => by
    obtain ⟨_ | b, hr, he⟩ := map_ends.1 he
    · exact hw _ hr
    · cases he
  refine ⟨fun r hr => ?_, fun b hb => h₂ (g b) (map_ends.2 ⟨_, hb, rfl⟩)⟩
  obtain ⟨a, b', rfl, hb', hab⟩ := h₁ r hr
  obtain ⟨_ | b, hb, h⟩ := map_ends.1 hb'
  · cases h
  · cases h
    exact ⟨a, b, rfl, hb, hab⟩

/-- Two loops whose states stay related go round equally often. -/
theorem Sim.loop {R : σ → τ → Prop} {test' : τ → Bool} {body' : τ → Comp δ τ}
    (htest : ∀ s t, R s t → test s = test' t)
    (hbody : ∀ s t, R s t → test s = true → Sim R (body s) (body' t)) {s : σ} {t : τ} (h : R s t) :
    Sim (fun s t => R s t ∧ test s = false) (loop test body s) (loop test' body' t) := by
  intro hw
  -- a round of the second loop does not go wrong, and leaves a loop that does not either
  have step : ∀ t, test' t = true → (∀ e, ¬ (Comp.loop test' body' t).Ends (.error e)) →
      (∀ e, ¬ (body' t).Ends (.error e)) ∧
        ∀ t', (body' t).Ends (.ok t') → ∀ e, ¬ (Comp.loop test' body' t').Ends (.error e) := by
    intro t ht hw
    refine ⟨fun e he => hw e ?_, fun t' ht' e he => hw e ?_⟩
    · exact (loop_ends_of_test ht).2 (bind_ends.2 (.inl ⟨e, he, rfl⟩))
    · exact (loop_ends_of_test ht).2 (bind_ends.2 (.inr ⟨t', ht', he⟩))
  constructor
  · intro r hr
    refine loop_ends_induction (motive := fun s r => ∀ t, R s t →
      (∀ e, ¬ (Comp.loop test' body' t).Ends (.error e)) → ∃ a b, r = .ok a ∧
        (Comp.loop test' body' t).Ends (.ok b) ∧ R a b ∧ test a = false) ?_ ?_ ?_ hr t h hw
    · intro s hs t h _
      exact ⟨s, t, rfl, (loop_ends_of_not (by rw [← htest s t h, hs])).2 rfl, h, hs⟩
    · intro s e hs he t h hw
      have ht : test' t = true := by rw [← htest s t h, hs]
      obtain ⟨_, _, hr, -⟩ := (hbody s t h hs (step t ht hw).1).1 _ he
      cases hr
    · intro s s' r hs hb _ ih t h hw
      have ht : test' t = true := by rw [← htest s t h, hs]
      obtain ⟨_, t', hr, hb', h'⟩ := (hbody s t h hs (step t ht hw).1).1 _ hb
      cases hr
      obtain ⟨a, b, rfl, hb, hab⟩ := ih t' h' ((step t ht hw).2 t' hb')
      exact ⟨a, b, rfl, (loop_ends_of_test ht).2 (bind_ends.2 (.inr ⟨t', hb', hb⟩)), hab⟩
  · intro b hb
    refine loop_ends_induction (motive := fun t r => ∀ s b, R s t → r = .ok b →
      (∀ e, ¬ (Comp.loop test' body' t).Ends (.error e)) → ∃ a,
        (Comp.loop test body s).Ends (.ok a) ∧ R a b ∧ test a = false) ?_ ?_ ?_ hb s b h rfl hw
    · intro t ht s b h hb _
      cases hb
      have hs : test s = false := by rw [htest s t h, ht]
      exact ⟨s, (loop_ends_of_not hs).2 rfl, h, hs⟩
    · intro t e _ _ s b _ he
      cases he
    · intro t t' r ht hb' _ ih s b h hr hw
      have hs : test s = true := by rw [htest s t h, ht]
      obtain ⟨s', hs', h'⟩ := (hbody s t h hs (step t ht hw).1).2 t' hb'
      obtain ⟨a, ha, hab⟩ := ih s' b h' hr ((step t ht hw).2 t' hb')
      exact ⟨a, (loop_ends_of_test hs).2 (bind_ends.2 (.inr ⟨s', hs', ha⟩)), hab⟩

/-- A loop whose body leaves it runs at most once. -/
theorem Sim.loop_once {R : σ → β → Prop} {y : Comp δ β} (hs : test s = true)
    (h : Sim R (body s) y) (hR : ∀ s b, R s b → test s = false) : Sim R (Comp.loop test body s) y := by
  refine (h.bind_left (f := Comp.loop test body) fun a b hab => ?_).congr_left
    fun _ => loop_ends_of_test hs
  exact ⟨a, (loop_ends_of_not (hR a b hab)).2 rfl, hab⟩

theorem Sim.refl {x : Comp ε α} : Sim Eq x x := by
  refine fun hw => ⟨fun r hr => ?_, fun a ha => ⟨a, ha, rfl⟩⟩
  cases r with
  | error e => exact absurd hr (hw e)
  | ok a => exact ⟨a, a, rfl, hr, rfl⟩

theorem Sim.trans {y : Comp δ α} {z : Comp δ β} (h : Sim Eq x y) (h' : Sim R y z) : Sim R x z := by
  intro hw
  obtain ⟨h₁', h₂'⟩ := h' hw
  obtain ⟨h₁, h₂⟩ := h fun e he => by
    obtain ⟨_, _, h, -⟩ := h₁' _ he
    cases h
  refine ⟨fun r hr => ?_, fun b hb => ?_⟩
  · obtain ⟨a, _, rfl, ha, rfl⟩ := h₁ r hr
    obtain ⟨_, b, h, hb, hab⟩ := h₁' _ ha
    cases h
    exact ⟨a, b, rfl, hb, hab⟩
  · obtain ⟨a, ha, hab⟩ := h₂' b hb
    obtain ⟨_, ha', rfl⟩ := h₂ a ha
    exact ⟨_, ha', hab⟩

/-! ### Agreement -/

/-- Both computations end, with results that are related or with the same fault, or neither does. -/
inductive Agree (R : α → β → Prop) (x : Comp ε α) (y : Comp ε β) : Prop where
  | ends {a : α} {b : β} (hx : x.Ends (.ok a)) (hy : y.Ends (.ok b)) (h : R a b)
  | wrong {e : ε} (hx : x.Ends (.error e)) (hy : y.Ends (.error e))
  | never (hx : ∀ r, ¬ x.Ends r) (hy : ∀ r, ¬ y.Ends r)

namespace Agree

variable {R S : α → β → Prop} {x x' : Comp ε α} {y y' : Comp ε β}

theorem mono (h : Agree R x y) (hRS : ∀ a b, R a b → S a b) : Agree S x y := by
  cases h with
  | ends hx hy h => exact .ends hx hy (hRS _ _ h)
  | wrong hx hy => exact .wrong hx hy
  | never hx hy => exact .never hx hy

theorem congr_left (h : Agree R x y) (hx' : ∀ r, x'.Ends r ↔ x.Ends r) : Agree R x' y := by
  cases h with
  | ends hx hy h => exact .ends ((hx' _).2 hx) hy h
  | wrong hx hy => exact .wrong ((hx' _).2 hx) hy
  | never hx hy => exact .never (fun r => mt (hx' r).1 (hx r)) hy

theorem congr_right (h : Agree R x y) (hy' : ∀ r, y'.Ends r ↔ y.Ends r) : Agree R x y' := by
  cases h with
  | ends hx hy h => exact .ends hx ((hy' _).2 hy) h
  | wrong hx hy => exact .wrong hx ((hy' _).2 hy)
  | never hx hy => exact .never hx fun r => mt (hy' r).1 (hy r)

/-- A computation agrees with itself as far as its results are known. -/
theorem refl {R : α → α → Prop} (h : ∀ a, x.Ends (.ok a) → R a a) : Agree R x x := by
  by_cases hx : ∃ r, x.Ends r
  · obtain ⟨e | a, hx⟩ := hx
    · exact .wrong hx hx
    · exact .ends hx hx (h a hx)
  · exact .never (fun r hr => hx ⟨r, hr⟩) fun r hr => hx ⟨r, hr⟩

theorem bind {α' β' : Type} {S : α' → β' → Prop} {f : α → Comp ε α'} {g : β → Comp ε β'} (h : Agree R x y)
    (hfg : ∀ a b, R a b → Agree S (f a) (g b)) : Agree S (x >>= f) (y >>= g) := by
  cases h with
  | @ends a b hx hy h =>
    have hf (r) : (x >>= f).Ends r ↔ (f a).Ends r := bind_ends_of_ok hx
    have hg (r) : (y >>= g).Ends r ↔ (g b).Ends r := bind_ends_of_ok hy
    cases hfg a b h with
    | ends hx' hy' h' => exact .ends ((hf _).2 hx') ((hg _).2 hy') h'
    | wrong hx' hy' => exact .wrong ((hf _).2 hx') ((hg _).2 hy')
    | never hx' hy' => exact .never (fun r => mt (hf r).1 (hx' r)) fun r => mt (hg r).1 (hy' r)
  | wrong hx hy => exact .wrong (bind_ends.2 (.inl ⟨_, hx, rfl⟩)) (bind_ends.2 (.inl ⟨_, hy, rfl⟩))
  | never hx hy => exact .never (not_bind_ends hx) (not_bind_ends hy)

/-- A computation that the other side does nothing for. -/
theorem bind_left {α' : Type} {S : α' → β → Prop} {f : α → Comp ε α'} (h : Agree R x y)
    (hf : ∀ a b, R a b → ∃ c, (f a).Ends (.ok c) ∧ S c b) : Agree S (x >>= f) y := by
  have := h.bind (g := pure) (S := S) fun a b hab => by
    obtain ⟨c, hc, hcb⟩ := hf a b hab
    exact .ends hc (pure_ends.2 rfl) hcb
  rwa [bind_pure] at this

theorem ends_left {b : β} (h : Agree R x y) (hy : y.Ends (.ok b)) : ∃ a, x.Ends (.ok a) ∧ R a b := by
  cases h with
  | ends hx hy' h =>
    cases hy'.unique hy
    exact ⟨_, hx, h⟩
  | wrong _ hy' => cases hy'.unique hy
  | never _ hy' => exact absurd hy (hy' _)

theorem ends_iff {x y : Comp ε α} (h : Agree Eq x y) {r : Except ε α} : x.Ends r ↔ y.Ends r := by
  cases h with
  | ends hx hy h =>
    subst h
    exact ⟨fun hr => hr.unique hx ▸ hy, fun hr => hr.unique hy ▸ hx⟩
  | wrong hx hy => exact ⟨fun hr => hr.unique hx ▸ hy, fun hr => hr.unique hy ▸ hx⟩
  | never hx hy => exact ⟨fun hr => absurd hr (hx r), fun hr => absurd hr (hy r)⟩

/-- A loop whose body leaves it runs at most once. -/
theorem loop_once {R : σ → β → Prop} {y : Comp ε β} {body : σ → Comp ε σ} (hs : test s = true)
    (h : Agree R (body s) y) (hR : ∀ s b, R s b → test s = false) : Agree R (Comp.loop test body s) y := by
  refine (h.bind_left (f := Comp.loop test body) fun a b hab => ?_).congr_left fun _ => loop_ends_of_test hs
  exact ⟨a, (loop_ends_of_not (hR a b hab)).2 rfl, hab⟩

end Agree

/-! ### Results of which something is known -/

/-- Any result that the computation has satisfies `P`, and any fault satisfies `E`. -/
structure Ensures (E : ε → Prop) (P : α → Prop) (x : Comp ε α) : Prop where
  ok : ∀ a, x.Ends (.ok a) → P a
  error : ∀ e, x.Ends (.error e) → E e

variable {E : ε → Prop} {P Q : α → Prop}

theorem Ensures.mono (h : x.Ensures E P) (hPQ : ∀ a, P a → Q a) : x.Ensures E Q :=
  ⟨fun a ha => hPQ a (h.ok a ha), h.error⟩

theorem Ensures.of_ends {a : α} (h : x.Ends (.ok a)) (ha : P a) : x.Ensures E P where
  ok b hb := by
    cases hb.unique h
    exact ha
  error e he := by cases he.unique h

theorem Ensures.of_wrong {e : ε} (h : E e) : (wrong e : Comp ε α).Ensures E P where
  ok a ha := by cases wrong_ends.1 ha
  error f hf := by
    cases wrong_ends.1 hf
    exact h

theorem Ensures.bind {P : α → Prop} {Q : β → Prop} {f : α → Comp ε β} (h : x.Ensures E P)
    (hf : ∀ a, P a → (f a).Ensures E Q) : (x >>= f).Ensures E Q where
  ok b hb := by
    rcases bind_ends.1 hb with ⟨e, -, he⟩ | ⟨a, ha, hb⟩
    · cases he
    · exact (hf a (h.ok a ha)).ok b hb
  error e he := by
    rcases bind_ends.1 he with ⟨e', he', heq⟩ | ⟨a, ha, he⟩
    · cases heq
      exact h.error e he'
    · exact (hf a (h.ok a ha)).error e he

theorem Ensures.loop {E : ε → Prop} {I : σ → Prop} (hI : ∀ s, I s → test s = true → (body s).Ensures E I)
    (hs : I s) : (Comp.loop test body s).Ensures E fun s => I s ∧ test s = false := by
  have hends {r : Except ε σ} (hr : (Comp.loop test body s).Ends r) :
      (∀ a, r = .ok a → I a ∧ test a = false) ∧ ∀ e, r = .error e → E e := by
    refine loop_ends_induction (motive := fun s r => I s →
      (∀ a, r = .ok a → I a ∧ test a = false) ∧ ∀ e, r = .error e → E e) ?_ ?_ ?_ hr hs
    · exact fun s ht hs => ⟨by rintro _ ⟨⟩; exact ⟨hs, ht⟩, nofun⟩
    · exact fun s e ht he hs => ⟨nofun, by rintro _ ⟨⟩; exact (hI s hs ht).error e he⟩
    · exact fun s s' r ht hb _ ih hs => ih ((hI s hs ht).ok s' hb)
  exact ⟨fun a ha => (hends ha).1 a rfl, fun e he => (hends he).2 e rfl⟩

end Comp
end TapeC
