import TapeC.Lowering.Control
import TapeC.Proofs.Access

/-! Code for statements and what it stands for. A statement performs an evaluation if, from
every tape that matches the state before, its code comes to a tape that matches the state
after. What a statement declares is visible after it; in the end the head is behind it.
The rules here are one for each way to put statements together. -/

namespace TapeC.Lowering

open Layout Program Tape Routine Code Config Comp Evaluation

variable {F F' F'' : Frame} {p q r : Nat} {s t u : Config} {σ : Store} {a b c d : Code}
  {y y' : Eval Unit} {z : Eval Cell} {v : Cell}

/-- The end of code for a statement at `p` that starts at `s`. -/
structure Performed (F F' : Frame) (p q : Nat) (s t : Config) (σ : Store) : Prop where
  head : t.head = q
  holds : F'.Holds t σ
  keeps : F.matching.Keeps p s t

/-- The code at `p` performs the evaluation and ends at `q`, where the frame is `F'`. -/
def Performs (F F' : Frame) (p q : Nat) (c : Code) (y : Eval Unit) : Prop :=
  ∀ s σ, s.head = p → F.Holds s σ → Sim (fun t r => Performed F F' p q s t r.2) (c.exec 0 s) (y.run σ)

/-- A frame with more variables, all of them from `p` on. -/
structure Grows (F : Frame) (p : Nat) (F' : Frame) : Prop extends F'.Extends F where
  covers : ∀ x < p, F'.Covers x → F.Covers x

theorem Grows.refl : Grows F p F := ⟨.refl, fun _ _ h => h⟩

theorem Grows.trans (h : Grows F p F') (h' : Grows F' q F'') (hpq : p ≤ q) : Grows F p F'' :=
  ⟨h.toExtends.trans h'.toExtends, fun x hx hc => h.covers x hx (h'.covers x (by omega) hc)⟩

/-! ### Sequences and scopes -/

theorem skip_performs : Performs F F p p skip (pure ()) :=
  fun _ _ hs hσ => (runs_skip.2 rfl).sim ⟨hs, hσ, .refl⟩

theorem Performs.append (ha : Performs F F' p q a y) (hb : Performs F' F'' q r b y') (hpq : p ≤ q)
    (hF : Grows F p F') : Performs F F'' p r (a ++ b) (do y; y') := by
  intro s σ hs hσ
  rw [exec_append, StateT.run_bind]
  refine (ha s σ hs hσ).bind fun t r ht => ?_
  refine (hb t r.2 ht.head ht.holds).mono fun u r' hu => ⟨hu.head, hu.holds, fun x hx hc => ?_⟩
  rw [hu.keeps x (by omega) fun h => hc (hF.covers x hx h), ht.keeps x hx hc]

/-- The head goes back over what is declared inside. -/
theorem Performs.inScope (h : Performs F F' p q c y) (hpq : p ≤ q) (hF : F'.Extends F) :
    Performs F F p p (c ++ left (q - p)) (Evaluation.inScope y) := by
  intro s σ hs hσ
  simp only [Evaluation.inScope, StateT.run_bind, StateT.run_get, pure_bind]
  rw [exec_append]
  refine (h s σ hs hσ).bind fun t r ht => ?_
  refine Runs.sim ((runs_left (by rw [ht.head]; omega)).2 rfl)
    (S := fun t (r : Unit × Store) => Performed F F p p s t r.2) ⟨?_, ?_, ht.keeps⟩
  · rw [head_goto, ht.head]
    omega
  · rw [← hσ.locals.length_eq]
    exact (ht.holds.leave hF).goto

theorem inScope_pure : Evaluation.inScope (pure ()) = pure () := by
  funext σ
  change pure ((), σ.leave σ.locals.length) = pure ((), σ)
  rw [Store.leave, Nat.sub_self, List.drop_zero]

/-! ### Simple statements -/

/-- After an expression the head goes back to its value. -/
theorem Evaluates.back (h : Evaluates 0 F.matching p c z) (hs : s.head = p) (hσ : F.Holds s σ) :
    Sim (fun t r => t.head = p ∧ t.cells p = r.1 ∧ F.Holds t r.2 ∧ F.matching.Keeps p s t)
      ((c ++ left 1).exec 0 s) (z.run σ) := by
  rw [exec_append]
  refine (h s σ hs hσ).bind_left fun t r ht => ?_
  refine ⟨t.goto p, (runs_left (by rw [ht.head]; omega)).2 (by rw [ht.head]; rfl), rfl, ht.value, ?_,
    ht.keeps⟩
  exact Frame.Holds.goto ht.holds

theorem Evaluates.discard (h : Evaluates 0 F.matching p c z) :
    Performs F F p p (c ++ left 1) (do let _ ← z) := by
  intro s σ hs hσ
  rw [StateT.run_bind]
  exact (h.back hs hσ).then_right fun t r ⟨hh, _, hσ', hk⟩ => .pure ⟨hh, hσ', hk⟩

theorem writeBytes_performs {bytes : List Cell} (hF : F.Fits p) :
    Performs F F p p (writeBytes bytes) (modify fun σ => { σ with output := σ.output ++ bytes }) := by
  intro s σ hs hσ
  subst hs
  have hrun : Runs 0 (writeBytes bytes) s _ := runs_writeBytes (Nat.zero_le s.head) bytes
  have hcells : ∀ x < s.head, ((s.emit bytes).window s.head [bytes.getLastD 0, 0] 0).cells x = s.cells x :=
    fun x hx => cells_window_of_lt hx
  refine hrun.sim (S := fun t (r : Unit × Store) => Performed F F s.head s.head s t r.2)
    ⟨rfl, ?_, fun x hx _ => hcells x hx⟩
  exact hσ.transmit (fun x hx => hcells x (hF.below_matching x hx)) hσ.input (congrArg (· ++ bytes) hσ.output)

theorem giveBack_performs (h : Evaluates 0 F.matching p c z) (hF : F.Fits p) (hr : F.returnCell = some r) :
    Performs F F p p (c ++ left 1 ++ moveTo (p - r)) (do
      let v ← z
      modify ({ · with returned := v })) := by
  intro s σ hs hσ
  obtain ⟨hlt, -⟩ := hF.returned r hr
  rw [exec_append, StateT.run_bind]
  refine (h.back hs hσ).bind fun t w ⟨hh, hv, hσ', hk⟩ => ?_
  have hmove : Runs 0 (moveTo (p - r)) t ((t.put r w.1).put p 0) := by
    refine (runs_moveTo (by omega) (by omega)).2 ?_
    rw [hh, show p - (p - r) = r by omega, Config.cell, hh, hv]
  have hcells : ∀ x < p, ((t.put r w.1).put p 0).cells x = if x = r then w.1 else t.cells x :=
    fun x hx => by rw [cells_put_of_ne (by omega), cells_put]
  refine hmove.sim (S := fun t (r : Unit × Store) => Performed F F p p s t r.2)
    ⟨hh, hσ'.setReturned hF hr hcells rfl rfl, fun x hx hc => ?_⟩
  have hne : x ≠ r := by
    rintro rfl
    exact hc (.inr hr)
  rw [hcells x hx, if_neg hne, hk x hx hc]

/-! ### Branches -/

/-- An arm two cells right of its guard, which is emptied. -/
theorem arm_sim (h : Performs F F (p + 2) (p + 2) a y) (hF : F.Fits p) (hs : s.head = p + 2)
    (hσ : F.Holds s σ) :
    Sim (fun t r => t.head = p ∧ t.cells p = 0 ∧ t.cells (p + 1) = s.cells (p + 1) ∧ F.Holds t r.2 ∧
      F.matching.Keeps p s t) ((a ++ left 2 ++ clear).exec 0 s) (y.run σ) := by
  have hM := hF.below_matching
  simp only [exec_append, bind_assoc]
  refine (h s σ hs hσ).bind_left fun t r ht => ?_
  have hend : Runs 0 (left 2 ++ clear) t ((t.goto p).put p 0) :=
    ((runs_left (by rw [ht.head]; omega)).2 (by rw [ht.head]; rfl)).append (runs_clear.2 rfl)
  have hcells : ∀ x, x ≠ p → ((t.goto p).put p 0).cells x = t.cells x :=
    fun x hx => by rw [cells_put_of_ne hx, cells_goto]
  refine ⟨_, hend, rfl, cells_put_self, ?_, ?_, fun x hx hc => ?_⟩
  · rw [hcells _ (by omega), ht.keeps.cell hM (by omega) (by omega)]
  · exact ht.holds.congr (fun x hx => hcells x (Nat.ne_of_lt (hM x hx))) rfl rfl
  · rw [hcells x (by omega), ht.keeps x (by omega) hc]

theorem ifThen_performs (hc : Evaluates 0 F.matching p c z) (ha : Performs F F (p + 2) (p + 2) a y)
    (hF : F.Fits p) :
    Performs F F p p (ifThen c a) (do if (← z) ≠ 0 then y else pure ()) := by
  intro s σ hs hσ
  have hstart := hc.back hs hσ
  rw [ifThen, exec_append, StateT.run_bind]
  refine hstart.bind fun t r ht => ?_
  obtain ⟨hh, hv, hσ', hk⟩ := ht
  by_cases h0 : r.1 = 0
  · rw [if_neg (by simpa using h0)]
    have hcell : t.cell = 0 := by rw [Config.cell, hh, hv, h0]
    exact ((runs_loop_of_zero hcell).2 rfl).sim (S := fun t (r : Unit × Store) => Performed F F p p s t r.2)
      ⟨hh, hσ', hk⟩
  · rw [if_pos h0]
    have harm : Sim (fun u r' => u.head = p ∧ u.cells p = 0 ∧ F.Holds u r'.2 ∧ F.matching.Keeps p s u)
        ((right 2 ++ a ++ left 2 ++ clear).exec 0 t) (y.run r.2) := by
      have h := (runs_right.2 rfl : Runs 0 (right 2) t _).append_sim
        ((arm_sim ha hF (s := t.goto (t.head + 2)) (by rw [head_goto, hh]) hσ'.goto).mono
          (S := fun u (r' : Unit × Store) => u.head = p ∧ u.cells p = 0 ∧ F.Holds u r'.2 ∧ F.matching.Keeps p s u)
          fun u r' hu => ⟨hu.1, hu.2.1, hu.2.2.2.1, hk.trans hu.2.2.2.2 (Nat.le_refl p)⟩)
      simpa only [exec_append_eq, bind_assoc] using h
    have hloop := loop_sim (by rwa [Config.cell, hh, hv]) harm fun u r' hu => by rw [Config.cell, hu.1, hu.2.1]
    exact hloop.mono fun u r' hu => ⟨hu.1, hu.2.2.1, hu.2.2.2⟩

/-- The arm behind a guard that is up, which is taken down. -/
theorem guarded_sim (h : Performs F F (p + 2) (p + 2) b y) (hF : F.Fits p) (hs : s.head = p + 1)
    (h1 : s.cells (p + 1) = 1) (hσ : F.Holds s σ) :
    Sim (fun t r => t.head = p + 1 ∧ t.cells (p + 1) = 0 ∧ F.Holds t r.2 ∧ F.matching.Keeps p s t)
      ((right 1 ++ b ++ left 1 ++ dec 1).exec 0 s) (y.run σ) := by
  have hM := hF.below_matching
  have hright : Runs 0 (right 1) s (s.goto (p + 2)) := runs_right.2 (by rw [hs])
  simp only [exec_append, bind_assoc]
  refine hright.bind_sim ((h (s.goto (p + 2)) σ rfl hσ.goto).bind_left fun t r ht => ?_)
  have hcell : t.cells (p + 1) = 1 := (ht.keeps.cell hM (by omega) (by omega)).trans h1
  have hcells : ∀ x < p + 1, ((t.goto (p + 1)).put (p + 1) 0).cells x = t.cells x :=
    fun x hx => by rw [cells_put_of_ne (by omega), cells_goto]
  refine ⟨(t.goto (p + 1)).put (p + 1) 0, ?_, rfl, cells_put_self, ?_, fun x hx hc => ?_⟩
  · refine ((runs_left (by rw [ht.head]; omega)).2 rfl).append (runs_dec.2 ?_)
    simp [Config.store, Config.cell, ht.head, hcell]
  · exact F.matching.holds_of_below (hM.mono (by omega : p ≤ p + 1)) ht.holds hcells rfl rfl
  · rw [hcells x (by omega), ht.keeps x (by omega) hc, cells_goto]

/-- Both arms, after the condition and with the guard of the second one up. -/
theorem arms_sim (ha : Performs F F (p + 2) (p + 2) a y) (hb : Performs F F (p + 2) (p + 2) b y')
    (hF : F.Fits p) (hs : s.head = p) (h1 : s.cells (p + 1) = 1) (hσ : F.Holds s σ) :
    Sim (fun t r => Performed F F p p s t r.2)
      ((loop (right 1 ++ dec 1 ++ right 1 ++ a ++ left 2 ++ clear) ++ right 1 ++
        loop (right 1 ++ b ++ left 1 ++ dec 1) ++ left 1).exec 0 s)
      ((if s.cell ≠ 0 then y else y').run σ) := by
  have hM := hF.below_matching
  simp only [exec_append_eq, bind_assoc]
  by_cases h0 : s.cell = 0
  · rw [if_neg (by simpa using h0)]
    have hright : Runs 0 (right 1) s (s.goto (p + 1)) := runs_right.2 (by rw [hs])
    refine ((runs_loop_of_zero h0).2 rfl).bind_sim (hright.bind_sim ?_)
    have hloop := loop_sim (s := s.goto (p + 1)) (by rw [Config.cell, head_goto, cells_goto, h1]; decide)
      (guarded_sim hb hF rfl h1 hσ.goto) fun t r ht => by rw [Config.cell, ht.1, ht.2.1]
    refine hloop.bind_left fun t r ht => ?_
    obtain ⟨hh, -, hσ', hk⟩ := ht
    exact ⟨t.goto p, (runs_left (by omega)).2 (by rw [hh]; rfl), rfl, hσ'.goto, hk⟩
  · rw [if_pos h0]
    have hdown : Runs 0 (right 1 ++ dec 1 ++ right 1) s ((s.put (p + 1) 0).goto (p + 2)) :=
      ((runs_right.2 rfl).append (runs_dec.2 rfl)).append (runs_right.2 (by
        simp [Config.store, Config.cell, hs, h1]))
    have hcells : ∀ x < p + 1, ((s.put (p + 1) 0).goto (p + 2)).cells x = s.cells x :=
      fun x hx => by rw [cells_goto, cells_put_of_ne (by omega)]
    have harm : Sim (fun t r => t.head = p ∧ t.cells p = 0 ∧ t.cells (p + 1) = 0 ∧ F.Holds t r.2 ∧
        F.matching.Keeps p s t) ((right 1 ++ dec 1 ++ right 1 ++ a ++ left 2 ++ clear).exec 0 s) (y.run σ) := by
      have h := hdown.append_sim (arm_sim ha hF (s := (s.put (p + 1) 0).goto (p + 2)) rfl
        (F.matching.holds_of_below (hM.mono (by omega : p ≤ p + 1)) hσ hcells rfl rfl))
      simp only [exec_append_eq, bind_assoc] at h ⊢
      refine h.mono fun t r ht => ?_
      obtain ⟨hh, ht0, ht1, hσ', hk⟩ := ht
      exact ⟨hh, ht0, ht1.trans cells_put_self, hσ', fun x hx hc => by rw [hk x hx hc, hcells x (by omega)]⟩
    have hloop := loop_sim h0 harm fun t r ht => by rw [Config.cell, ht.1, ht.2.1]
    refine hloop.bind_left fun t r ht => ?_
    obtain ⟨hh, -, ht1, hσ', hk⟩ := ht
    have hskip : Runs 0 (loop (right 1 ++ b ++ left 1 ++ dec 1)) (t.goto (p + 1)) (t.goto (p + 1)) :=
      (runs_loop_of_zero (by rw [Config.cell, head_goto, cells_goto, ht1])).2 rfl
    have hend := ((runs_right.2 (by rw [hh])).append hskip).append
      ((runs_left (by rw [head_goto]; omega)).2 rfl : Runs 0 (left 1) (t.goto (p + 1)) (t.goto p))
    simp only [Runs, exec_append_eq, bind_assoc] at hend
    exact ⟨t.goto p, hend, rfl, hσ'.goto, hk⟩

theorem ifThenElse_performs (hc : Evaluates 0 F.matching p c z)
    (ha : Performs F F (p + 2) (p + 2) a y) (hb : Performs F F (p + 2) (p + 2) b y') (hF : F.Fits p) :
    Performs F F p p (ifThenElse c a b) (do if (← z) ≠ 0 then y else y') := by
  intro s σ hs hσ
  have hM := hF.below_matching
  simp only [ifThenElse, exec_append_eq, bind_assoc, StateT.run_bind]
  refine (hc s σ hs hσ).bind fun t r ht => ?_
  -- the guard of the second arm is raised
  have hguard : Runs 0 (clear ++ inc 1 ++ left 1) t ((t.put (p + 1) 1).goto p) := by
    refine ((runs_clear.2 rfl).append (runs_inc.2 rfl)).append ((runs_left ?_).2 ?_)
    · simp [Config.store, ht.head]
    · simp [Config.store, Config.cell, ht.head]
  have hcells : ∀ x < p + 1, ((t.put (p + 1) 1).goto p).cells x = t.cells x :=
    fun x hx => by rw [cells_goto, cells_put_of_ne (by omega)]
  have h := hguard.append_sim (arms_sim ha hb hF rfl cells_put_self
    (F.matching.holds_of_below (hM.mono (by omega : p ≤ p + 1)) ht.holds hcells rfl rfl))
  rw [show ((t.put (p + 1) 1).goto p).cell = r.1 from (hcells p (by omega)).trans ht.value] at h
  simp only [exec_append_eq, bind_assoc] at h
  refine h.mono fun u r' hu => ⟨hu.head, hu.holds, fun x hx hc => ?_⟩
  rw [hu.keeps x hx hc, hcells x (by omega), ht.keeps x hx hc]

/-! ### Loops -/

theorem repeatFrom_sim (hb : Performs F F p p b y) (hc : Evaluates 0 F.matching p c z) (hs : s.head = p)
    (hσ : F.Holds s σ) :
    Sim (fun t r => Performed F F p p s t r.2) ((loop (b ++ c ++ left 1)).exec 0 s)
      ((repeatFrom s.cell (do y; z)).run σ) := by
  have hround : ∀ t (r : Cell × Store), t.cell = r.1 ∧ Performed F F p p s t r.2 →
      Sim (fun t r => t.cell = r.1 ∧ Performed F F p p s t r.2) ((b ++ c ++ left 1).exec 0 t)
        ((do y; z : Eval Cell).run r.2) := by
    intro t r ⟨_, ht⟩
    rw [exec_append_assoc, exec_append, StateT.run_bind]
    refine (hb t r.2 ht.head ht.holds).bind fun u r' hu => ?_
    refine (hc.back hu.head hu.holds).mono fun w r'' ⟨hh, hv, hσ', hk⟩ => ⟨?_, hh, hσ', ?_⟩
    · rw [Config.cell, hh, hv]
    · exact (ht.keeps.trans hu.keeps (Nat.le_refl p)).trans hk (Nat.le_refl p)
  have htest (t : Config) (r : Cell × Store) (h : t.cell = r.1 ∧ Performed F F p p s t r.2) :
      (t.cell != 0) = (r.1 != 0) := by rw [h.1]
  have hloop := Sim.loop htest (fun t r h _ => hround t r h) (s := s) (t := (s.cell, σ))
    ⟨rfl, hs, hσ, .refl⟩
  rw [show (repeatFrom s.cell (do y; z)).run σ = _ <$> _ from rfl, map_eq_pure_bind]
  exact hloop.then_right fun t r h => .pure h.1.2

theorem repeatWhile_performs (hc : Evaluates 0 F.matching p c z) (hb : Performs F F p p b y) :
    Performs F F p p (Lowering.repeatWhile c b) (Evaluation.repeatWhile z y) := by
  intro s σ hs hσ
  rw [Lowering.repeatWhile, exec_append, Evaluation.repeatWhile, StateT.run_bind]
  refine (hc.back hs hσ).bind fun t r ⟨hh, hv, hσ', hk⟩ => ?_
  have h := repeatFrom_sim hb hc hh hσ'
  rw [Config.cell, hh, hv] at h
  exact h.mono fun u r' hu => ⟨hu.head, hu.holds, hk.trans hu.keeps (Nat.le_refl p)⟩

theorem repeatUntil_performs (hb : Performs F F p p b y) (hc : Evaluates 0 F.matching p c z)
    (hF : F.Fits p) : Performs F F p p (Lowering.repeatUntil b c) (Evaluation.repeatUntil y z) := by
  intro s σ hs hσ
  have hM := hF.below_matching
  have hstart : Runs 0 (clear ++ inc 1) s (s.put p 1) :=
    (runs_clear.2 rfl).append (runs_inc.2 (by simp [Config.store, Config.cell, hs]))
  have hcells : ∀ x < p, (s.put p 1).cells x = s.cells x := fun x hx => cells_put_of_ne (by omega)
  refine hstart.append_sim ?_
  have h := repeatFrom_sim hb hc (s := s.put p 1) hs
    (F.matching.holds_of_below hM hσ hcells rfl rfl)
  rw [Config.cell, head_put, hs, cells_put_self] at h
  exact h.mono fun u r hu => ⟨hu.head, hu.holds, fun x hx hc => (hu.keeps x hx hc).trans (hcells x hx)⟩

end TapeC.Lowering
