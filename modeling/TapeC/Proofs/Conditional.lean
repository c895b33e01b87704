import TapeC.Proofs.Guard
import TapeC.Proofs.Loading

/-! Conditional programs run exactly one arm. Their parts are any programs: all that is asked of a
part is on which cell it ends, if it ends, and that it leaves the cells of the guards as they are.
A conditional then agrees with what it means, where each arm stands once: both end in the same
configuration, or both go wrong, or neither ends. -/

namespace TapeC.Routine

open Tape Code Config Comp

variable {floor p i j flag : Nat} {s t u w : Config} {ws : List Cell} {v : Cell}
  {c condition thenArm elseArm a b start arm finish body rest inner : Code}

/-- A run of the program from the cell `p + i` ends on the cell `p + j` and leaves the cells from
`p` to before `p + i` as they are. -/
def Spans (floor p i j : Nat) (c : Code) : Prop :=
  ∀ s t, s.head = p + i → Runs floor c s t → t.head = p + j ∧ ∀ k < i, t.cells (p + k) = s.cells (p + k)

/-- A run of the program from the cell `p` ends there and leaves the cell `flag` to its right as it is. -/
def SparesFlag (floor p flag : Nat) (c : Code) : Prop :=
  ∀ s t, s.head = p → Runs floor c s t → t.head = p ∧ t.cells (p + flag) = s.cells (p + flag)

/-! ### What conditionals mean -/

/-- One of two arms, and then the cells of both guards are empty. -/
def choose (floor p : Nat) (condition thenArm elseArm : Code) (s : Config) : Comp Stray Config := do
  let t ← condition.exec floor s
  if t.cells p ≠ 0 then
    let w ← thenArm.exec floor (t.window p [t.cells p, 0] 2)
    return w.window p [0, 0] 0
  else
    let w ← elseArm.exec floor (t.window p [0, 1] 2)
    return w.window p [0, 0] 0

/-- An arm or nothing, and then the cell of the guard is empty. -/
def chooseToRun (floor p : Nat) (condition thenArm : Code) (s : Config) : Comp Stray Config := do
  let t ← condition.exec floor s
  if t.cells p ≠ 0 then
    let w ← thenArm.exec floor (t.goto (p + 2))
    return w.window p [0] 0
  else return t.window p [0] 0

/-- The second operand only if the first is not zero. -/
def conjunction (floor p : Nat) (a b : Code) (s : Config) : Comp Stray Config := do
  let t ← a.exec floor s
  if t.cells p ≠ 0 then
    let w ← b.exec floor (t.window p [0, 0] 2)
    return w.window p [Cell.ofBool (w.cells (p + 2) != 0), 0, 0] 1
  else return t.window p [0, 0] 1

/-- The second operand only if the first is zero. -/
def disjunction (floor p : Nat) (a b : Code) (s : Config) : Comp Stray Config := do
  let t ← a.exec floor s
  if t.cells p ≠ 0 then return t.window p [1, 0, 0] 1
  else
    let w ← b.exec floor (t.window p [0, 0, 0] 3)
    return w.window p [Cell.ofBool (w.cells (p + 3) != 0), 0, 0, 0] 1

/-- A program only if the cell `p` is zero. -/
def whenZero (floor p flag : Nat) (inner : Code) (s : Config) : Comp Stray Config := do
  if s.cells p = 0 then
    let w ← inner.exec floor (s.put (p + flag) 1)
    return w.put (p + flag) 0
  else return (s.put (p + flag) 0).put p 0

/-! ### Loops that run an arm once -/

theorem loop_arm_agrees {f : Config → Config} (hs : s.cell ≠ 0)
    (hbody : body.exec floor s = (start ++ arm ++ finish).exec floor s) (hstart : Runs floor start s u)
    (hfinish : ∀ w, Runs floor arm u w → Runs floor finish w (f w) ∧ (f w).cell = 0) :
    Agree (fun t w => t = f w ∧ Runs floor arm u w) ((loop body).exec floor s) (arm.exec floor u) := by
  refine .loop_once (by simpa using hs) ?_ fun t w ⟨ht, hw⟩ => by rw [ht, (hfinish w hw).2]; rfl
  rw [hbody, exec_append_assoc]
  refine append_agrees hstart ?_
  rw [exec_append]
  refine (Agree.refl (R := fun t w => t = w ∧ Runs floor arm u w) fun w hw => ⟨rfl, hw⟩).bind_left ?_
  rintro w _ ⟨rfl, hw⟩
  exact ⟨f w, (hfinish w hw).1, rfl, hw⟩

/-- A loop that runs an arm once, and what comes after it. -/
theorem loop_arm_append_agrees (start finish : Code) {f g : Config → Config} (hs : s.cell ≠ 0)
    (hbody : body.exec floor s = (start ++ arm ++ finish).exec floor s) (hstart : Runs floor start s u)
    (harm : ∀ w, Runs floor arm u w →
      Runs floor finish w (f w) ∧ (f w).cell = 0 ∧ Runs floor rest (f w) (g w)) :
    Agree Eq ((loop body ++ rest).exec floor s) (arm.exec floor u >>= fun w => pure (g w)) := by
  have hloop := loop_arm_agrees hs hbody hstart fun w hw => ⟨(harm w hw).1, (harm w hw).2.1⟩
  refine hloop.bind fun t w ⟨ht, hw⟩ => ?_
  exact .ends (ht ▸ (harm w hw).2.2) (pure_ends.2 rfl) rfl

/-! ### Conditions and arms in windows -/

/-- What a condition leads to and what comes after it, which starts with the result in the first cell. -/
theorem Spans.bind_agrees (ws : List Cell) {y : Config → Comp Stray Config} (hc : Spans floor p 0 1 condition)
    (hs : s.head = p)
    (hstart : ∀ t : Config, t.head = p + 1 → Runs floor start t (t.window p (t.cells p :: ws) 0))
    (h : ∀ t, Agree Eq (rest.exec floor (t.window p (t.cells p :: ws) 0)) (y t)) :
    Agree Eq (condition.exec floor s >>= (start ++ rest).exec floor) (condition.exec floor s >>= y) := by
  refine (Agree.refl (R := fun t u => t = u ∧ t.head = p + 1) fun t ht => ⟨rfl, (hc s t hs ht).1⟩).bind ?_
  rintro t _ ⟨rfl, ht⟩
  exact append_agrees (hstart t ht) (h t)

/-- An arm behind the cells of a window leaves these as they are. -/
theorem Spans.eq_window (ws vs : List Cell) (hc : Spans floor p ws.length j c)
    (h : Runs floor c (t.window p ws ws.length) w) (hvs : vs = w.slice (p + ws.length) vs.length) :
    w = w.window p (ws ++ vs) j := by
  obtain ⟨hhead, hcells⟩ := hc _ w rfl h
  refine eq_window_of_slice hhead (List.ext_getElem (by simp [slice]) fun k _ hk => ?_)
  by_cases hi : k < ws.length
  · simpa [slice, hi, cells_window_add hi] using hcells k hi
  · obtain ⟨m, rfl⟩ := Nat.exists_eq_add_of_le (Nat.le_of_not_lt hi)
    have hm : m < vs.length := by simpa using hk
    have hv : vs[m]? = (w.slice (p + ws.length) vs.length)[m]? := congrArg (·[m]?) hvs
    simpa [slice, hm, Nat.add_assoc, eq_comm] using hv

attribute [local simp] runs_right_window runs_left_window runs_inc_window runs_dec_window runs_clear_window
  runs_pourLeft_window runs_loop_window_of_zero runs_loop_window_of_ne window_window cell_window

/-! ### One arm or the other -/

theorem ifThenElse_agrees (hf : floor ≤ p) (hc : Spans floor p 0 1 condition) (ha : Spans floor p 2 2 thenArm)
    (hb : Spans floor p 2 2 elseArm) (hs : s.head = p) :
    Agree Eq ((ifThenElse condition thenArm elseArm).exec floor s) (choose floor p condition thenArm elseArm s) := by
  have hcode : (ifThenElse condition thenArm elseArm).exec floor s = condition.exec floor s >>=
      ((clear ++ inc 1 ++ left 1) ++ (loop (right 1 ++ dec 1 ++ right 1 ++ thenArm ++ left 2 ++ clear) ++
        (right 1 ++ (loop (right 1 ++ elseArm ++ left 1 ++ dec 1) ++ left 1)))).exec floor := by
    simp only [ifThenElse, exec_append_eq, bind_assoc]
  rw [hcode, choose]
  refine hc.bind_agrees [1] hs (fun t ht => ?_) fun t => ?_
  · have hwin : t = t.window p [t.cells p, t.cells (p + 1)] 1 := eq_window_of_slice ht rfl
    conv => arg 3; rw [hwin]
    simp [hf]
  split
  next hv =>
    refine loop_arm_append_agrees (right 1 ++ dec 1 ++ right 1) (left 2 ++ clear) (f := (window · p [0, 0] 0))
      (by simpa using hv) (by simp only [exec_append_eq, bind_assoc]) (by simp) fun w hw => ?_
    rw [ha.eq_window [_, _] [] hw rfl]
    simp [hf]
  next hv =>
    rw [ne_eq, not_not] at hv
    rw [hv, ← exec_append_assoc]
    have hstart : Runs floor (loop (right 1 ++ dec 1 ++ right 1 ++ thenArm ++ left 2 ++ clear) ++ right 1)
        (t.window p [0, 1] 0) (t.window p [0, 1] 1) := by simp
    refine append_agrees hstart (loop_arm_append_agrees (right 1) (left 1 ++ dec 1) (f := (window · p [0, 0] 1))
      (by simp) (by simp only [exec_append_eq, bind_assoc]) (by simp) fun w hw => ?_)
    rw [hb.eq_window [_, _] [] hw rfl]
    simp [hf]

theorem ifThen_agrees (hf : floor ≤ p) (hc : Spans floor p 0 1 condition) (ha : Spans floor p 2 2 thenArm)
    (hs : s.head = p) :
    Agree Eq ((ifThen condition thenArm).exec floor s) (chooseToRun floor p condition thenArm s) := by
  have hcode : (ifThen condition thenArm).exec floor s =
      condition.exec floor s >>= (left 1 ++ (loop (right 2 ++ thenArm ++ left 2 ++ clear) ++ skip)).exec floor := by
    simp only [ifThen, exec_append_eq, bind_assoc, exec, bind_pure]
  rw [hcode, chooseToRun]
  have hgoto (t : Config) (i : Nat) : t.window p [t.cells p] i = t.goto (p + i) := window_slice 1
  refine hc.bind_agrees [] hs (fun t ht => ?_) fun t => ?_
  · rw [runs_left (by omega), hgoto, ht]
    rfl
  split
  next hv =>
    refine loop_arm_append_agrees (right 2) (left 2 ++ clear) (f := (window · p [0] 0))
      (by simpa using hv) (by simp only [exec_append_eq, bind_assoc]) (runs_right_window.2 (hgoto t 2).symm)
      fun w hw => ?_
    have hwin : w = w.window p [w.cells p] 2 := eq_window_of_slice (ha _ w rfl hw).1 rfl
    rw [hwin]
    simp [hf]
  next hv =>
    rw [ne_eq, not_not] at hv
    rw [hv]
    refine .ends (a := t.window p [0] 0) ?_ (pure_ends.2 rfl) rfl
    change Runs floor _ _ _
    simp

/-! ### Short circuits -/

theorem andThen_agrees (hf : floor ≤ p) (ha : Spans floor p 0 1 a) (hb : Spans floor p 2 3 b) (hs : s.head = p) :
    Agree Eq ((andThen a b).exec floor s) (conjunction floor p a b s) := by
  have hcode : (andThen a b).exec floor s = a.exec floor s >>= ((clear ++ left 1) ++
      (loop (clear ++ right 2 ++ b ++ left 1 ++ loop (clear ++ left 1 ++ inc 1 ++ right 1) ++ left 2) ++
        (right 1 ++ pourLeft 1 1))).exec floor := by
    simp only [andThen, exec_append_eq, bind_assoc]
  rw [hcode, conjunction]
  refine ha.bind_agrees [0] hs (fun t ht => ?_) fun t => ?_
  · have hwin : t = t.window p [t.cells p, t.cells (p + 1)] 1 := eq_window_of_slice ht rfl
    conv => arg 3; rw [hwin]
    simp [hf]
  split
  next hv =>
    refine loop_arm_append_agrees (clear ++ right 2) (left 1 ++ loop (clear ++ left 1 ++ inc 1 ++ right 1) ++ left 2)
      (f := fun w => w.window p [0, Cell.ofBool (w.cells (p + 2) != 0), 0] 0)
      (by simpa using hv) (by simp only [exec_append_eq, bind_assoc]) (by simp) fun w hw => ?_
    rw [hb.eq_window [_, _] [w.cells (p + 2)] hw rfl]
    simp [hf, cells_window_add (j := 2), runs_flag_window]
  next hv =>
    rw [ne_eq, not_not] at hv
    rw [hv]
    refine .ends (a := t.window p [0, 0] 1) ?_ (pure_ends.2 rfl) rfl
    change Runs floor _ _ _
    simp [hf]

theorem orElse_agrees (hf : floor ≤ p) (ha : Spans floor p 0 1 a) (hb : Spans floor p 3 4 b) (hs : s.head = p) :
    Agree Eq ((orElse a b).exec floor s) (disjunction floor p a b s) := by
  have hcode : (orElse a b).exec floor s = a.exec floor s >>= ((clear ++ inc 1 ++ right 1 ++ clear ++ left 2) ++
      ((loop (clear ++ right 1 ++ dec 1 ++ right 1 ++ inc 1 ++ left 2) ++ right 1) ++
        (loop (dec 1 ++ right 2 ++ b ++ left 1 ++ loop (clear ++ left 1 ++ inc 1 ++ right 1) ++ left 2) ++
          (right 1 ++ pourLeft 2 1 ++ left 1)))).exec floor := by
    simp only [orElse, exec_append_eq, bind_assoc]
  rw [hcode, disjunction]
  refine ha.bind_agrees [1, 0] hs (fun t ht => ?_) fun t => ?_
  · have hwin : t = t.window p [t.cells p, t.cells (p + 1), t.cells (p + 2)] 1 := eq_window_of_slice ht rfl
    conv => arg 3; rw [hwin]
    simp [hf]
  split
  next hv =>
    refine .ends (a := t.window p [1, 0, 0] 1) ?_ (pure_ends.2 rfl) rfl
    change Runs floor _ _ _
    simp [hf, hv]
  next hv =>
    rw [ne_eq, not_not] at hv
    rw [hv]
    have hskip : Runs floor (loop (clear ++ right 1 ++ dec 1 ++ right 1 ++ inc 1 ++ left 2) ++ right 1)
        (t.window p [0, 1, 0] 0) (t.window p [0, 1, 0] 1) := by simp
    refine append_agrees hskip (loop_arm_append_agrees (dec 1 ++ right 2)
      (left 1 ++ loop (clear ++ left 1 ++ inc 1 ++ right 1) ++ left 2)
      (f := fun w => w.window p [0, 0, Cell.ofBool (w.cells (p + 3) != 0), 0] 1)
      (by simp) (by simp only [exec_append_eq, bind_assoc]) (by simp) fun w hw => ?_)
    rw [hb.eq_window [_, _, _] [w.cells (p + 3)] hw rfl]
    simp [hf, cells_window_add (j := 3), runs_flag_window]

/-! ### Tests for zero -/

theorem ifZero_agrees (hn : 0 < flag) (hf : floor ≤ p) (hi : SparesFlag floor p flag inner) (hs : s.head = p) :
    Agree Eq ((ifZero inner flag).exec floor s) (whenZero floor p flag inner s) := by
  subst hs
  rw [whenZero]
  split
  next hv =>
    have hcode : (ifZero inner flag).exec floor s = ((right flag ++ clear ++ inc 1 ++ left flag ++
        loop (right flag ++ dec 1 ++ left flag ++ clear) ++ right flag) ++
          (loop (left flag ++ inner ++ right flag ++ dec 1) ++ left flag)).exec floor s := by
      simp only [ifZero, exec_append_eq, bind_assoc]
    rw [hcode]
    refine append_agrees (runs_ifZero_start hn hf hv) (loop_arm_append_agrees (left flag) (right flag ++ dec 1)
      (f := fun w => (w.put (s.head + flag) 0).goto (s.head + flag)) (by simp [Config.cell])
      (by simp only [exec_append_eq, bind_assoc]) ((runs_left (by rw [head_goto]; omega)).2 (by simp)) fun w hw => ?_)
    obtain ⟨hhead, hflag⟩ := hi (s.put (s.head + flag) 1) w rfl hw
    have h1 : w.cells (s.head + flag) = 1 := hflag.trans cells_put_self
    refine ⟨(runs_right.2 rfl).append (runs_dec.2 ?_), by simp [Config.cell],
      (runs_left (by rw [head_goto]; omega)).2 ?_⟩
    · simp [Config.cell, store_def, hhead, h1]
    · simp [← hhead]
  next hv => exact .ends ((runs_ifZero_of_ne hn hf hv).2 rfl) (pure_ends.2 rfl) rfl

/-! ### Conditionals on the machine -/

/-- The program does what `meaning` says from every tape with the head on `p`, and so does the machine
that its text is loaded into. -/
def CarriesOut (floor p : Nat) (c : Code) (meaning : Config → Comp Stray Config) : Prop :=
  (∀ s, s.head = p → Agree Eq (c.exec floor s) (meaning s)) ∧
    ∃ m, Machine.ofString c.text = .ok m ∧ ∀ s : State, s.Sound floor → s.pc = 0 → s.head = p →
      (∀ e, ¬ (meaning s.config).Ends (.error e)) → m.Realizes floor s (meaning s.config)

theorem carriesOut_of_agrees {meaning : Config → Comp Stray Config}
    (h : ∀ s, s.head = p → Agree Eq (c.exec floor s) (meaning s)) : CarriesOut floor p c meaning := by
  obtain ⟨m, hm, hexecutes⟩ := Machine.ofString_text c
  refine ⟨h, m, hm, fun s hs hpc hhead hright => ?_⟩
  have hends {r} := (h s.config hhead).ends_iff (r := r)
  have hrealizes := hexecutes floor s hs hpc fun e => mt hends.1 (hright e)
  simpa only [Machine.Realizes, hends] using hrealizes

/-- The conditionals run exactly one arm, for all parts that keep to their cells. -/
theorem conditionals_run_one_arm (hf : floor ≤ p) :
    (∀ c a b, Spans floor p 0 1 c → Spans floor p 2 2 a → Spans floor p 2 2 b →
      CarriesOut floor p (ifThenElse c a b) (choose floor p c a b)) ∧
    (∀ c a, Spans floor p 0 1 c → Spans floor p 2 2 a →
      CarriesOut floor p (ifThen c a) (chooseToRun floor p c a)) ∧
    (∀ a b, Spans floor p 0 1 a → Spans floor p 2 3 b →
      CarriesOut floor p (andThen a b) (conjunction floor p a b)) ∧
    (∀ a b, Spans floor p 0 1 a → Spans floor p 3 4 b →
      CarriesOut floor p (orElse a b) (disjunction floor p a b)) ∧
    ∀ inner flag, 0 < flag → SparesFlag floor p flag inner →
      CarriesOut floor p (ifZero inner flag) (whenZero floor p flag inner) := by
  refine ⟨fun _ _ _ hc ha hb => carriesOut_of_agrees fun _ hs => ?_,
    fun _ _ hc ha => carriesOut_of_agrees fun _ hs => ?_, fun _ _ ha hb => carriesOut_of_agrees fun _ hs => ?_,
    fun _ _ ha hb => carriesOut_of_agrees fun _ hs => ?_, fun _ _ hn hi => carriesOut_of_agrees fun _ hs => ?_⟩
  · exact ifThenElse_agrees hf hc ha hb hs
  · exact ifThen_agrees hf hc ha hs
  · exact andThen_agrees hf ha hb hs
  · exact orElse_agrees hf ha hb hs
  · exact ifZero_agrees hn hf hi hs

/-- On a tape of ones, the arm that writes its cell runs once and the arm that would never end does not. -/
theorem conditionals_run_one_arm_writing :
    ∃ t, Runs 0 (ifThenElse (right 1) write (loop skip)) ⟨0, fun _ => 1, [], []⟩ t ∧
      t.head = 0 ∧ t.output = [1] := by
  have hc : Spans 0 0 0 1 (right 1) := by simp [Spans, runs_right]
  have ha : Spans 0 0 2 2 write := by simp [Spans, runs_write]
  have hb : Spans 0 0 2 2 (loop skip) := by
    intro s t hs ht
    by_cases h0 : s.cell = 0
    · rw [(runs_loop_of_zero h0).1 ht]
      exact ⟨hs, fun _ _ => rfl⟩
    · exact absurd ht (never_loop_skip h0 _)
  have h := ((conditionals_run_one_arm (Nat.le_refl 0)).1 _ _ _ hc ha hb).1 ⟨0, fun _ => 1, [], []⟩ rfl
  obtain ⟨t, ht, rfl⟩ := h.ends_left (pure_ends.2 rfl)
  exact ⟨_, ht, rfl, rfl⟩

end TapeC.Routine
