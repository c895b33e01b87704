import TapeC.Lowering.Switch
import TapeC.Proofs.Scoping
import Mathlib.Data.List.TakeWhile

/-! A `switch` runs the arms from the selected one on. Its arms fall into groups that share
a body, no two of which have a label in common; the groups are tested one after another. -/

namespace TapeC.Lowering

open Layout Program Tape Routine Code Config Comp Evaluation

variable {act : Activation} {ctx : Context} {F : Frame} {scopes : Scopes} {c : Code}

/-! ### Labels -/

section Tests

variable {floor p : Nat} {s t : Config} {v label f a b : Cell}

attribute [local simp] runs_right_window runs_left_window runs_inc_window runs_dec_window
  runs_clear_window runs_pourLeft_window runs_spreadRight_window runs_loop_window_of_zero
  runs_loop_window_of_ne

/-- A flag is raised if the value left of it is the label. -/
theorem runs_testLabel (hf : floor ≤ p) :
    Runs floor (testLabel label) (s.window p [v, f, a, b] 1)
      (s.window p [v, f + Cell.ofBool (v == label), 0, 0] 1) := by
  have hcopy : Runs floor (right 1 ++ copyFrom 2 ++ left 1) (s.window p [v, f, a, b] 1)
      (s.window p [v, f, v, 0] 2) := by
    simp [copyFrom, hf]
  have e (ws : List Cell) : s.window p ([v, f] ++ ws) 2 = (s.window p [v, f] 0).window (p + 2) ws 0 :=
    window_append_right (i := 0)
  obtain ⟨y, hset, -⟩ := runs_setCell_add 0 label v true (s := s.window p [v, f] 0) (x := 0)
    (show floor ≤ p + 2 by omega) (.inr rfl)
  rw [← e, ← e] at hset
  have htest : Runs floor (right 1 ++ clear ++ inc 1 ++ left 1 ++
      loop (clear ++ right 1 ++ dec 1 ++ left 1) ++ right 1 ++
        loop (dec 1 ++ left 2 ++ inc 1 ++ right 2) ++ left 2) (s.window p [v, f, v + (0 - label), y] 2)
      (s.window p [v, f + Cell.ofBool (v == label), 0, 0] 1) := by
    have hd : v + (0 - label) = 0 ↔ v = label := by grind
    generalize v + (0 - label) = d at hd
    by_cases h : d = 0
    · simp [hf, h, hd.1 h, Cell.ofBool]
    · simp [hf, h, mt hd.2 h, Cell.ofBool]
  have hrun := (hcopy.append hset).append htest
  simp only [Runs, testLabel, exec_append_eq, bind_assoc] at hrun ⊢
  exact hrun

/-- All labels of a group are tested. -/
theorem runs_testLabels (hf : floor ≤ p) (labels : List Cell) :
    ∃ x y, Runs floor (concat (labels.map testLabel)) (s.window p [v, f, a, b] 1)
      (s.window p [v, f + .ofNat (labels.count v), x, y] 1) := by
  induction labels generalizing f a b with
  | nil => exact ⟨a, b, runs_skip.2 (by simp)⟩
  | cons label labels ih =>
    obtain ⟨x, y, h⟩ := ih (f := f + Cell.ofBool (v == label)) (a := 0) (b := 0)
    refine ⟨x, y, runs_concat_cons.2 ⟨_, runs_testLabel hf, ?_⟩⟩
    have hcount : f + Cell.ofBool (v == label) + .ofNat (labels.count v) =
        f + .ofNat ((label :: labels).count v) := by
      by_cases hv : v = label
      · simp [hv, Cell.ofBool, UInt8.add_assoc, UInt8.add_comm 1]
      · simp [hv, Cell.ofBool, List.count_cons_of_ne (Ne.symm hv)]
    rwa [← hcount]

end Tests

/-- The label of an arm; there is none on the arm for all other values. -/
def labelOf (c : Case Statement) : Option Cell :=
  match c.label with
  | .value e => e.constant?
  | .default => none

/-- Whether a group has a label, or is that for all other values. -/
def Group.has (g : Group) : Option Cell → Bool
  | none => g.hasDefault
  | some v => g.labels.contains v

def Group.add (g : Group) : Option Cell → Group
  | none => { g with hasDefault := true }
  | some v => { g with labels := g.labels ++ [v] }

@[simp] theorem Group.has_empty {l : Option Cell} : ({} : Group).has l = false := by
  cases l <;> simp [has]

theorem Group.has_add {g : Group} {l k : Option Cell} : (g.add l).has k = (g.has k || l == k) := by
  cases l <;> cases k <;> simp [add, has, beq_eq_decide, eq_comm]

/-- Whether a label has been seen. -/
def Labels.has (seen : Labels) : Option Cell → Bool
  | none => seen.hasDefault
  | some v => seen.values.contains v

def Labels.add (seen : Labels) : Option Cell → Labels
  | none => { seen with hasDefault := true }
  | some v => { seen with values := v :: seen.values }

theorem Labels.has_add {seen : Labels} {l k : Option Cell} : (seen.add l).has k = (seen.has k || l == k) := by
  cases l <;> cases k <;> simp [add, has, Bool.or_comm, beq_eq_decide, eq_comm]

variable {seen seen' : Labels} {group group' : Group} {gs : List Group} {as : List Arm}
  {bs : List Evaluation.Arm}

theorem addLabel_lowers {k : Case Statement} (h : Lowers (addLabel seen group k) (seen', group')) :
    seen.has (labelOf k) = false ∧ seen' = seen.add (labelOf k) ∧ group' = group.add (labelOf k) := by
  rw [addLabel] at h
  split at h
  next hk =>
    obtain ⟨hseen, h⟩ := Lowers.of_guard h fun _ => not_lowers_fail
    cases lowers_pure.1 h
    rw [labelOf, hk]
    exact ⟨by simpa [Labels.has] using hseen, rfl, rfl⟩
  next e hk =>
    have hlabel : labelOf k = e.constant? := by rw [labelOf, hk]
    rw [hlabel]
    cases hv : e.constant? with
    | none =>
      rw [hv] at h
      exact absurd h not_lowers_fail
    | some v =>
      rw [hv] at h
      obtain ⟨hseen, h⟩ := Lowers.of_guard h fun _ => not_lowers_fail
      cases lowers_pure.1 h
      exact ⟨by simpa [Labels.has] using hseen, rfl, rfl⟩

/-- The first arm either closes its group or is taken together with the next one. -/
theorem groupArms_lowers {arm : Arm} (h : Lowers (groupArms seen group (arm :: as)) gs) :
    seen.has (labelOf arm.case) = false ∧
      ((∃ more, Lowers (groupArms (seen.add (labelOf arm.case)) {} as) more ∧
          gs = { group.add (labelOf arm.case) with arms := arm :: as } :: more) ∨
        arm.case.body = [] ∧ arm.case.hasBreak = false ∧ as ≠ [] ∧
          Lowers (groupArms (seen.add (labelOf arm.case)) (group.add (labelOf arm.case)) as) gs) := by
  rw [groupArms] at h
  obtain ⟨⟨seen', group'⟩, hadd, h⟩ := h.bind
  obtain ⟨hnew, rfl, rfl⟩ := addLabel_lowers hadd
  refine ⟨hnew, ?_⟩
  cases hd : declared? arm.case.body with
  | some d =>
    rw [hd] at h
    obtain ⟨_, h, _⟩ := h.bind
    exact absurd h not_lowers_fail
  | none =>
    rw [hd] at h
    replace h := Lowers.of_warning h
    split at h
    next =>
      obtain ⟨more, hmore, h⟩ := h.bind
      cases lowers_pure.1 h
      exact .inl ⟨more, hmore, rfl⟩
    next hopen =>
      simp only [Bool.or_eq_true, Bool.not_eq_true', List.isEmpty_eq_false_iff, not_or, ne_eq,
        Decidable.not_not, Bool.not_eq_true, List.isEmpty_iff] at hopen
      exact .inr ⟨hopen.1.1, hopen.1.2, hopen.2, h⟩

/-! ### Groups -/

/-- No label is in two groups, nor in one of them twice. -/
structure Distinct (gs : List Group) : Prop where
  apart : gs.Pairwise fun g h => ∀ l, g.has l = true → h.has l = false
  once : ∀ g ∈ gs, g.labels.Nodup

namespace Distinct

variable {g g' : Group} {l : Option Cell} {v : Cell}

theorem of_cons (h : Distinct (g :: gs)) : Distinct gs where
  apart := (List.pairwise_cons.1 h.apart).2
  once g' hg' := h.once g' (List.mem_cons_of_mem g hg')

theorem has_of_cons (h : Distinct (g :: gs)) (hg' : g' ∈ gs) (hl : g.has l = true) : g'.has l = false :=
  (List.pairwise_cons.1 h.apart).1 g' hg' l hl

theorem count (h : Distinct gs) (hg : g ∈ gs) (hv : g.has (some v) = true) : g.labels.count v = 1 :=
  (h.once g hg).count.trans (if_pos (by simpa [Group.has] using hv))

end Distinct

theorem Group.count_eq_zero {g : Group} {v : Cell} (h : g.has (some v) = false) : g.labels.count v = 0 :=
  List.count_eq_zero.2 (by simpa [Group.has] using h)

theorem Distinct.cons {g : Group} (h : Distinct gs) (hg : ∀ h ∈ gs, ∀ l, g.has l = true → h.has l = false)
    (hnodup : g.labels.Nodup) : Distinct (g :: gs) :=
  ⟨List.pairwise_cons.2 ⟨hg, h.apart⟩, List.forall_mem_cons.2 ⟨hnodup, h.once⟩⟩

/-- The labels of a group are seen, each of them once. -/
structure Seen (seen : Labels) (group : Group) : Prop where
  has : ∀ l, group.has l = true → seen.has l = true
  once : group.labels.Nodup

theorem Seen.empty : Seen seen {} := ⟨by simp, List.nodup_nil⟩

theorem Seen.add {l : Option Cell} (h : Seen seen group) (hnew : seen.has l = false) :
    Seen (seen.add l) (group.add l) where
  has k hk := by
    rw [Labels.has_add, Bool.or_eq_true]
    rw [Group.has_add, Bool.or_eq_true] at hk
    exact hk.imp (h.has k) id
  once := by
    cases l with
    | none => exact h.once
    | some v =>
      refine List.nodup_append.2 ⟨h.once, by simp, fun w hw u hu => ?_⟩
      rintro rfl
      rw [← List.mem_singleton.1 hu, h.has (some w) (by simpa [Group.has] using hw)] at hnew
      cases hnew

/-- What has been seen is in no other group than the first one. -/
theorem groupArms_distinct (h : Lowers (groupArms seen group as) gs) (hseen : Seen seen group) :
    Distinct gs ∧ ∀ g ∈ gs, ∀ l, g.has l = true → group.has l = true ∨ seen.has l = false := by
  induction as generalizing seen group gs with
  | nil =>
    cases lowers_pure.1 h
    exact ⟨⟨.nil, by simp⟩, by simp⟩
  | cons arm as ih =>
    obtain ⟨hnew, hrest⟩ := groupArms_lowers h
    generalize labelOf arm.case = l at hnew hrest
    have hadd := hseen.add hnew
    have hin {k : Option Cell} (hk : (group.add l).has k = true) : group.has k = true ∨ seen.has k = false := by
      rw [Group.has_add, Bool.or_eq_true, beq_iff_eq] at hk
      rcases hk with hk | rfl
      · exact .inl hk
      · exact .inr hnew
    have hout {k : Option Cell} (hk : (seen.add l).has k = false) : seen.has k = false := by
      rw [Labels.has_add, Bool.or_eq_false_iff] at hk
      exact hk.1
    rcases hrest with ⟨more, hmore, rfl⟩ | ⟨_, _, _, hmore⟩
    · -- the groups after this one begin with nothing of their own
      obtain ⟨hmore, hlabels⟩ := ih hmore .empty
      have hunseen (g : Group) (hg : g ∈ more) (k : Option Cell) (hk : g.has k = true) :
          (seen.add l).has k = false :=
        (hlabels g hg k hk).resolve_left (by simp)
      refine ⟨hmore.cons (fun g hg k hk => ?_) hadd.once, List.forall_mem_cons.2 ⟨fun k => hin, fun g hg k hk => ?_⟩⟩
      · by_contra hgk
        have hk' := hunseen g hg k (by simpa using hgk)
        rw [hadd.has k hk] at hk'
        cases hk'
      · exact .inr (hout (hunseen g hg k hk))
    · obtain ⟨hmore, hlabels⟩ := ih hmore hadd
      exact ⟨hmore, fun g hg k hk => (hlabels g hg k hk).elim hin fun hk' => .inr (hout hk')⟩

/-- An arm and what it does. -/
structure ArmExecutes (act : Activation) (ctx : Context) (a : Arm) (b : Evaluation.Arm) : Prop where
  label : b.label = labelOf a.case
  hasBreak : b.hasBreak = a.case.hasBreak
  body : Executes act ctx a.body b.body
  empty : a.case.body = [] → b.body = pure ()

theorem armsCode_executes (h : List.Forall₂ (ArmExecutes act ctx) as bs) :
    Executes act ctx (armsCode as) (runArms bs) := by
  induction h with
  | nil => exact skip_executes
  | @cons a b as bs hab _ ih =>
    rw [runArms, hab.hasBreak]
    intro F scopes c scopes' hF hc
    cases hbreak : a.case.hasBreak with
    | true =>
      simp only [armsCode, hbreak, if_true] at hc ⊢
      rw [show (do b.body; pure () : Eval Unit) = b.body from bind_pure _]
      obtain ⟨⟨c', _⟩, hc', hc⟩ := hc.bind
      cases lowers_pure.1 hc
      exact hab.body F scopes c' _ hF hc'
    | false =>
      simp only [armsCode, hbreak, Bool.false_eq_true, if_false] at hc ⊢
      exact hab.body.append ih F scopes c scopes' hF hc

/-- The groups of a switch, each with what it does. -/
abbrev Choices := List (Group × Eval Unit)

/-- What the first group does that has a label. -/
def Choices.found (ks : Choices) (l : Option Cell) : Option (Eval Unit) :=
  (ks.find? (·.1.has l)).map Prod.snd

theorem Choices.found_cons {k : Group × Eval Unit} {ks : Choices} {l : Option Cell} :
    Choices.found (k :: ks) l = if k.1.has l then some k.2 else ks.found l := by
  rw [found, List.find?_cons]
  cases k.1.has l <;> rfl

/-- The arms that a switch runs for a label, if there is one for it. -/
def selected? (l : Option Cell) (bs : List Evaluation.Arm) : Option (Eval Unit) :=
  if bs.any (·.label == l) then some (runArms (armsFrom l bs)) else none

theorem groupArms_found (h : List.Forall₂ (ArmExecutes act ctx) as bs)
    (hgs : Lowers (groupArms seen group as) gs) (hne : ∀ l, group.has l = true → as ≠ []) :
    ∃ ks : Choices, ks.map Prod.fst = gs ∧ (∀ k ∈ ks, Executes act ctx (armsCode k.1.arms) k.2) ∧
      ∀ l, ks.found l = if group.has l then some (runArms bs) else selected? l bs := by
  induction h generalizing seen group gs with
  | nil =>
    cases lowers_pure.1 hgs
    refine ⟨[], rfl, by simp, fun l => ?_⟩
    have : group.has l = false := by
      by_contra hl
      exact hne l (by simpa using hl) rfl
    simp [this, Choices.found, selected?]
  | @cons a b as bs hab habs ih =>
    obtain ⟨_, hrest⟩ := groupArms_lowers hgs
    have hselected (l : Option Cell) : selected? l (b :: bs) =
        if labelOf a.case == l then some (runArms (b :: bs)) else selected? l bs := by
      rw [selected?, selected?, List.any_cons, armsFrom, List.dropWhile_cons, hab.label]
      by_cases hl : labelOf a.case = l
      · simp [hl]
      · simp [hl, armsFrom]
    rcases hrest with ⟨more, hmore, rfl⟩ | ⟨hempty, hbreak, hlast, hmore⟩
    · obtain ⟨ks, hks, hexec, hfound⟩ := ih hmore (by simp)
      refine ⟨({ group.add (labelOf a.case) with arms := a :: as }, runArms (b :: bs)) :: ks, by simp [hks],
        ?_, fun l => ?_⟩
      · intro k hk
        rcases List.mem_cons.1 hk with rfl | hk
        · exact armsCode_executes (.cons hab habs)
        · exact hexec k hk
      · have hhas : Group.has { group.add (labelOf a.case) with arms := a :: as } l =
            (group.has l || labelOf a.case == l) := Group.has_add ▸ by cases l <;> rfl
        rw [Choices.found_cons, hhas, hselected, hfound]
        cases group.has l <;> cases labelOf a.case == l <;> simp
    · obtain ⟨ks, hks, hexec, hfound⟩ := ih hmore fun _ _ => hlast
      refine ⟨ks, hks, hexec, fun l => ?_⟩
      have hbody : runArms (b :: bs) = runArms bs := by
        rw [runArms, hab.hasBreak, hbreak, hab.empty hempty]
        simp
      rw [hfound l, hselected, hbody, Group.has_add]
      cases group.has l <;> cases labelOf a.case == l <;> rfl

/-! ### Tests -/

variable {p floor : Nat} {s t : Config} {σ : Store} {v w : Cell} {ks : Choices} {y : Eval Unit} {body : Code}

/-- What the first group does that is tested for a value and has it. -/
def Choices.tested (ks : Choices) (v : Cell) : Option (Eval Unit) :=
  (ks.find? fun k => !k.1.hasDefault && k.1.has (some v)).map Prod.snd

theorem Choices.tested_cons {k : Group × Eval Unit} :
    Choices.tested (k :: ks) v =
      if k.1.hasDefault then ks.tested v else if k.1.has (some v) then some k.2 else ks.tested v := by
  rw [tested, List.find?_cons]
  cases k.1.hasDefault <;> cases k.1.has (some v) <;> rfl

/-- A label of an earlier group is not tested for again. -/
theorem Choices.tested_eq_none (h : ∀ k ∈ ks, k.1.has (some v) = false) : ks.tested v = none := by
  rw [tested, Option.map_eq_none_iff, List.find?_eq_none]
  intro k hk
  rw [h k hk, Bool.and_false]
  exact Bool.false_ne_true

/-- A value in the group for all other values is not tested for, but gets there in the end. -/
theorem Choices.tested_or_found (h : Distinct (ks.map Prod.fst)) :
    ((ks.tested v).or (ks.found none)) = ((ks.found (some v)).or (ks.found none)) := by
  induction ks with
  | nil => rfl
  | cons k ks ih =>
    have hapart : ∀ k' ∈ ks, ∀ l, k.1.has l = true → k'.1.has l = false :=
      fun k' hk' l => h.has_of_cons (List.mem_map_of_mem hk')
    replace ih := ih h.of_cons
    rw [tested_cons, found_cons, found_cons]
    change (if k.1.has none then _ else _ : Option (Eval Unit)).or _ = _
    cases hd : k.1.has none with
    | true =>
      have hnone : found ks none = none := by
        rw [found, Option.map_eq_none_iff, List.find?_eq_none]
        exact fun k' hk' => by simp [hapart k' hk' none hd]
      cases hv : k.1.has (some v) with
      | true => simp [tested_eq_none fun k' hk' => hapart k' hk' _ hv]
      | false =>
        rw [hnone, Option.or_none, Option.or_none] at ih
        simp [ih]
    | false =>
      cases hv : k.1.has (some v) with
      | true => simp
      | false => simpa using ih

/-- The tape has changed but in the three cells right of the value, where tests are made. -/
structure Beside (p : Nat) (s t : Config) : Prop where
  cells : ∀ x, x ≠ p + 2 → x ≠ p + 3 → x ≠ p + 4 → t.cells x = s.cells x
  input : t.input = s.input
  output : t.output = s.output

namespace Beside

theorem refl : Beside p s s := ⟨fun _ _ _ _ => rfl, rfl, rfl⟩

theorem trans {u : Config} (h : Beside p s t) (h' : Beside p t u) : Beside p s u where
  cells x h2 h3 h4 := (h'.cells x h2 h3 h4).trans (h.cells x h2 h3 h4)
  input := h'.input.trans h.input
  output := h'.output.trans h.output

theorem put {x : Nat} (h : Beside p s t) : Beside p (s.put x v) (t.put x v) where
  cells y h2 h3 h4 := by rw [cells_put, cells_put, h.cells y h2 h3 h4]
  input := h.input
  output := h.output

theorem left {x : Nat} (h : Beside p s t) (hx : x < p + 2) : t.cells x = s.cells x :=
  h.cells x (by omega) (by omega) (by omega)

end Beside

/-- The end of tests that start at `s`: one if no arm has run, and the value. -/
structure Tested (F : Frame) (p : Nat) (v : Cell) (s t : Config) (pending : Cell) (σ : Store) : Prop where
  head : t.head = p + 2
  pending : t.cells p = pending
  value : t.cells (p + 1) = v
  holds : F.Holds t σ
  keeps : F.matching.Keeps p s t

/-- The flags are lowered before the body of a group that matches. -/
theorem runs_startArm (hf : floor ≤ p) (hs : s.head = p + 2) (h1 : s.cells (p + 2) = 1) :
    Runs floor (dec 1 ++ left 2 ++ clear ++ right 2 ++ right 1) s (((s.put (p + 2) 0).put p 0).goto (p + 3)) := by
  refine ((((runs_dec.2 rfl).append ((runs_left ?_).2 rfl)).append (runs_clear.2 rfl)).append
    (runs_right.2 rfl)).append (runs_right.2 ?_)
  · simp only [Config.store, head_put]
    omega
  · simp [Config.store, Config.cell, hs, h1]

/-- The body of a group that matches. -/
theorem runArm_sim (h : Performs F F (p + 3) (p + 3) body y) (hF : F.Fits p) (hs : s.head = p + 2)
    (hv : s.cells (p + 1) = v) (h1 : s.cells (p + 2) = 1) (hσ : F.Holds s σ) :
    Sim (fun t r => Tested F p v s t 0 r.2) ((runArm body 2).exec 0 s) (y.run σ) := by
  have hM := hF.below_matching
  have hstart := runs_startArm (Nat.zero_le p) hs h1
  have hcells : ∀ x < p, (((s.put (p + 2) 0).put p 0).goto (p + 3)).cells x = s.cells x :=
    fun x hx => by rw [cells_goto, cells_put_of_ne (by omega), cells_put_of_ne (by omega)]
  have hround : Sim (fun t r => t.cells (p + 2) = 0 ∧ Tested F p v s t 0 r.2)
      ((dec 1 ++ left 2 ++ clear ++ right 2 ++ right 1 ++ body ++ left 1).exec 0 s) (y.run σ) := by
    rw [exec_append_assoc]
    refine hstart.append_sim ?_
    rw [exec_append]
    refine (h (((s.put (p + 2) 0).put p 0).goto (p + 3)) σ rfl
      (F.matching.holds_of_below hM hσ hcells rfl rfl)).bind_left fun t r ht => ?_
    refine ⟨t.goto (p + 2), (runs_left (by rw [ht.head]; omega)).2 (by rw [ht.head]; rfl), ?_, rfl, ?_, ?_,
      ht.holds.goto, fun x hx hc => ?_⟩
    · rw [cells_goto, ht.keeps.cell hM (by omega) (by omega), cells_goto, cells_put_of_ne (by omega),
        cells_put_self]
    · rw [cells_goto, ht.keeps.cell hM (by omega) (by omega), cells_goto, cells_put_self]
    · rw [cells_goto, ht.keeps.cell hM (by omega) (by omega), cells_goto, cells_put_of_ne (by omega),
        cells_put_of_ne (by omega), hv]
    · rw [cells_goto, ht.keeps x (by omega) hc, hcells x hx]
  have hloop := loop_sim (by rw [Config.cell, hs, h1]; decide) hround fun t r ht => by
    rw [Config.cell, ht.2.head, ht.1]
  exact hloop.mono fun t r ht => ht.2

/-- The test of a group raises the flag under the head if the group has the value. -/
theorem runs_testGroup (hf : floor ≤ p + 1) (labels : List Cell) (hs : s.head = p + 2) (hv : s.cells (p + 1) = v) :
    ∃ t, Runs floor (clear ++ concat (labels.map testLabel)) s t ∧ t.head = p + 2 ∧
      t.cells (p + 2) = .ofNat (labels.count v) ∧ Beside p s t := by
  have hwin : s = s.window (p + 1) [v, s.cells (p + 2), s.cells (p + 3), s.cells (p + 4)] 1 :=
    eq_window_of_slice hs (by simp [slice, List.range_succ, hv])
  have hclear : Runs floor clear s (s.window (p + 1) [v, 0, s.cells (p + 3), s.cells (p + 4)] 1) := by
    conv => arg 3; rw [hwin]
    exact (runs_clear_window (by simp)).2 rfl
  obtain ⟨x, y, h⟩ := runs_testLabels (s := s) (v := v) (f := 0) (a := s.cells (p + 3)) (b := s.cells (p + 4))
    hf labels
  refine ⟨_, hclear.append h, rfl, ?_, fun z h2 h3 h4 => ?_, rfl, rfl⟩
  · exact (cells_window_add (j := 1) (by simp)).trans (UInt8.zero_add _)
  · rcases Nat.lt_trichotomy z (p + 1) with hz | rfl | hz
    · exact cells_window_of_lt hz
    · exact (cells_window_add (j := 0) (by simp)).trans hv.symm
    · exact cells_window_of_ge (by simp only [List.length_cons, List.length_nil]; omega)

/-- What the code of the tests consists of: the first group is tested last, and the body of the group for
all other values is left over. -/
theorem testGroups_lowers {scopes : Scopes} {g : Group} {tests : Code} {otherwise : Option Code}
    (hc : Lowers (testGroups scopes (g :: gs)) (tests, otherwise)) :
    ∃ before other body, Lowers (testGroups scopes gs) (before, other) ∧ Lowers (inScope (armsCode g.arms) scopes) body ∧
      (g.hasDefault = true ∧ tests = before ∧ otherwise = some body ∨ g.hasDefault = false ∧
        tests = before ++ clear ++ concat (g.labels.map testLabel) ++ runArm body 2 ∧ otherwise = other) := by
  obtain ⟨⟨before, other⟩, hbefore, hc⟩ := hc.bind
  obtain ⟨body, hbody, hc⟩ := hc.bind
  refine ⟨before, other, body, hbefore, hbody, ?_⟩
  split at hc
  next hd =>
    cases lowers_pure.1 hc
    exact .inl ⟨hd, rfl, rfl⟩
  next hd =>
    cases lowers_pure.1 hc
    exact .inr ⟨by simpa using hd, rfl, rfl⟩

theorem Tested.after {u : Config} {w' : Cell} {τ : Store} (h : Tested F p v s t w σ) (h' : Tested F p v t u w' τ) :
    Tested F p v s u w' τ :=
  ⟨h'.head, h'.pending, h'.value, h'.holds, h.keeps.trans h'.keeps (Nat.le_refl p)⟩

/-- The test of one more group raises the flag if the group has the value, and leaves the rest as it is. -/
theorem Tested.runs_test {g : Group} (hF : F.Fits p) (h : Tested F p v s t w σ) :
    ∃ u, Runs 0 (clear ++ concat (g.labels.map testLabel)) t u ∧ Tested F p v s u w σ ∧
      u.cells (p + 2) = .ofNat (g.labels.count v) := by
  obtain ⟨u, hu, hh, h2, hu'⟩ := runs_testGroup (Nat.zero_le _) g.labels h.head h.value
  have hcells (x) (hx : x < p + 2) : u.cells x = t.cells x := hu'.left hx
  refine ⟨u, hu, ⟨hh, (hcells p (by omega)).trans h.pending, (hcells _ (by omega)).trans h.value, ?_,
    fun x hx hc => (hcells x (by omega)).trans (h.keeps x hx hc)⟩, h2⟩
  exact F.matching.holds_of_below (hF.below_matching.mono (by omega : p ≤ p + 2)) h.holds hcells hu'.input hu'.output

/-- The body of a group that has the value runs. -/
theorem Tested.test_of_has {g : Group} (hbody : Performs F F (p + 3) (p + 3) body y) (hF : F.Fits p)
    (h : Tested F p v s t 1 σ) (hcount : g.labels.count v = 1) :
    Sim (fun u r => Tested F p v s u 0 r.2)
      ((clear ++ concat (g.labels.map testLabel) ++ runArm body 2).exec 0 t) (y.run σ) := by
  obtain ⟨u, hu, htu, h2⟩ := h.runs_test hF
  rw [hcount] at h2
  exact hu.append_sim ((runArm_sim hbody hF htu.head htu.value h2 htu.holds).mono fun _ _ => htu.after)

/-- The body of a group that has not the value is passed over. -/
theorem Tested.test_of_not_has {g : Group} (hF : F.Fits p) (h : Tested F p v s t w σ)
    (hcount : g.labels.count v = 0) :
    ∃ u, Runs 0 (clear ++ concat (g.labels.map testLabel) ++ runArm body 2) t u ∧ Tested F p v s u w σ := by
  obtain ⟨u, hu, htu, h2⟩ := h.runs_test hF
  rw [hcount] at h2
  refine ⟨u, hu.append ((runs_loop_of_zero ?_).2 rfl), htu⟩
  rw [Config.cell, htu.head, h2]
  rfl

/-- The groups are tested from the last to the first, and one of them at most runs. -/
theorem testGroups_sim {inner : Scopes} {tests : Code} {otherwise : Option Code}
    (hks : ∀ k ∈ ks, Executes act ctx (armsCode k.1.arms) k.2) (hdistinct : Distinct (ks.map Prod.fst))
    (hF : Inside act ctx inner F) (hp : inner.offset = p + 3) (hfits : F.Fits p)
    (hc : Lowers (testGroups inner (ks.map Prod.fst)) (tests, otherwise)) (hs : s.head = p + 2)
    (h1 : s.cells p = 1) (hv : s.cells (p + 1) = v) (hσ : F.Holds s σ) :
    Sim (fun t r => Tested F p v s t (if (ks.tested v).isSome then 0 else 1) r.2) (tests.exec 0 s)
      ((((ks.tested v).map Evaluation.inScope).getD (pure ())).run σ) := by
  induction ks generalizing tests otherwise with
  | nil =>
    cases lowers_pure.1 hc
    exact (runs_skip.2 rfl).sim (S := fun t (r : Unit × Store) => Tested F p v s t 1 r.2) ⟨hs, h1, hv, hσ, .refl⟩
  | cons k ks ih =>
    have hapart : ∀ k' ∈ ks, ∀ l, k.1.has l = true → k'.1.has l = false :=
      fun k' hk' l => hdistinct.has_of_cons (List.mem_map_of_mem hk')
    obtain ⟨before, other, body, hbefore, hbody, htests⟩ := testGroups_lowers hc
    replace ih := ih (fun k' hk' => hks k' (List.mem_cons_of_mem _ hk')) hdistinct.of_cons hbefore
    rw [Choices.tested_cons]
    obtain ⟨hd, rfl, -⟩ | ⟨hd, rfl, -⟩ := htests
    · rw [hd, if_pos rfl]
      exact ih
    rw [hd, if_neg Bool.false_ne_true]
    cases hhas : k.1.has (some v) with
    | true =>
      have hperforms := inScope_executes (hks k List.mem_cons_self) F inner body hF hbody
      rw [hp] at hperforms
      rw [Choices.tested_eq_none fun k' hk' => hapart k' hk' _ hhas, Option.isSome_none,
        if_neg Bool.false_ne_true] at ih
      have h := ih.bind (g := fun r => (Evaluation.inScope k.2).run r.2)
        (f := (clear ++ concat (k.1.labels.map testLabel) ++ runArm body 2).exec 0)
        (S := fun t (r : Unit × Store) => Tested F p v s t 0 r.2) fun t r ht =>
          ht.test_of_has hperforms hfits (hdistinct.count List.mem_cons_self hhas)
      simp only [exec_append_eq, bind_assoc] at h ⊢
      exact h
    | false =>
      have h := ih.bind_left (f := (clear ++ concat (k.1.labels.map testLabel) ++ runArm body 2).exec 0)
        (S := fun t (r : Unit × Store) =>
          Tested F p v s t (if (Choices.tested ks v).isSome then 0 else 1) r.2) fun t r ht =>
          ht.test_of_not_has hfits (Group.count_eq_zero hhas)
      simp only [exec_append_eq, bind_assoc] at h ⊢
      exact h

/-- The body of the group for all other values is left over. -/
theorem testGroups_otherwise {inner : Scopes} {tests : Code} {otherwise : Option Code}
    (hks : ∀ k ∈ ks, Executes act ctx (armsCode k.1.arms) k.2) (hF : Inside act ctx inner F)
    (hc : Lowers (testGroups inner (ks.map Prod.fst)) (tests, otherwise)) :
    Option.Rel (fun body y => Performs F F inner.offset inner.offset body (Evaluation.inScope y)) otherwise
      (ks.found none) := by
  induction ks generalizing tests otherwise with
  | nil =>
    cases lowers_pure.1 hc
    exact .none
  | cons k ks ih =>
    obtain ⟨before, other, body, hbefore, hbody, htests⟩ := testGroups_lowers hc
    rw [Choices.found_cons]
    change Option.Rel _ _ (if k.1.hasDefault then _ else _)
    obtain ⟨hd, -, rfl⟩ | ⟨hd, -, rfl⟩ := htests
    · rw [hd, if_pos rfl]
      exact .some (inScope_executes (hks k List.mem_cons_self) F inner body hF hbody)
    · rw [hd, if_neg Bool.false_ne_true]
      exact ih (fun k' hk' => hks k' (List.mem_cons_of_mem _ hk')) hbefore

/-! ### Switches -/

/-- What is left to do after the tests. -/
def lastArm (otherwise : Option Code) : Code :=
  match otherwise with
  | some body => left 2 ++ loop (dec 1 ++ right 3 ++ body ++ left 3)
  | none => left 2 ++ clear

theorem runs_startLast (hs : t.head = p) (h1 : t.cells p = 1) :
    Runs floor (dec 1 ++ right 3) t ((t.put p 0).goto (p + 3)) := by
  refine (runs_dec.2 rfl).append (runs_right.2 ?_)
  simp [Config.store, Config.cell, hs, h1]

/-- If no arm has run, the one for all other values does. -/
theorem lastArm_sim {otherwise : Option Code} {last : Option (Eval Unit)} (hF : F.Fits p)
    (h : Option.Rel (fun body y => Performs F F (p + 3) (p + 3) body (Evaluation.inScope y)) otherwise last)
    (ht : Tested F p v s t w σ) (hw : w = 0 ∨ w = 1) :
    Sim (fun u r => Performed F F p p s u r.2) ((lastArm otherwise).exec 0 t)
      ((if w = 0 then pure () else (last.map Evaluation.inScope).getD (pure ()) : Eval Unit).run σ) := by
  have hM := hF.below_matching
  have hleft : Runs 0 (left 2) t (t.goto p) := (runs_left (by rw [ht.head]; omega)).2 (by rw [ht.head]; rfl)
  cases h with
  | none =>
    have hend : Runs 0 (left 2 ++ clear) t ((t.goto p).put p 0) := hleft.append (runs_clear.2 rfl)
    have hcells : ∀ x < p, ((t.goto p).put p 0).cells x = t.cells x :=
      fun x hx => by rw [cells_put_of_ne (by omega), cells_goto]
    rw [show (if w = 0 then pure () else (Option.map Evaluation.inScope none).getD (pure ()) : Eval Unit) =
      pure () by split <;> rfl]
    exact hend.sim (S := fun u (r : Unit × Store) => Performed F F p p s u r.2)
      ⟨rfl, F.matching.holds_of_below hM ht.holds hcells rfl rfl,
        fun x hx hc => (hcells x hx).trans (ht.keeps x hx hc)⟩
  | @some body y hbody =>
    refine hleft.append_sim ?_
    have hcell : (t.goto p).cell = w := ht.pending
    rcases hw with rfl | rfl
    · rw [if_pos rfl]
      exact ((runs_loop_of_zero hcell).2 rfl).sim (S := fun u (r : Unit × Store) => Performed F F p p s u r.2)
        ⟨rfl, ht.holds.goto, ht.keeps⟩
    · rw [if_neg (by decide), Option.map_some, Option.getD_some]
      have hstart : Runs 0 (dec 1 ++ right 3) (t.goto p) ((t.put p 0).goto (p + 3)) := runs_startLast rfl hcell
      have hcells : ∀ x < p, ((t.put p 0).goto (p + 3)).cells x = t.cells x :=
        fun x hx => by rw [cells_goto, cells_put_of_ne (by omega)]
      have hround : Sim (fun u r => u.cells p = 0 ∧ Performed F F p p s u r.2)
          ((dec 1 ++ right 3 ++ body ++ left 3).exec 0 (t.goto p)) ((Evaluation.inScope y).run σ) := by
        rw [exec_append_assoc]
        refine hstart.append_sim ?_
        rw [exec_append]
        refine (hbody ((t.put p 0).goto (p + 3)) σ rfl
          (F.matching.holds_of_below hM ht.holds hcells rfl rfl)).bind_left fun u r hu => ?_
        refine ⟨u.goto p, (runs_left (by rw [hu.head]; omega)).2 (by rw [hu.head]; rfl), ?_, rfl,
          hu.holds.goto, fun x hx hc => ?_⟩
        · rw [cells_goto, hu.keeps.cell hM (by omega) (by omega), cells_goto, cells_put_self]
        · rw [cells_goto, hu.keeps x (by omega) hc, hcells x hx, ht.keeps x hx hc]
      have hloop := loop_sim (by rw [hcell]; decide) hround fun u r ⟨h0, hu⟩ => by
        rw [Config.cell, hu.head, h0]
      exact hloop.mono fun u r hu => hu.2

/-- What a switch runs depends on the labels alone. -/
theorem runArms_selected {bs : List Evaluation.Arm} :
    runArms (if bs.any (·.label == some v) then armsFrom (some v) bs else armsFrom none bs) =
      ((selected? (some v) bs).or (selected? none bs)).getD (pure ()) := by
  rw [selected?, selected?]
  by_cases hv : bs.any (·.label == some v) = true
  · rw [if_pos hv, if_pos hv]
    rfl
  · rw [if_neg hv, if_neg hv, Option.none_or]
    by_cases hn : bs.any (·.label == none) = true
    · rw [if_pos hn]
      rfl
    · rw [if_neg hn, armsFrom, List.dropWhile_eq_nil_iff.2]
      · rfl
      · intro b hb
        simpa using fun hl => hn (List.any_eq_true.2 ⟨b, hb, by rw [hl]; rfl⟩)

/-- The arms of a switch in the order in which their groups are tested. -/
theorem switch_eq_tested {value : Eval Cell} {bs : List Evaluation.Arm} (hdistinct : Distinct (ks.map Prod.fst))
    (hfound : ∀ l, ks.found l = selected? l bs) : Evaluation.switch value bs = (do
      let v ← value
      ((ks.tested v).map Evaluation.inScope).getD (pure ())
      if (if (ks.tested v).isSome then 0 else 1 : Cell) = 0 then pure ()
        else ((ks.found none).map Evaluation.inScope).getD (pure ())) := by
  rw [Evaluation.switch]
  refine bind_congr fun v => ?_
  dsimp only
  rw [runArms_selected, ← hfound, ← hfound, ← Choices.tested_or_found hdistinct]
  cases ks.tested v with
  | some y => simp
  | none => cases ks.found none <;> simp [inScope_pure]

/-- One stands in front of the value until an arm has run. -/
theorem runs_startSwitch (hs : s.head = p) :
    Runs floor (clear ++ inc 1 ++ right 1) s ((s.put p 1).goto (p + 1)) := by
  refine ((runs_clear.2 rfl).append (runs_inc.2 rfl)).append (runs_right.2 ?_)
  simp [Config.store, Config.cell, hs]

theorem switch_executes {e : Expr} {as : List Arm} {bs : List Evaluation.Arm} {position : Position}
    (h : List.Forall₂ (ArmExecutes act ctx) as bs) :
    PlainlyExecutes act ctx (Lowering.switch (fun scopes => expr act scopes e) as position)
      (Evaluation.switch (Evaluation.expr ctx e) bs) := by
  intro F scopes c hF hc
  obtain ⟨gs, hgs, hc⟩ := hc.bind
  replace hc := Lowers.of_warning hc
  obtain ⟨value, hvalue, hc⟩ := hc.bind
  obtain ⟨⟨tests, otherwise⟩, htests, hc⟩ := hc.bind
  obtain ⟨_, _, hc⟩ := hc.bind
  cases lowers_pure.1 hc
  obtain ⟨ks, rfl, hks, hfound⟩ := groupArms_found h hgs (by simp)
  obtain ⟨hdistinct, -⟩ := groupArms_distinct hgs .empty
  have hinner := hF.reserve 3
  have hM := hF.fits.below_matching
  have hotherwise := testGroups_otherwise hks hinner htests
  have hvalue' := hF.evaluates (Nat.le_add_right _ 1) hvalue
  have hfits := hF.fits
  have hoffset : (scopes.reserve 3).offset = scopes.offset + 3 := rfl
  rw [hoffset] at hotherwise
  generalize scopes.offset = p at *
  intro s σ hs hσ
  have hcells : ∀ x < p, ((s.put p 1).goto (p + 1)).cells x = s.cells x :=
    fun x hx => by rw [cells_goto, cells_put_of_ne (by omega)]
  have hrest : Sim (fun u r => Performed F F p p s u r.2)
      ((value ++ (tests ++ lastArm otherwise)).exec 0 ((s.put p 1).goto (p + 1)))
      ((Evaluation.switch (Evaluation.expr ctx e) bs).run σ) := by
    rw [switch_eq_tested hdistinct fun l => by simp [hfound], StateT.run_bind, exec_append]
    refine (hvalue' _ σ rfl (F.matching.holds_of_below hM hσ hcells rfl rfl)).bind fun t r ht => ?_
    have h1 : t.cells p = 1 := (ht.keeps.cell hM (Nat.le_refl p) (by omega)).trans (by
      rw [cells_goto, cells_put_self])
    rw [StateT.run_bind, exec_append]
    refine (testGroups_sim hks hdistinct hinner hoffset hfits htests ht.head h1 ht.value ht.holds).bind
      fun u r' hu => ?_
    refine (lastArm_sim hfits hotherwise hu ?_).mono fun w r'' hw => ⟨hw.head, hw.holds, fun x hx hc => ?_⟩
    · split
      · exact .inl rfl
      · exact .inr rfl
    · rw [hw.keeps x hx hc, ht.keeps x (by omega) hc, hcells x hx]
  have h := (runs_startSwitch hs).append_sim hrest
  simp only [exec_append_eq, bind_assoc] at h ⊢
  exact h

end TapeC.Lowering
