import TapeC.Proofs.Conditional
import TapeC.Proofs.ConfinedStatement
import TapeC.Proofs.Expansion
import TapeC.Proofs.Selection
import Mathlib.Data.List.Pairwise

/-! The code of a `switch` evaluates its value and then runs the bodies of the cases that
are selected, one after another, whatever these do in the cells that are theirs. -/

namespace TapeC.Lowering

open Layout Program Tape Routine Code Config Comp

variable {act : Activation} {scopes scopes' : Scopes} {c body : Code} {ks : List (Case Statement)}
  {as : List Arm} {gs : List Group} {floor p : Nat} {s t : Config} {v : Cell}

/-! ### Cases -/

/-- Whether a case has a label for the value `v`. -/
def isFor (v : Cell) (k : Case Statement) : Bool :=
  match k.label with
  | .value e => e.constant? == some v
  | .default => false

def isDefault (k : Case Statement) : Bool :=
  match k.label with
  | .value _ => false
  | .default => true

/-- The cases up to the first that ends with `break`. -/
def upToBreak : List (Case Statement) → List (Case Statement)
  | [] => []
  | k :: rest => if k.hasBreak then [k] else k :: upToBreak rest

/-- The cases that a switch runs for the value `v`. -/
def chosen (v : Cell) (ks : List (Case Statement)) : List (Case Statement) :=
  upToBreak (if ks.any (isFor v) then ks.dropWhile (!isFor v ·) else ks.dropWhile (!isDefault ·))

/-! ### Bodies -/

/-- The scopes in which the statements of the cases are lowered. -/
def caseScopes (scopes : Scopes) : Scopes := (scopes.reserve 3).enter

theorem scopes_of_plain {code : Scopes → Lower Code} (h : Lowers (plain code scopes) (c, scopes')) : scopes' = scopes := by
  obtain ⟨_, -, h⟩ := h.bind
  cases lowers_pure.1 h
  rfl

theorem lowers_of_noted {st : Statement} {code : CodeIn} (h : Lowers (noted act st code scopes) (c, scopes')) :
    ∃ c', Lowers (code scopes) (c', scopes') := by
  obtain ⟨⟨c', _⟩, hc', h⟩ := h.bind
  cases lowers_pure.1 h
  exact ⟨c', hc'⟩

/-- Only a declaration has an effect on the scopes. -/
theorem scopes_of_statement {st : Statement} (h : Lowers (statement act st scopes) (c, scopes'))
    (hst : ∀ d, st ≠ .declare d) : scopes' = scopes := by
  cases st with
  | declare d => exact absurd rfl (hst d)
  | block | empty => exact scopes_of_plain h
  | breaks | continues => exact absurd h not_lowers_throw
  | expr | print | ifElse | whileLoop | doLoop | forLoop | switch | returns =>
    obtain ⟨_, h⟩ := lowers_of_noted h
    exact scopes_of_plain h

theorem scopes_of_statements {ss : List Statement} (h : Lowers (statements act ss scopes) (c, scopes'))
    (hss : declared? ss = none) : scopes' = scopes := by
  induction ss generalizing c scopes with
  | nil =>
    cases lowers_pure.1 h
    rfl
  | cons st ss ih =>
    have hst : (∀ d, st ≠ .declare d) ∧ declared? ss = none := by
      cases st with
      | declare => cases hss
      | _ => exact ⟨nofun, hss⟩
    rw [statements] at h
    obtain ⟨_, -, h⟩ := h.bind
    obtain ⟨⟨_, inner⟩, hinner, h⟩ := h.bind
    obtain ⟨⟨_, _⟩, hrest, h⟩ := h.bind
    cases lowers_pure.1 h
    obtain rfl := scopes_of_statement hinner hst.1
    exact ih hrest hst.2

theorem exec_concat_cons {cs : List Code} :
    (concat (c :: cs)).exec floor s = c.exec floor s >>= (concat cs).exec floor := by
  cases cs with
  | nil => exact (bind_pure _).symm
  | cons => rfl

/-- The statements of the case are lowered to `b`, among scopes that stay as they are. -/
abbrev LowersCase (act : Activation) (scopes : Scopes) (k : Case Statement) (b : Code) : Prop :=
  Lowers (statements act k.body scopes) (b, scopes)

/-- The code of arms is that of their cases up to a `break`. -/
theorem armsCode_lowers (h : Lowers (armsCode (arms act ks) scopes) (c, scopes'))
    (hks : ∀ k ∈ ks, declared? k.body = none) : scopes' = scopes ∧ ∃ bs,
      List.Forall₂ (LowersCase act scopes) (upToBreak ks) bs ∧ ∀ floor, c.exec floor = (concat bs).exec floor := by
  induction ks generalizing c with
  | nil =>
    cases lowers_pure.1 h
    exact ⟨rfl, [], .nil, fun _ => rfl⟩
  | cons k ks ih =>
    obtain ⟨label, body, hasBreak, unreachable, p⟩ := k
    obtain ⟨hk, hrest⟩ := List.forall_mem_cons.1 hks
    rw [arms] at h
    cases hasBreak with
    | true =>
      simp only [armsCode, if_true] at h
      obtain ⟨⟨b, _⟩, hb, h⟩ := h.bind
      cases lowers_pure.1 h
      obtain rfl := scopes_of_statements hb hk
      exact ⟨rfl, [b], .cons hb .nil, fun _ => rfl⟩
    | false =>
      simp only [armsCode, Bool.false_eq_true, if_false] at h
      obtain ⟨⟨b, _⟩, hb, h⟩ := h.bind
      obtain ⟨⟨more, _⟩, hmore, h⟩ := h.bind
      cases lowers_pure.1 h
      obtain rfl := scopes_of_statements hb hk
      obtain ⟨rfl, bs, hbs, hexec⟩ := ih hmore hrest
      refine ⟨rfl, b :: bs, .cons hb hbs, fun floor => funext fun s => ?_⟩
      rw [exec_concat_cons, exec_append, hexec]

/-- Code of a case ends where it starts and leaves the cells of its switch as they are. -/
def ComesBack (floor p : Nat) (b : Code) : Prop :=
  ∀ s t, s.head = p + 3 → Runs floor b s t → t.head = p + 3 ∧ ∀ i < 3, t.cells (p + i) = s.cells (p + i)

theorem comesBack_concat {bs : List Code} (h : List.Forall₂ (LowersCase act scopes) ks bs)
    (hback : ∀ k ∈ ks, ∀ b, LowersCase act scopes k b → ComesBack floor p b) : ComesBack floor p (concat bs) := by
  induction h with
  | nil =>
    intro s t hs ht
    cases runs_skip.1 ht
    exact ⟨hs, fun _ _ => rfl⟩
  | cons hb _ ih =>
    obtain ⟨hk, hks⟩ := List.forall_mem_cons.1 hback
    intro s u hs hu
    obtain ⟨t, ht, hu⟩ := runs_concat_cons.1 hu
    obtain ⟨hhead, hcells⟩ := hk _ hb s t hs ht
    obtain ⟨hhead', hcells'⟩ := ih hks t u hhead hu
    exact ⟨hhead', fun i hi => (hcells' i hi).trans (hcells i hi)⟩

theorem mem_of_mem_upToBreak {k : Case Statement} (h : k ∈ upToBreak ks) : k ∈ ks := by
  induction ks with
  | nil => cases h
  | cons k' ks ih =>
    rw [upToBreak] at h
    split at h
    · exact List.mem_cons.2 (.inl (List.mem_singleton.1 h))
    · exact List.mem_cons.2 ((List.mem_cons.1 h).imp_right ih)

/-- A move by no cells changes nothing, unless the head is left of the floor. -/
theorem append_left_zero_ends {r : Except Stray Config} (h : ∀ t, Runs floor c s t → floor ≤ t.head) :
    ((c ++ left 0).exec floor s).Ends r ↔ (c.exec floor s).Ends r := by
  have hleft (t : Config) (ht : Runs floor c s t) : (left 0).exec floor t = pure t := if_pos (h t ht)
  rw [exec_append, bind_ends]
  constructor
  · rintro (⟨e, he, rfl⟩ | ⟨t, ht, hr⟩)
    · exact he
    · rw [hleft t ht, pure_ends] at hr
      exact hr ▸ ht
  · intro hr
    cases r with
    | error e => exact .inl ⟨e, hr, rfl⟩
    | ok t => exact .inr ⟨t, hr, by rw [hleft t hr, pure_ends]⟩

/-- The code does what the cases do up to a `break`, and comes back. -/
def DoesCases (act : Activation) (scopes : Scopes) (floor p : Nat) (body : Code) (ks : List (Case Statement)) : Prop :=
  ∃ bs, List.Forall₂ (LowersCase act scopes) (upToBreak ks) bs ∧ ComesBack floor p body ∧
    ∀ s, s.head = p + 3 → ∀ r, (body.exec floor s).Ends r ↔ ((concat bs).exec floor s).Ends r

/-- The body of a group does what its cases do. -/
theorem inScope_armsCode_lowers (h : Lowers (inScope (armsCode (arms act ks)) scopes) body)
    (hks : ∀ k ∈ ks, declared? k.body = none)
    (hback : ∀ k ∈ ks, ∀ b, LowersCase act scopes.enter k b → ComesBack floor p b) (hf : floor ≤ p) :
    DoesCases act scopes.enter floor p body ks := by
  obtain ⟨⟨c, inner⟩, hc, h⟩ := h.bind
  cases lowers_pure.1 h
  obtain ⟨rfl, bs, hbs, hexec⟩ := armsCode_lowers hc hks
  have hback := comesBack_concat hbs fun k hk => hback k (mem_of_mem_upToBreak hk)
  have hbody (s : Config) (hs : s.head = p + 3) (r) :
      ((c ++ left scopes.enter.claimed).exec floor s).Ends r ↔ ((concat bs).exec floor s).Ends r := by
    rw [← hexec, show scopes.enter.claimed = 0 from Nat.sub_self _]
    refine append_left_zero_ends fun t ht => ?_
    rw [Runs, hexec] at ht
    rw [(hback s t hs ht).1]
    omega
  exact ⟨bs, hbs, fun s t hs ht => hback s t hs ((hbody s hs _).1 ht), hbody⟩

/-! ### Groups -/

/-- The cases from the one with the label `l` on, if there is one. -/
def casesFrom? (l : Option Cell) (ks : List (Case Statement)) : Option (List (Case Statement)) :=
  if ks.any (labelOf · == l) then some (ks.dropWhile (labelOf · != l)) else none

/-- The group has the arms of the cases, but for some in front that do nothing. -/
def Group.Covers (act : Activation) (g : Group) (ks : List (Case Statement)) : Prop :=
  ∃ idle rest, ks = idle ++ rest ∧ (∀ k ∈ idle, k.body = [] ∧ k.hasBreak = false) ∧ g.arms = Lowering.arms act rest

theorem casesFrom?_cons {l : Option Cell} {k : Case Statement} :
    casesFrom? l (k :: ks) = if labelOf k == l then some (k :: ks) else casesFrom? l ks := by
  rw [casesFrom?, casesFrom?, List.any_cons, List.dropWhile_cons]
  cases h : labelOf k == l <;> simp [bne, h]

/-- The group with a label is that of the cases from the one with the label on. -/
theorem groupArms_find {seen : Labels} {group : Group} (h : Lowers (groupArms seen group (arms act ks)) gs)
    (hne : ∀ l, group.has l = true → ks ≠ []) (l : Option Cell) :
    Option.Rel (Group.Covers act) (gs.find? (·.has l)) (if group.has l then some ks else casesFrom? l ks) := by
  induction ks generalizing seen group gs with
  | nil =>
    cases lowers_pure.1 h
    have hl : group.has l = false := by
      by_contra hl
      exact hne l (by simpa using hl) rfl
    simp [hl, casesFrom?]
  | cons k ks ih =>
    rw [arms_eq, List.map_cons] at h
    obtain ⟨-, hrest⟩ := groupArms_lowers h
    rw [← arms_eq, show (armOf act k).case = k from rfl] at hrest
    have hcases : (if group.has l then some (k :: ks) else casesFrom? l (k :: ks)) =
        if group.has l || labelOf k == l then some (k :: ks) else casesFrom? l ks := by
      rw [casesFrom?_cons]
      cases group.has l <;> rfl
    rw [hcases]
    rcases hrest with ⟨more, hmore, rfl⟩ | ⟨hempty, hbreak, hlast, hmore⟩
    · have ih := ih hmore (by simp)
      have hhas : Group.has { group.add (labelOf k) with arms := armOf act k :: arms act ks } l =
          (group.has l || labelOf k == l) := Group.has_add ▸ by cases l <;> rfl
      rw [List.find?_cons, hhas]
      cases group.has l || labelOf k == l with
      | true => exact .some ⟨[], k :: ks, rfl, nofun, by rw [arms_eq, arms_eq, List.map_cons]⟩
      | false => simpa using ih
    · have ih := ih hmore fun _ _ => by rintro rfl; exact hlast rfl
      rw [Group.has_add] at ih
      cases hl : group.has l || labelOf k == l with
      | true =>
        rw [hl, if_pos rfl] at ih
        rw [if_pos rfl]
        generalize gs.find? (·.has l) = g? at ih
        cases ih with
        | some h =>
          obtain ⟨idle, rest, rfl, hidle, harms⟩ := h
          exact .some ⟨k :: idle, rest, rfl, List.forall_mem_cons.2 ⟨⟨hempty, hbreak⟩, hidle⟩, harms⟩
      | false => rwa [hl] at ih

theorem DoesCases.cons_idle {k : Case Statement} (h : DoesCases act scopes floor p body ks) (hk : k.body = [])
    (hbreak : k.hasBreak = false) : DoesCases act scopes floor p body (k :: ks) := by
  obtain ⟨bs, hbs, hback, hends⟩ := h
  have hskip : LowersCase act scopes k skip := by
    rw [LowersCase, hk]
    exact lowers_pure.2 rfl
  refine ⟨skip :: bs, ?_, hback, fun s hs r => ?_⟩
  · rw [upToBreak, hbreak]
    exact .cons hskip hbs
  · rw [exec_concat_cons]
    exact hends s hs r

theorem Group.Covers.doesCases {g : Group} (h : g.Covers act ks)
    (hbody : Lowers (inScope (armsCode g.arms) scopes) body) (hks : ∀ k ∈ ks, declared? k.body = none)
    (hback : ∀ k ∈ ks, ∀ b, LowersCase act scopes.enter k b → ComesBack floor p b) (hf : floor ≤ p) :
    DoesCases act scopes.enter floor p body ks := by
  obtain ⟨idle, rest, rfl, hidle, harms⟩ := h
  rw [harms] at hbody
  have hrest := inScope_armsCode_lowers hbody (fun k hk => hks k (List.mem_append_right _ hk))
    (fun k hk => hback k (List.mem_append_right _ hk)) hf
  clear hks hback
  induction idle with
  | nil => exact hrest
  | cons k idle ih =>
    obtain ⟨⟨hk, hbreak⟩, hidle⟩ := List.forall_mem_cons.1 hidle
    exact (ih hidle).cons_idle hk hbreak

/-! ### Tests -/

/-- A loop that runs a body once and then stops on one of the cells of the switch. -/
theorem loop_agrees {start : Code} {u : Config} {i : Nat} (hback : ComesBack floor p body) (hf : floor ≤ p)
    (hi : i < 3) (hs : s.cell ≠ 0) (hstart : Runs floor start s u) (hu : u.head = p + 3) (hzero : u.cells (p + i) = 0) :
    Agree (fun t w => t = w.goto (p + i) ∧ ∀ i < 3, w.cells (p + i) = u.cells (p + i))
      ((loop (start ++ body ++ left (3 - i))).exec floor s) (body.exec floor u) := by
  refine (loop_arm_agrees (f := (goto · (p + i))) hs rfl hstart fun w hw => ?_).mono
    fun t w ⟨ht, hw⟩ => ⟨ht, (hback u w hu hw).2⟩
  obtain ⟨hhead, hcells⟩ := hback u w hu hw
  refine ⟨(runs_left (by omega)).2 ?_, ?_⟩
  · rw [hhead, show p + 3 - (3 - i) = p + i by omega]
  · rw [Config.cell, head_goto, cells_goto, hcells i hi, hzero]

/-- Where the body of a case starts: the flag of the switch is lowered. -/
structure Ready (p : Nat) (s u : Config) : Prop where
  head : u.head = p + 3
  beside : Beside p (s.put p 0) u

/-- The end of the tests, the body of a group having ended in `w`. -/
structure Ran (p : Nat) (v : Cell) (t w : Config) : Prop where
  head : t.head = p + 2
  pending : t.cells p = 0
  value : t.cells (p + 1) = v
  beside : Beside p w t

theorem Ready.of_beside {u : Config} (h : Ready p t u) (hst : Beside p s t) : Ready p s u where
  head := h.head
  beside := hst.put.trans h.beside

theorem Ran.of_beside {w t' : Config} (h : Ran p v t w) (hhead : t'.head = p + 2) (htt' : Beside p t t') : Ran p v t' w where
  head := hhead
  pending := (htt'.left (by omega)).trans h.pending
  value := (htt'.left (by omega)).trans h.value
  beside := h.beside.trans htt'

theorem runArm_agrees (hback : ComesBack floor p body) (hf : floor ≤ p) (hs : s.head = p + 2)
    (hv : s.cells (p + 1) = v) (h1 : s.cells (p + 2) = 1) :
    ∃ u, Ready p s u ∧ Agree (Ran p v) ((runArm body 2).exec floor s) (body.exec floor u) := by
  refine ⟨((s.put (p + 2) 0).put p 0).goto (p + 3), ⟨rfl, fun x h2 _ _ => ?_, rfl, rfl⟩, ?_⟩
  · rw [cells_goto, cells_put, cells_put_of_ne h2, cells_put]
  have hloop := loop_agrees (i := 2) hback hf (by decide) (by rw [Config.cell, hs, h1]; decide)
    (runs_startArm hf hs h1) rfl (by simp [cells_put])
  refine hloop.mono ?_
  rintro t w ⟨rfl, hw⟩
  refine ⟨rfl, (hw 0 (by decide)).trans ?_, (hw 1 (by decide)).trans ?_, fun _ _ _ _ => rfl, rfl, rfl⟩
  · exact cells_put_self
  · rw [cells_goto, cells_put_of_ne (by omega), cells_put_of_ne (by omega), hv]

/-- The test of a group and its body. -/
def testGroup (labels : List Cell) (body : Code) : Code := clear ++ concat (labels.map testLabel) ++ runArm body 2

theorem exec_testGroup {labels : List Cell} :
    (c ++ clear ++ concat (labels.map testLabel) ++ runArm body 2).exec floor s =
      (c ++ testGroup labels body).exec floor s := by
  simp only [testGroup, exec_append, exec_append_eq, bind_assoc]

/-- A group that does not match is passed over. -/
theorem runs_testGroup_idle {labels : List Cell} (body : Code) (hf : floor ≤ p) (hs : s.head = p + 2) (hv : s.cells (p + 1) = v)
    (hlabels : labels.count v = 0) : ∃ t, Runs floor (testGroup labels body) s t ∧ t.head = p + 2 ∧ Beside p s t := by
  obtain ⟨t, ht, hhead, h2, hbeside⟩ := runs_testGroup (Nat.le_succ_of_le hf) labels hs hv
  refine ⟨t, ht.append ((runs_loop_of_zero ?_).2 rfl), hhead, hbeside⟩
  rw [Config.cell, hhead, h2, hlabels]
  rfl

/-- The body of a group that matches is run. -/
theorem testGroup_agrees {labels : List Cell} (hback : ComesBack floor p body) (hf : floor ≤ p) (hs : s.head = p + 2)
    (hv : s.cells (p + 1) = v) (hlabels : labels.count v = 1) :
    ∃ u, Ready p s u ∧ Agree (Ran p v) ((testGroup labels body).exec floor s) (body.exec floor u) := by
  obtain ⟨t, ht, hhead, h2, hbeside⟩ := runs_testGroup (Nat.le_succ_of_le hf) labels hs hv
  have hvalue : t.cells (p + 1) = v := (hbeside.left (by omega)).trans hv
  obtain ⟨u, hu, hagree⟩ := runArm_agrees hback hf hhead hvalue (by rw [h2, hlabels]; rfl)
  exact ⟨u, hu.of_beside hbeside, append_agrees ht hagree⟩

/-- All groups are passed over for the value `v`. -/
def Idle (floor p : Nat) (v : Cell) (tests : Code) : Prop :=
  ∀ s, s.head = p + 2 → s.cells (p + 1) = v → ∃ t, Runs floor tests s t ∧ t.head = p + 2 ∧ Beside p s t

theorem testGroups_idle {tests : Code} {otherwise : Option Code} (hf : floor ≤ p)
    (hc : Lowers (testGroups scopes gs) (tests, otherwise))
    (hgs : ∀ g ∈ gs, g.hasDefault = true ∨ g.has (some v) = false) : Idle floor p v tests := by
  intro s hs hv
  induction gs generalizing tests otherwise with
  | nil =>
    cases lowers_pure.1 hc
    exact ⟨s, runs_skip.2 rfl, hs, .refl⟩
  | cons g gs ih =>
    obtain ⟨hg, hgs⟩ := List.forall_mem_cons.1 hgs
    obtain ⟨before, other, body, hbefore, -, htests⟩ := testGroups_lowers hc
    obtain ⟨t, ht, hhead, hbeside⟩ := ih hbefore hgs
    obtain ⟨-, rfl, -⟩ | ⟨hd, rfl, -⟩ := htests
    · exact ⟨t, ht, hhead, hbeside⟩
    · have hvalue : t.cells (p + 1) = v := (hbeside.left (by omega)).trans hv
      obtain ⟨u, hu, hhead', hbeside'⟩ := runs_testGroup_idle body hf hhead hvalue
        (Group.count_eq_zero (hg.resolve_left (by simp [hd])))
      refine ⟨u, ?_, hhead', hbeside.trans hbeside'⟩
      rw [Runs, exec_testGroup]
      exact ht.append hu

/-- The body of the group that has the value is run, whichever groups are tested before and after. -/
theorem testGroups_agrees {tests : Code} {otherwise : Option Code} {g : Group} (hf : floor ≤ p)
    (hc : Lowers (testGroups scopes gs) (tests, otherwise)) (hdistinct : Distinct gs) (hg : g ∈ gs)
    (hd : g.hasDefault = false) (hhas : g.has (some v) = true)
    (hback : ∀ body, Lowers (inScope (armsCode g.arms) scopes) body → ComesBack floor p body) :
    ∃ body, Lowers (inScope (armsCode g.arms) scopes) body ∧ ∀ s, s.head = p + 2 → s.cells (p + 1) = v →
      ∃ u, Ready p s u ∧ Agree (Ran p v) (tests.exec floor s) (body.exec floor u) := by
  induction gs generalizing tests otherwise with
  | nil => cases hg
  | cons g' gs ih =>
    obtain ⟨before, other, body, hbefore, hbody, htests⟩ := testGroups_lowers hc
    rcases List.mem_cons.1 hg with rfl | hg'
    · obtain ⟨hd', -⟩ | ⟨-, rfl, -⟩ := htests
      · cases hd.symm.trans hd'
      have hcount : g.labels.count v = 1 := hdistinct.count hg hhas
      refine ⟨body, hbody, fun s hs hv => ?_⟩
      obtain ⟨t, ht, hhead, hbeside⟩ :=
        testGroups_idle hf hbefore (fun g' hg' => .inr (hdistinct.has_of_cons hg' hhas)) s hs hv
      obtain ⟨u, hu, hagree⟩ := testGroup_agrees (hback body hbody) hf hhead ((hbeside.left (by omega)).trans hv) hcount
      refine ⟨u, hu.of_beside hbeside, ?_⟩
      rw [exec_testGroup]
      exact append_agrees ht hagree
    · obtain ⟨body', hbody', hbefore⟩ := ih hbefore hdistinct.of_cons hg'
      refine ⟨body', hbody', fun s hs hv => ?_⟩
      obtain ⟨u, hu, hagree⟩ := hbefore s hs hv
      refine ⟨u, hu, ?_⟩
      obtain ⟨-, rfl, -⟩ | ⟨-, rfl, -⟩ := htests
      · exact hagree
      · have hcount : g'.labels.count v = 0 := Group.count_eq_zero (by
          by_contra h
          cases hhas.symm.trans (hdistinct.has_of_cons hg' (by simpa using h)))
        rw [exec_testGroup, exec_append]
        refine hagree.bind_left fun t w ht => ?_
        obtain ⟨t', ht', hhead, hbeside⟩ := runs_testGroup_idle _ hf ht.head ht.value hcount
        exact ⟨t', ht', ht.of_beside hhead hbeside⟩

/-- The body of the group for all other values is left over. -/
theorem testGroups_default {tests : Code} {otherwise : Option Code} {g : Group}
    (hc : Lowers (testGroups scopes gs) (tests, otherwise)) (hdistinct : Distinct gs) (hg : g ∈ gs)
    (hd : g.hasDefault = true) : ∃ body, otherwise = some body ∧ Lowers (inScope (armsCode g.arms) scopes) body := by
  induction gs generalizing tests otherwise with
  | nil => cases hg
  | cons g' gs ih =>
    obtain ⟨before, other, body, hbefore, hbody, htests⟩ := testGroups_lowers hc
    rcases List.mem_cons.1 hg with rfl | hg'
    · obtain ⟨-, -, rfl⟩ | ⟨hd', -⟩ := htests
      · exact ⟨body, rfl, hbody⟩
      · cases hd.symm.trans hd'
    · obtain ⟨hd', -⟩ | ⟨-, -, rfl⟩ := htests
      · cases hd.symm.trans (hdistinct.has_of_cons (l := none) hg' hd')
      · exact ih hbefore hdistinct.of_cons hg'

theorem testGroups_no_default {tests : Code} {otherwise : Option Code}
    (hc : Lowers (testGroups scopes gs) (tests, otherwise)) (hgs : ∀ g ∈ gs, g.hasDefault = false) : otherwise = none := by
  induction gs generalizing tests otherwise with
  | nil =>
    cases lowers_pure.1 hc
    rfl
  | cons g gs ih =>
    obtain ⟨hg, hgs⟩ := List.forall_mem_cons.1 hgs
    obtain ⟨before, other, body, hbefore, -, htests⟩ := testGroups_lowers hc
    obtain ⟨hd, -⟩ | ⟨-, -, rfl⟩ := htests
    · cases hg.symm.trans hd
    · exact ih hbefore hgs

/-! ### Switches -/

/-- The end of a switch whose cases have ended in `w`. -/
structure Finished (p : Nat) (t w : Config) : Prop where
  head : t.head = p
  flag : t.cells p = 0
  beside : Beside p w t

/-- If an arm has run, the last one does not. -/
theorem lastArm_idle {otherwise : Option Code} {w : Config} (hf : floor ≤ p) (h : Ran p v t w) :
    ∃ u, Runs floor (lastArm otherwise) t u ∧ Finished p u w := by
  have hleft : Runs floor (left 2) t (t.goto p) :=
    (runs_left (by rw [h.head]; omega)).2 (by rw [h.head]; rfl)
  have hcell : (t.goto p).cell = 0 := h.pending
  refine ⟨t.goto p, ?_, rfl, h.pending, h.beside.cells, h.beside.input, h.beside.output⟩
  cases otherwise with
  | none => exact hleft.append ((runs_loop_of_zero hcell).2 rfl)
  | some => exact hleft.append ((runs_loop_of_zero hcell).2 rfl)

/-- If no arm has run, the last one does. -/
theorem lastArm_agrees (hback : ComesBack floor p body) (hf : floor ≤ p) (hs : s.head = p + 2) (h1 : s.cells p = 1) :
    ∃ u, Ready p s u ∧ Agree (Finished p) ((lastArm (some body)).exec floor s) (body.exec floor u) := by
  have hleft : Runs floor (left 2) s (s.goto p) := (runs_left (by omega)).2 (by rw [hs]; rfl)
  refine ⟨(s.put p 0).goto (p + 3), ⟨rfl, fun _ _ _ _ => rfl, rfl, rfl⟩, append_agrees hleft ?_⟩
  have hcell : (s.goto p).cell = 1 := h1
  have hloop := loop_agrees (i := 0) hback hf (by decide) (by rw [hcell]; decide) (runs_startLast (t := s.goto p) rfl h1)
    rfl cells_put_self
  refine hloop.mono ?_
  rintro t w ⟨rfl, hw⟩
  exact ⟨rfl, (hw 0 (by decide)).trans cells_put_self, fun _ _ _ _ => rfl, rfl, rfl⟩

theorem lastArm_none (hf : floor ≤ p) (hs : s.head = p + 2) :
    ∃ u, Ready p s u ∧ Agree (Finished p) ((lastArm none).exec floor s) (skip.exec floor u) := by
  have hleft : Runs floor (left 2) s (s.goto p) := (runs_left (by omega)).2 (by rw [hs]; rfl)
  have hclear : Runs floor clear (s.goto p) ((s.goto p).put p 0) := runs_clear.2 rfl
  refine ⟨(s.put p 0).goto (p + 3), ⟨rfl, fun _ _ _ _ => rfl, rfl, rfl⟩, ?_⟩
  exact .ends (hleft.append hclear) (runs_skip.2 rfl) ⟨rfl, cells_put_self, fun _ _ _ _ => rfl, rfl, rfl⟩

theorem isFor_eq : isFor v = fun k => labelOf k == some v := by
  funext k
  cases hl : k.label <;> simp [isFor, labelOf, hl]

theorem dropWhile_not_isDefault (h : ∀ k ∈ ks, ∀ e, k.label = .value e → e.constant? ≠ none) :
    ks.dropWhile (!isDefault ·) = (casesFrom? none ks).getD [] := by
  induction ks with
  | nil => rfl
  | cons k ks ih =>
    obtain ⟨hk, hks⟩ := List.forall_mem_cons.1 h
    have hdefault : isDefault k = (labelOf k == none) := by
      cases hl : k.label with
      | value e => simpa [isDefault, labelOf, hl, Option.isSome_iff_ne_none] using hk e hl
      | default => simp [isDefault, labelOf, hl]
    rw [List.dropWhile_cons, casesFrom?_cons, ih hks, hdefault]
    cases labelOf k == none <;> rfl

theorem chosen_eq (h : ∀ k ∈ ks, ∀ e, k.label = .value e → e.constant? ≠ none) :
    chosen v ks = upToBreak (((casesFrom? (some v) ks).or (casesFrom? none ks)).getD []) := by
  have hfrom : casesFrom? (some v) ks = if ks.any (isFor v) then some (ks.dropWhile (!isFor v ·)) else none := by
    rw [isFor_eq]
    rfl
  rw [chosen, dropWhile_not_isDefault h, hfrom]
  split <;> rfl

theorem mem_of_casesFrom? {l : Option Cell} {ls : List (Case Statement)} (h : casesFrom? l ks = some ls)
    {k : Case Statement} (hk : k ∈ ls) : k ∈ ks := by
  rw [casesFrom?] at h
  split at h
  · cases h
    exact (List.dropWhile_sublist _).mem hk
  · cases h

theorem Distinct.eq_of_has {g g' : Group} {l : Option Cell} (h : Distinct gs) (hg : g ∈ gs) (hg' : g' ∈ gs)
    (hl : g.has l = true) (hl' : g'.has l = true) : g = g' := by
  by_contra hne
  have : Std.Symm fun g h : Group => ∀ l, g.has l = true → h.has l = false := ⟨fun g g' h l hl => by
    by_contra hl'
    rw [h l (by simpa using hl')] at hl
    cases hl⟩
  rw [h.apart.forall hg hg' hne l hl] at hl'
  cases hl'

/-- From the tests on a switch with the value `v` runs the bodies of the cases, one after another. -/
def RunsCases (act : Activation) (scopes : Scopes) (floor p : Nat) (v : Cell) (c : Code) (ks : List (Case Statement)) : Prop :=
  ∃ bs, List.Forall₂ (LowersCase act scopes) ks bs ∧
    ∀ s, s.head = p + 2 → s.cells p = 1 → s.cells (p + 1) = v → ∃ u, Ready p s u ∧
      Agree (Finished p) (c.exec floor s) ((concat bs).exec floor u)

section LastArm

variable {tests : Code} {otherwise : Option Code}

/-- The body of a group that is tested runs in place of the last arm. -/
theorem DoesCases.runs_tested (h : DoesCases act scopes floor p body ks) (hf : floor ≤ p)
    (htests : ∀ s, s.head = p + 2 → s.cells (p + 1) = v →
      ∃ u, Ready p s u ∧ Agree (Ran p v) (tests.exec floor s) (body.exec floor u)) :
    RunsCases act scopes floor p v (tests ++ lastArm otherwise) (upToBreak ks) := by
  obtain ⟨bs, hbs, -, hends⟩ := h
  refine ⟨bs, hbs, fun s hs _ hv => ?_⟩
  obtain ⟨u, hu, hagree⟩ := htests s hs hv
  refine ⟨u, hu, ?_⟩
  rw [exec_append]
  exact (hagree.bind_left fun t w ht => lastArm_idle hf ht).congr_right fun r => (hends u hu.head r).symm

/-- The body left over runs in the last arm. -/
theorem DoesCases.runs_last (h : DoesCases act scopes floor p body ks) (hf : floor ≤ p) (htests : Idle floor p v tests) :
    RunsCases act scopes floor p v (tests ++ lastArm (some body)) (upToBreak ks) := by
  obtain ⟨bs, hbs, hback, hends⟩ := h
  refine ⟨bs, hbs, fun s hs h1 hv => ?_⟩
  obtain ⟨t, ht, hhead, hbeside⟩ := htests s hs hv
  obtain ⟨u, hu, hagree⟩ := lastArm_agrees hback hf hhead ((hbeside.left (by omega)).trans h1)
  exact ⟨u, hu.of_beside hbeside, append_agrees ht (hagree.congr_right fun r => (hends u hu.head r).symm)⟩

theorem Idle.runs_none (htests : Idle floor p v tests) (hf : floor ≤ p) :
    RunsCases act scopes floor p v (tests ++ lastArm none) [] := by
  refine ⟨[], .nil, fun s hs _ hv => ?_⟩
  obtain ⟨t, ht, hhead, hbeside⟩ := htests s hs hv
  obtain ⟨u, hu, hagree⟩ := lastArm_none hf hhead
  exact ⟨u, hu.of_beside hbeside, append_agrees ht hagree⟩

/-- The body of a group does what the cases from one of its labels on do. -/
theorem doesCases_of_covers {l : Option Cell} {g : Group} {ls : List (Case Statement)} (hg : g.Covers act ls)
    (hgs : Lowers (groupArms {} {} (arms act ks)) gs) (hls : casesFrom? l ks = some ls)
    (hback : ∀ k ∈ ks, ∀ b, LowersCase act scopes.enter k b → ComesBack floor p b) (hf : floor ≤ p)
    (hbody : Lowers (inScope (armsCode g.arms) scopes) body) : DoesCases act scopes.enter floor p body ls := by
  have hdeclared : ∀ k ∈ ks, declared? k.body = none := fun k hk =>
    (groupArms_arms hgs).1 (armOf act k) (arms_eq ks ▸ List.mem_map_of_mem hk)
  exact hg.doesCases hbody (fun k hk => hdeclared k (mem_of_casesFrom? hls hk))
    (fun k hk => hback k (mem_of_casesFrom? hls hk)) hf

/-- The group with the default, if no test finds the value, runs in the last arm. -/
theorem runs_default {l : Option Cell} {g : Group} {ls : List (Case Statement)} (hf : floor ≤ p)
    (hgs : Lowers (groupArms {} {} (arms act ks)) gs) (hc : Lowers (testGroups scopes gs) (tests, otherwise))
    (hback : ∀ k ∈ ks, ∀ b, LowersCase act scopes.enter k b → ComesBack floor p b)
    (hls : casesFrom? l ks = some ls) (hcovers : g.Covers act ls) (hg : g ∈ gs) (hd : g.hasDefault = true)
    (hnone : ∀ g ∈ gs, g.hasDefault = true ∨ g.has (some v) = false) :
    RunsCases act scopes.enter floor p v (tests ++ lastArm otherwise) (upToBreak ls) := by
  obtain ⟨hdistinct, -⟩ := groupArms_distinct hgs .empty
  obtain ⟨body, rfl, hbody⟩ := testGroups_default hc hdistinct hg hd
  exact (doesCases_of_covers hcovers hgs hls hback hf hbody).runs_last hf (testGroups_idle hf hc hnone)

/-- The group with a label for the value runs, in place of the last arm or in it. -/
theorem runs_labelled {l : Option Cell} {g : Group} {ls : List (Case Statement)} (hf : floor ≤ p)
    (hgs : Lowers (groupArms {} {} (arms act ks)) gs) (hc : Lowers (testGroups scopes gs) (tests, otherwise))
    (hback : ∀ k ∈ ks, ∀ b, LowersCase act scopes.enter k b → ComesBack floor p b)
    (hls : casesFrom? l ks = some ls) (hcovers : g.Covers act ls) (hg : g ∈ gs) (hhas : g.has (some v) = true) :
    RunsCases act scopes.enter floor p v (tests ++ lastArm otherwise) (upToBreak ls) := by
  obtain ⟨hdistinct, -⟩ := groupArms_distinct hgs .empty
  cases hd : g.hasDefault with
  | false =>
    obtain ⟨body, hbody, htests⟩ := testGroups_agrees hf hc hdistinct hg hd hhas fun body hbody => by
      obtain ⟨_, _, hends, _⟩ := doesCases_of_covers hcovers hgs hls hback hf hbody
      exact hends
    exact (doesCases_of_covers hcovers hgs hls hback hf hbody).runs_tested hf htests
  | true =>
    refine runs_default hf hgs hc hback hls hcovers hg hd fun g' hg' => ?_
    by_cases hhas' : g'.has (some v) = true
    · exact .inl (hdistinct.eq_of_has hg hg' hhas hhas' ▸ hd)
    · exact .inr (by simpa using hhas')

/-- From the tests on a switch runs the chosen cases. -/
theorem tests_run_chosen (hf : floor ≤ p) (hgs : Lowers (groupArms {} {} (arms act ks)) gs)
    (hc : Lowers (testGroups scopes gs) (tests, otherwise))
    (hback : ∀ k ∈ ks, ∀ b, LowersCase act scopes.enter k b → ComesBack floor p b) (v : Cell) :
    RunsCases act scopes.enter floor p v (tests ++ lastArm otherwise) (chosen v ks) := by
  have hconstant : ∀ k ∈ ks, ∀ e, k.label = .value e → e.constant? ≠ none := fun k hk =>
    (groupArms_starts hgs (armOf act k) (arms_eq ks ▸ List.mem_map_of_mem hk)).1
  rw [chosen_eq hconstant]
  have hvalue := groupArms_find hgs (by simp) (some v)
  have hdefault := groupArms_find hgs (by simp) none
  rw [Group.has_empty, if_neg Bool.false_ne_true] at hvalue hdefault
  cases hfind : gs.find? (·.has (some v)) with
  | some g =>
    have hhas : g.has (some v) = true := by simpa using List.find?_some hfind
    rw [hfind] at hvalue
    generalize hls : casesFrom? (some v) ks = ls? at hvalue
    cases hvalue with
    | some hcovers => exact runs_labelled hf hgs hc hback hls hcovers (List.mem_of_find?_eq_some hfind) hhas
  | none =>
    have hnone : ∀ g ∈ gs, g.hasDefault = true ∨ g.has (some v) = false := fun g hg =>
      .inr (by simpa using List.find?_eq_none.1 hfind g hg)
    rw [hfind] at hvalue
    generalize casesFrom? (some v) ks = ls? at hvalue
    cases hvalue
    rw [Option.none_or]
    cases hfind' : gs.find? (·.has none) with
    | some g =>
      have hd : g.has none = true := by simpa using List.find?_some hfind'
      rw [hfind'] at hdefault
      generalize hls : casesFrom? none ks = ls? at hdefault
      cases hdefault with
      | some hcovers => exact runs_default hf hgs hc hback hls hcovers (List.mem_of_find?_eq_some hfind') hd hnone
    | none =>
      rw [hfind'] at hdefault
      generalize casesFrom? none ks = ls? at hdefault
      cases hdefault
      obtain rfl := testGroups_no_default hc fun g hg =>
        show g.has none = false by simpa using List.find?_eq_none.1 hfind' g hg
      exact (testGroups_idle hf hc hnone).runs_none hf

end LastArm

/-- The code of a `switch` evaluates the value once, with the flag of the switch raised beside it, and then
runs the bodies of the chosen cases once, one after another: it ends, goes wrong or goes on forever as
they do, and ends on the cell of the flag, which is zero, with all else as they leave it but the cells
of the tests. -/
theorem switch_runs_chosen {e : Expr} {position : Position} (hf : floor ≤ scopes.offset)
    (hcode : Lowers (switch (fun scopes => expr act scopes e) (arms act ks) position scopes) c)
    (hback : ∀ k ∈ ks, ∀ b, LowersCase act (caseScopes scopes) k b → ComesBack floor scopes.offset b) :
    ∃ value, Lowers (expr act scopes e (scopes.offset + 1)) value ∧
      ∃ (bodies : Cell → List Code) (ready : Config → Config),
        (∀ v, List.Forall₂ (LowersCase act (caseScopes scopes)) (chosen v ks) (bodies v)) ∧
        (∀ t, t.head = scopes.offset + 2 → t.cells scopes.offset = 1 → Ready scopes.offset t (ready t)) ∧
        ∀ s, s.head = scopes.offset →
          (∀ t, Runs floor value ((s.put scopes.offset 1).goto (scopes.offset + 1)) t →
            t.head = scopes.offset + 2 ∧ t.cells scopes.offset = 1) →
          Agree (Finished scopes.offset) (c.exec floor s) (do
            let t ← value.exec floor ((s.put scopes.offset 1).goto (scopes.offset + 1))
            (concat (bodies (t.cells (scopes.offset + 1)))).exec floor (ready t)) := by
  obtain ⟨gs, hgs, hcode⟩ := hcode.bind
  replace hcode := Lowers.of_warning hcode
  obtain ⟨value, hvalue, hcode⟩ := hcode.bind
  obtain ⟨⟨tests, otherwise⟩, htests, hcode⟩ := hcode.bind
  obtain ⟨_, -, hcode⟩ := hcode.bind
  cases lowers_pure.1 hcode
  choose bodies hbodies hready using tests_run_chosen hf hgs htests hback
  generalize scopes.offset = p at *
  have hready (t : Config) : ∃ u, t.head = p + 2 → t.cells p = 1 → Ready p t u ∧
      Agree (Finished p) ((tests ++ lastArm otherwise).exec floor t)
        ((concat (bodies (t.cells (p + 1)))).exec floor u) := by
    by_cases ht : t.head = p + 2 ∧ t.cells p = 1
    · obtain ⟨u, hu⟩ := hready _ t ht.1 ht.2 rfl
      exact ⟨u, fun _ _ => hu⟩
    · exact ⟨t, fun hhead h1 => absurd ⟨hhead, h1⟩ ht⟩
  choose ready hready using hready
  refine ⟨value, hvalue, bodies, ready, hbodies, fun t hhead h1 => (hready t hhead h1).1, fun s hs hends => ?_⟩
  have hstart : Runs floor (clear ++ inc 1 ++ right 1) s ((s.put p 1).goto (p + 1)) := by
    refine ((runs_clear.2 rfl).append (runs_inc.2 rfl)).append (runs_right.2 ?_)
    simp [Config.store, Config.cell, hs]
  have hrest : Agree (Finished p)
      ((value ++ (tests ++ lastArm otherwise)).exec floor ((s.put p 1).goto (p + 1))) (do
        let t ← value.exec floor ((s.put p 1).goto (p + 1))
        (concat (bodies (t.cells (p + 1)))).exec floor (ready t)) := by
    rw [exec_append]
    refine (Agree.refl (R := fun t t' => t = t' ∧ t.head = p + 2 ∧ t.cells p = 1) fun t ht => ⟨rfl, hends t ht⟩).bind ?_
    rintro t _ ⟨rfl, hhead, h1⟩
    exact (hready t hhead h1).2
  have h := append_agrees hstart hrest
  simp only [exec_append_eq, bind_assoc] at h ⊢
  exact h

/-- A case that prints does so wherever it starts, and leaves alone what is left of it. -/
theorem printing_runs {text : String} {label : CaseLabel} {position : Position} {hasBreak : Bool}
    {unreachable : List Statement} {b : Code} (hf : floor ≤ s.head)
    (hb : LowersCase (outermost {} false 0) scopes ⟨label, [.print text position], hasBreak, unreachable, position⟩ b) :
    ∃ t, Runs floor b s t ∧ t.head = s.head ∧ (∀ x < s.head, t.cells x = s.cells x) ∧
      t.output = s.output ++ Text.bytes text.toList := by
  obtain ⟨w, w', h⟩ := hb
  cases h
  have hrun := ((runs_skip.2 rfl).append (runs_writeBytes hf (Text.bytes text.toList))).append (runs_skip.2 rfl)
  exact ⟨_, hrun, rfl, fun x hx => cells_window_of_lt hx, rfl⟩

theorem printing_comesBack {text : String} {label : CaseLabel} {position : Position} {hasBreak : Bool}
    {unreachable : List Statement} {b : Code}
    (hb : LowersCase (outermost {} false 0) scopes ⟨label, [.print text position], hasBreak, unreachable, position⟩ b) :
    ComesBack 0 p b := by
  intro s t hs ht
  obtain ⟨u, hu, hhead, hcells, -⟩ := printing_runs (Nat.zero_le s.head) hb
  obtain rfl := ht.unique hu
  exact ⟨hhead.trans hs, fun i hi => hcells _ (by omega)⟩

/-- A group of two labels, one of them for all other values, a case that goes on into the next one, and
one that ends with `break`. -/
theorem switch_runs_chosen_prints : ∃ code,
    Lowers (switch (fun scopes => expr (outermost {} false 0) scopes (.number 1 ⟨1, 1⟩)) (arms (outermost {} false 0)
      [⟨.default, [], false, [], ⟨1, 1⟩⟩, ⟨.value (.number 1 ⟨1, 1⟩), [.print "a" ⟨1, 1⟩], false, [], ⟨1, 1⟩⟩,
        ⟨.value (.number 2 ⟨1, 1⟩), [.print "b" ⟨1, 1⟩], true, [.print "c" ⟨1, 1⟩], ⟨1, 1⟩⟩]) ⟨1, 1⟩ .empty) code ∧
      ∀ s, s.head = 0 → ∃ t, Runs 0 code s t ∧ t.head = 0 ∧ t.cells 0 = 0 ∧ t.output = s.output ++ [97, 98] := by
  refine .imp (fun code hcode => ⟨hcode, fun s hs => ?_⟩) ⟨_, [], _, rfl⟩
  obtain ⟨value, hvalue, bodies, ready, hbodies, hready, hagree⟩ :=
    switch_runs_chosen (Nat.zero_le 0) hcode fun k hk b hb => by
      rcases List.mem_cons.1 hk with rfl | hk
      · cases lowers_pure.1 hb
        intro s t hs ht
        cases runs_skip.1 ht
        exact ⟨hs, fun _ _ => rfl⟩
      rcases List.mem_cons.1 hk with rfl | hk
      · exact printing_comesBack hb
      · obtain rfl := List.mem_singleton.1 hk
        exact printing_comesBack hb
  cases lowers_pure.1 hvalue
  obtain ⟨t, ht, hleaves⟩ := literal_leaves (v := Cell.ofInt 1) (Nat.zero_le ((s.put 0 1).goto 1).head)
  have h1 : t.cells 0 = 1 := (hleaves.below 0 Nat.zero_lt_one).trans (by rw [cells_goto, cells_put_self])
  have hready := hready t hleaves.head h1
  obtain ⟨u, hu, hend⟩ : ∃ u, Runs 0 (concat (bodies (t.cells 1))) (ready t) u ∧ u.output = s.output ++ [97, 98] := by
    have hchosen := hbodies (t.cells 1)
    rw [show t.cells 1 = Cell.ofInt 1 from hleaves.value] at hchosen ⊢
    generalize bodies (Cell.ofInt 1) = bs at hchosen
    change List.Forall₂ _ [_, _] bs at hchosen
    obtain _ | ⟨ha, _ | ⟨hb, _ | _⟩⟩ := hchosen
    obtain ⟨u, hu, -, -, hprinted⟩ := printing_runs (Nat.zero_le (ready t).head) ha
    obtain ⟨w, hw, -, -, hprinted'⟩ := printing_runs (Nat.zero_le u.head) hb
    refine ⟨w, hu.append hw, ?_⟩
    rw [hprinted', hprinted, hready.beside.output, output_put, hleaves.output, List.append_assoc]
    rfl
  obtain ⟨r, hr, hfinished⟩ := (hagree s hs fun t' ht' => by
    obtain rfl := ht'.unique ht
    exact ⟨hleaves.head, h1⟩).ends_left (bind_ends.2 (.inr ⟨t, ht, hu⟩))
  exact ⟨r, hr, hfinished.head, hfinished.flag, hfinished.beside.output.trans hend⟩

end TapeC.Lowering
