import TapeC.Proofs.AssertedExpression
import TapeC.Proofs.Locality

/-! Statements whose lowering passes its assertions. A statement leaves the scopes around it as
they are and only adds variables to the innermost one; so a scope that is left is the one that was
entered, and cells without a name are given back by the scope that took them. -/

namespace TapeC.Lowering

open Layout Program Tape Routine Code

variable {A : Assertions} {act : Activation} {inline : FunctionDef → Position → CodeAt}
  {scopes scopes' scopes'' : Scopes} {body body' more more' : CodeIn} {e e' : Scopes → CodeAt} {o p : Nat}

/-! ### Scopes -/

/-- Scopes that are left as they were, with more cells in the innermost one. -/
structure Follows (scopes scopes' : Scopes) : Prop where
  outer : scopes'.outer = scopes.outer
  start : scopes'.inner.start = scopes.inner.start
  next : scopes.offset ≤ scopes'.offset

theorem Follows.refl : Follows scopes scopes := ⟨rfl, rfl, Nat.le_refl _⟩

theorem Follows.trans (h : Follows scopes scopes') (h' : Follows scopes' scopes'') : Follows scopes scopes'' :=
  ⟨h'.outer.trans h.outer, h'.start.trans h.start, Nat.le_trans h.next h'.next⟩

theorem Follows.declare {name : String} {shape : Shape} {position : Position} {v : Variable}
    (hv : scopes.declare name shape position = .ok (v, scopes')) : Follows scopes scopes' := by
  rw [Scopes.declare] at hv
  split at hv
  · cases hv
  · cases hv
    exact ⟨rfl, rfl, Nat.le_add_right _ _⟩

/-- A statement is lowered alike with assertions, and leaves scopes behind in which others are too. -/
def Passes (A : Assertions) (act : Activation) (body' body : CodeIn) : Prop :=
  ∀ scopes, Safe A act scopes → body' scopes = body scopes ∧
    ∀ c scopes', Lowers (body scopes) (c, scopes') → Safe A act scopes' ∧ Follows scopes scopes'

/-- A statement that declares nothing is lowered alike. -/
theorem passes_plain {code : Scopes → Lower Code} (h : ∀ scopes, Safe A act scopes → body' scopes = plain code scopes) :
    Passes A act body' (plain code) := by
  refine fun scopes hs => ⟨h scopes hs, fun c scopes' hc => ?_⟩
  obtain ⟨c', -, hc⟩ := hc.bind
  cases lowers_pure.1 hc
  exact ⟨hs, .refl⟩

theorem skip_passes : Passes A act (fun scopes => return (skip, scopes)) fun scopes => return (skip, scopes) :=
  fun scopes hs => ⟨rfl, fun c scopes' hc => by
    cases lowers_pure.1 hc
    exact ⟨hs, .refl⟩⟩

theorem Passes.append (h : Passes A act body' body) (h' : Passes A act more' more) :
    Passes A act (fun scopes => do
      let (code, scopes) ← body' scopes
      let (rest, scopes) ← more' scopes
      return (code ++ rest, scopes)) (fun scopes => do
      let (code, scopes) ← body scopes
      let (rest, scopes) ← more scopes
      return (code ++ rest, scopes)) := by
  intro scopes hs
  obtain ⟨heq, hnext⟩ := h scopes hs
  constructor
  · change body' scopes >>= _ = body scopes >>= _
    rw [heq]
    refine bind_congr_of_lowers fun (c, scopes') hc => ?_
    simp only [(h' scopes' (hnext c scopes' hc).1).1]
  · intro c scopes'' hc
    obtain ⟨⟨c₁, scopes'⟩, h₁, hc⟩ := hc.bind
    obtain ⟨⟨c₂, _⟩, h₂, hc⟩ := hc.bind
    cases lowers_pure.1 hc
    obtain ⟨hs', hfollows⟩ := hnext c₁ scopes' h₁
    obtain ⟨hs'', hfollows'⟩ := (h' scopes' hs').2 c₂ scopes'' h₂
    exact ⟨hs'', hfollows.trans hfollows'⟩

theorem Passes.noted {s : Statement} (h : Passes A act body' body) :
    Passes A act (noted { act with inline } s body') (noted act s body) := by
  intro scopes hs
  obtain ⟨heq, hnext⟩ := h scopes hs
  refine ⟨by rw [Lowering.noted, Lowering.noted, heq]; rfl, fun c scopes' hc => ?_⟩
  obtain ⟨⟨c', _⟩, hc', hc⟩ := hc.bind
  cases lowers_pure.1 hc
  exact hnext c' _ hc'

theorem exit_of (hs : Safe A act scopes) : A.exit scopes = pure scopes.exit := by
  have hstart : scopes.inner.start ≤ scopes.inner.next := hs.start
  rw [Assertions.exit, Assertions.check_of hstart, pure_bind]

/-- A scope that is left is the one that was entered. -/
theorem inScope_passes (h : Passes A act body' body) :
    Passes A act (Asserted.inScope A body') (plain (inScope body)) := by
  refine passes_plain fun scopes hs => ?_
  obtain ⟨heq, hnext⟩ := h scopes.enter hs.enter
  rw [Asserted.inScope, plain, inScope, heq, bind_assoc]
  refine bind_congr_of_lowers fun r hr => ?_
  obtain ⟨hinner, hfollows⟩ := hnext r.1 r.2 hr
  have hexit : r.2.exit = (r.2.claimed, scopes) := by
    rw [Scopes.exit, hfollows.outer]
    rfl
  simp only [exit_of hinner, hexit, pure_bind]

/-- Cells without a name are given back. -/
theorem release_reserve (hs : Safe A act scopes) (n : Nat) : A.release (scopes.reserve n) n = pure scopes := by
  have hstart : (scopes.reserve n).inner.start + n ≤ (scopes.reserve n).inner.next := Nat.add_le_add_right hs.start n
  have hback : (scopes.reserve n).release n = scopes := by
    rw [Scopes.release, Scopes.reserve]
    simp only [Nat.add_sub_cancel]
  rw [Assertions.release, Assertions.check_of hstart, pure_bind, hback]

/-! ### Simple statements -/

/-- Expressions among scopes that are lowered alike from the first free cell on. -/
def AgreeIn (A : Assertions) (act : Activation) (e' e : Scopes → CodeAt) : Prop :=
  ∀ scopes, Safe A act scopes → AgreeFrom scopes.offset (e' scopes) (e scopes)

theorem AgreeIn.first (h : AgreeIn A act e' e) (hs : Safe A act scopes) :
    e' scopes scopes.offset = e scopes scopes.offset :=
  h scopes hs _ (Nat.le_refl _)

theorem discard_asserted (h : AgreeIn A act e' e) (hs : Safe A act scopes) : discard e' scopes = discard e scopes := by
  rw [discard, discard, h.first hs]

theorem giveBack_asserted {position : Position} {value' value : Option (Scopes → CodeAt)}
    (h : Option.Rel (AgreeIn A act) value' value) (hs : Safe A act scopes) :
    Asserted.giveBack A { act with inline } position value' scopes = giveBack act position value scopes := by
  cases h with
  | none => simp only [Asserted.giveBack, giveBack]
  | some h =>
    simp only [Asserted.giveBack, giveBack]
    cases act.returns with
    | void => rfl
    | int => simp only [h.first hs, Assertions.distance_of (Nat.le_of_lt hs.returned), pure_bind]

theorem inPlace_asserted {ι : Type} {F G : ι → Leaf} {cs : List (Content ι)}
    (h : ∀ e, .value e ∈ cs → AgreeFrom o (F e).code (G e).code) (hp : o ≤ p) :
    inPlace p (cs.map (Content.map F)) = inPlace p (cs.map (Content.map G)) := by
  induction cs generalizing p with
  | nil => rfl
  | cons c cs ih =>
    have hc := content_asserted fun e he => h e (he ▸ List.mem_cons_self)
    have hcs := ih (p := p + 1) (fun e he => h e (List.mem_cons_of_mem _ he)) (by omega)
    rw [List.map_cons, List.map_cons, inPlace, inPlace, hc p hp, hcs]

theorem declare_passes {d : Declaration} (hcalls : SameCalls act inline) (hd : A.Walks → ∀ n ∈ d.dims, 0 < n) :
    Passes A act
      (declare { act with inline } d fun scopes => d.contents.map (Asserted.leaves A { act with inline } scopes))
      (declare act d fun scopes => d.contents.map (leaves act scopes)) := by
  intro scopes hs
  constructor
  · rw [declare, declare]
    refine bind_congr_of_lowers fun type _ => ?_
    cases hcontents : d.contents with
    | none => rfl
    | some contents =>
      have hposition (f : Expr → CodeAt) : (Leaf.position ∘ fun e => ⟨e.position, f e⟩) = Expr.position := rfl
      simp only [Option.map_some, Asserted.leaves_eq, leaves_eq, layOutContents_map, hposition]
      cases hcells : layOutContents Expr.position d.name d.position ⟨type, d.dims⟩ contents with
      | error fault => rfl
      | ok cells =>
        have hplace : inPlace scopes.offset
            (cells.map (Content.map fun e => ⟨e.position, Asserted.expr A { act with inline } scopes e⟩)) =
            inPlace scopes.offset (cells.map (Content.map fun e => ⟨e.position, expr act scopes e⟩)) :=
          inPlace_asserted (fun e _ => expr_asserted hs hcalls e) (Nat.le_refl scopes.offset)
        have hlift (cells : List (Content Leaf)) : (liftM (Except.ok cells : Except CompileFault _) : Lower _) =
          pure cells := rfl
        simp only [Except.map, hlift, pure_bind, hplace]
  · intro c scopes' hc
    obtain ⟨type, htype, hc⟩ := hc.bind
    have htype := lowers_lift.1 htype
    have hdeclared {code : Code} (hc : Lowers (do
        let declared ← scopes.declare d.name ⟨type, d.dims⟩ d.position
        return (code, declared.2) : Lower (Code × Scopes)) (c, scopes')) :
        Safe A act scopes' ∧ Follows scopes scopes' := by
      obtain ⟨⟨v, next⟩, hv, hc⟩ := hc.bind
      cases lowers_pure.1 hc
      have hv := lowers_lift.1 hv
      have hsolid (hw : A.Walks) : Shape.Solid ⟨type, d.dims⟩ := ⟨hd hw, resolveType_solid (hs.solid hw).structs htype⟩
      exact ⟨hs.declare (resolveType_sound hs.prepared.structs htype) hsolid hv, .declare hv⟩
    cases hcontents : d.contents with
    | none =>
      rw [hcontents] at hc
      obtain ⟨code, -, hc⟩ := hc.bind
      exact hdeclared hc
    | some contents =>
      rw [hcontents] at hc
      obtain ⟨cells, -, hc⟩ := hc.bind
      obtain ⟨code, -, hc⟩ := hc.bind
      exact hdeclared hc

/-! ### Branches and loops -/

theorem branch_passes {a a' : CodeIn} {b b' : Option CodeIn} (he : AgreeIn A act e' e) (ha : Passes A act a' a)
    (hb : Option.Rel (Passes A act) b' b) : Passes A act (Asserted.branch A e' a' b') (plain (branch e a b)) := by
  refine passes_plain fun scopes hs => ?_
  have harm := (inScope_passes ha (scopes.reserve 2) (hs.reserve 2)).1
  cases hb with
  | none => simp only [Asserted.branch, plain, branch, he.first hs, harm, release_reserve hs, bind_assoc, pure_bind]
  | some hb =>
    have harm' := (inScope_passes hb (scopes.reserve 2) (hs.reserve 2)).1
    simp only [Asserted.branch, plain, branch, he.first hs, harm, bind_assoc, pure_bind]
    simp only [harm', plain, release_reserve hs, bind_assoc, pure_bind]

theorem whileLoop_passes (he : AgreeIn A act e' e) (hb : Passes A act body' body) :
    Passes A act (Asserted.whileLoop A e' body') (plain (whileLoop e body)) := by
  refine passes_plain fun scopes hs => ?_
  simp only [Asserted.whileLoop, whileLoop, plain, he.first hs, (inScope_passes hb scopes hs).1, bind_assoc, pure_bind]

theorem doLoop_passes (he : AgreeIn A act e' e) (hb : Passes A act body' body) :
    Passes A act (Asserted.doLoop A body' e') (plain (doLoop body e)) := by
  refine passes_plain fun scopes hs => ?_
  simp only [Asserted.doLoop, doLoop, plain, (inScope_passes hb scopes hs).1, he.first hs, bind_assoc, pure_bind]

/-- The rounds of a `for` with assertions. -/
def assertedRounds (A : Assertions) (condition step : Option (Scopes → CodeAt)) (body : CodeIn) : CodeIn :=
  fun scopes => do
    let condition ← (condition.getD fun _ => constant 1) scopes scopes.offset
    let (body, scopes) ← Asserted.inScope A body scopes
    let step ←
      match step with
      | some step => discard step scopes
      | none => pure skip
    return (repeatWhile condition (body ++ step), scopes)

theorem assertedForLoop_eq {init : Option CodeIn} {condition step : Option (Scopes → CodeAt)} :
    Asserted.forLoop A init condition step body = Asserted.inScope A fun scopes => do
      let (code, scopes) ← init.getD (fun scopes => return (skip, scopes)) scopes
      let (rest, scopes) ← assertedRounds A condition step body scopes
      return (code ++ rest, scopes) := by
  unfold Asserted.forLoop
  congr
  funext scopes
  cases init <;> cases step <;> simp [assertedRounds]

theorem rounds_passes {condition condition' step step' : Option (Scopes → CodeAt)}
    (hcond : Option.Rel (AgreeIn A act) condition' condition) (hstep : Option.Rel (AgreeIn A act) step' step)
    (hb : Passes A act body' body) :
    Passes A act (assertedRounds A condition' step' body') (plain (rounds condition step body)) := by
  refine passes_plain fun scopes hs => ?_
  have hfirst : AgreeIn A act (condition'.getD fun _ => constant 1) (condition.getD fun _ => constant 1) := by
    cases hcond with
    | none => exact fun _ _ => .refl
    | some h => exact h
  simp only [assertedRounds, plain, rounds, hfirst.first hs, (inScope_passes hb scopes hs).1, bind_assoc, pure_bind]
  cases hstep with
  | none => rfl
  | some h => simp only [discard_asserted h hs, bind_assoc, pure_bind]

theorem forLoop_passes {init init' : Option CodeIn} {condition condition' step step' : Option (Scopes → CodeAt)}
    (hi : Option.Rel (Passes A act) init' init) (hcond : Option.Rel (AgreeIn A act) condition' condition)
    (hstep : Option.Rel (AgreeIn A act) step' step) (hb : Passes A act body' body) :
    Passes A act (Asserted.forLoop A init' condition' step' body') (plain (forLoop init condition step body)) := by
  have hfirst : Passes A act (init'.getD fun scopes => return (skip, scopes))
      (init.getD fun scopes => return (skip, scopes)) := by
    cases hi with
    | none => exact skip_passes
    | some hi => exact hi
  rw [assertedForLoop_eq, forLoop_eq]
  exact inScope_passes (hfirst.append (rounds_passes hcond hstep hb))

/-! ### Switches -/

/-- A group with other code for its arms. -/
def Group.map (k : Arm → Arm) (g : Group) : Group := { g with arms := g.arms.map k }

theorem addLabel_map {k : Arm → Arm} {seen : Labels} {g : Group} {c : Case Statement} :
    addLabel seen (g.map k) c = (fun r => (r.1, r.2.map k)) <$> addLabel seen g c := by
  rw [addLabel, addLabel]
  cases c.label with
  | default =>
    dsimp only
    split <;> simp [Group.map]
  | value e =>
    dsimp only
    cases e.constant? with
    | none => rfl
    | some v =>
      dsimp only
      split <;> simp [Group.map]

/-- Of arms only the cases matter for the groups. -/
theorem groupArms_map {k : Arm → Arm} (hk : ∀ a, (k a).case = a.case) {seen : Labels} {g : Group} {as : List Arm} :
    groupArms seen (g.map k) (as.map k) = List.map (Group.map k) <$> groupArms seen g as := by
  induction as generalizing seen g with
  | nil => rfl
  | cons a as ih =>
    rw [List.map_cons, groupArms, groupArms, hk, addLabel_map, bind_map_left, map_bind]
    refine bind_congr fun r => ?_
    obtain ⟨seen', next⟩ := r
    have hrest : (if !a.case.body.isEmpty || a.case.hasBreak || (as.map k).isEmpty then do
          let groups ← groupArms seen' {} (as.map k)
          return { next.map k with arms := k a :: as.map k } :: groups
        else groupArms seen' (next.map k) (as.map k)) =
        List.map (Group.map k) <$> (if !a.case.body.isEmpty || a.case.hasBreak || as.isEmpty then do
          let groups ← groupArms seen' {} as
          return { next with arms := a :: as } :: groups
        else groupArms seen' next as) := by
      have hfirst : groupArms seen' {} (as.map k) = List.map (Group.map k) <$> groupArms seen' {} as :=
        ih (g := {})
      rw [List.isEmpty_map, hfirst, ih, bind_map_left]
      split
      · rw [map_bind]
        rfl
      · rfl
    cases declared? a.case.body with
    | some d =>
      rw [map_bind]
      exact bind_congr_of_lowers fun _ h => absurd h not_lowers_fail
    | none =>
      dsimp only
      rw [hrest]
      split
      · rw [map_bind]
      · rfl

variable {k : Arm → Arm} {as : List Arm} {gs : List Group}

theorem armsCode_passes (hk : ∀ a, (k a).case = a.case) (h : ∀ a ∈ as, Passes A act (k a).body a.body) :
    Passes A act (armsCode (as.map k)) (armsCode as) := by
  induction as with
  | nil => exact skip_passes
  | cons a as ih =>
    obtain ⟨ha, has⟩ := List.forall_mem_cons.1 h
    have hboth := ha.append (ih has)
    rw [List.map_cons]
    intro scopes hs
    obtain ⟨heq, hnext⟩ := ha scopes hs
    by_cases hbreak : a.case.hasBreak = true
    · have heta (x : Lower (Code × Scopes)) : (do let (code, scopes) ← x; return (code, scopes)) = x := bind_pure x
      simp only [armsCode, hk, hbreak, if_true, heta]
      exact ⟨heq, hnext⟩
    · simpa only [armsCode, hk, hbreak, if_false, Bool.false_eq_true] using hboth scopes hs

theorem testGroups_asserted (hk : ∀ a, (k a).case = a.case) (hs : Safe A act scopes)
    (h : ∀ g ∈ gs, ∀ a ∈ g.arms, Passes A act (k a).body a.body) :
    Asserted.testGroups A (gs.map (Group.map k)) scopes = (do return (← testGroups scopes gs, scopes)) := by
  induction gs with
  | nil => rfl
  | cons g gs ih =>
    obtain ⟨hg, hgs⟩ := List.forall_mem_cons.1 h
    have harms := (inScope_passes (armsCode_passes hk hg) scopes hs).1
    rw [List.map_cons, Asserted.testGroups, testGroups, ih hgs]
    simp only [bind_assoc, pure_bind, Group.map, harms, plain]
    refine bind_congr fun r => bind_congr fun c => ?_
    by_cases hdefault : g.hasDefault = true <;>
      simp only [hdefault, if_true, if_false, Bool.false_eq_true, pure_bind]

theorem checkUnreachable_asserted {bs' bs : List CodeIn} (h : List.Forall₂ (Passes A act) bs' bs)
    (hs : Safe A act scopes) :
    Asserted.checkUnreachable A bs' scopes = (do checkUnreachable scopes bs; return scopes) := by
  induction h with
  | nil => rfl
  | cons hb _ ih =>
    rw [Asserted.checkUnreachable, checkUnreachable, (inScope_passes hb scopes hs).1]
    simp only [plain, bind_assoc, pure_bind, ih]

theorem switch_passes {position : Position} (he : AgreeIn A act e' e) (hk : ∀ a, (k a).case = a.case)
    (h : ∀ a ∈ as, Passes A act (k a).body a.body ∧ List.Forall₂ (Passes A act) (k a).unreachable a.unreachable) :
    Passes A act (Asserted.switch A e' (as.map k) position) (plain (switch e as position)) := by
  have hbodies : List.Forall₂ (Passes A act) ((as.map k).flatMap (·.unreachable)) (as.flatMap (·.unreachable)) := by
    clear he
    induction as with
    | nil => exact .nil
    | cons a as ih =>
      obtain ⟨ha, has⟩ := List.forall_mem_cons.1 h
      exact List.rel_append ha.2 (ih has)
  refine passes_plain fun scopes hs => ?_
  have hgroups : groupArms {} {} (as.map k) = List.map (Group.map k) <$> groupArms {} {} as :=
    groupArms_map hk (g := {})
  simp only [Asserted.switch, plain, switch, hgroups, bind_map_left, bind_assoc, List.isEmpty_map,
    he scopes hs (scopes.offset + 1) (Nat.le_succ _)]
  refine bind_congr_of_lowers fun gs hgs => ?_
  have harms := (groupArms_arms hgs).2
  have htests : Asserted.testGroups A (gs.map (Group.map k)) (scopes.reserve 3) =
      (do return (← testGroups (scopes.reserve 3) gs, scopes.reserve 3)) :=
    testGroups_asserted hk (hs.reserve 3) fun g hg a ha => (h a (harms g hg a ha)).1
  simp only [htests, checkUnreachable_asserted hbodies (hs.reserve 3), release_reserve hs, bind_assoc, pure_bind]
  split <;> simp only [bind_assoc, pure_bind] <;> rfl

/-! ### Statements -/

namespace Asserted

theorem statementList_eq (body : List Statement) : statementList A act body = body.map (statement A act) := by
  induction body with
  | nil => rfl
  | cons s body ih => rw [statementList, ih, List.map_cons]

/-- The arm of a switch that a case becomes. -/
def armOf (A : Assertions) (act : Activation) (c : Case Statement) : Arm :=
  ⟨c, statements A act c.body, statementList A act c.unreachable⟩

theorem arms_eq (cases : List (Case Statement)) : arms A act cases = cases.map (armOf A act) := by
  induction cases with
  | nil => rfl
  | cons c cases ih => rw [arms, ih, List.map_cons, armOf]

end Asserted

theorem statements_passes {ss : List Statement}
    (h : ∀ s ∈ ss, Passes A act (Asserted.statement A { act with inline } s) (statement act s)) :
    Passes A act (Asserted.statements A { act with inline } ss) (statements act ss) := by
  induction ss with
  | nil => exact skip_passes
  | cons s ss ih =>
    obtain ⟨hs, hss⟩ := List.forall_mem_cons.1 h
    have hboth := hs.append (ih hss)
    intro scopes hsafe
    obtain ⟨heq, hnext⟩ := hboth scopes hsafe
    refine ⟨bind_congr fun _ => heq, fun c scopes' hc => ?_⟩
    obtain ⟨_, -, hc⟩ := hc.bind
    exact hnext c scopes' hc

theorem arms_passes {cases : List (Case Statement)} (h : ∀ c ∈ cases, ∀ s ∈ c.body ++ c.unreachable,
    Passes A act (Asserted.statement A { act with inline } s) (statement act s)) :
    ∀ a ∈ arms act cases,
      Passes A act (Asserted.armOf A { act with inline } a.case).body a.body ∧
        List.Forall₂ (Passes A act) (Asserted.armOf A { act with inline } a.case).unreachable a.unreachable := by
  rw [arms_eq]
  intro a ha
  obtain ⟨c, hc, rfl⟩ := List.mem_map.1 ha
  refine ⟨statements_passes fun s hs => h c hc s (List.mem_append_left _ hs), ?_⟩
  change List.Forall₂ (Passes A act) (Asserted.statementList A { act with inline } c.unreachable)
    (statementList act c.unreachable)
  rw [Asserted.statementList_eq, statementList_eq, List.forall₂_map_left_iff, List.forall₂_map_right_iff,
    List.forall₂_same]
  exact fun s hs => h c hc s (List.mem_append_right _ hs)

theorem map_agreeIn (hcalls : SameCalls act inline) (e : Option Expr) :
    Option.Rel (AgreeIn A act) (e.map fun e scopes => Asserted.expr A { act with inline } scopes e)
      (e.map fun e scopes => expr act scopes e) := by
  cases e with
  | none => exact .none
  | some e => exact .some fun _ hs => expr_asserted hs hcalls e

/-- Wherever a statement is lowered, all assertions hold. -/
theorem statement_passes (hcalls : SameCalls act inline) {s : Statement} (hsolid : A.Walks → s.Solid) :
    Passes A act (Asserted.statement A { act with inline } s) (statement act s) := by
  have hexpr (e : Expr) : AgreeIn A act (fun scopes => Asserted.expr A { act with inline } scopes e)
      fun scopes => expr act scopes e :=
    fun _ hs => expr_asserted hs hcalls e
  induction s using Statement.induct with
  | step s ih =>
    have ih (t : Statement) (ht : t ∈ s.parts) :
        Passes A act (Asserted.statement A { act with inline } t) (statement act t) :=
      ih t ht fun hw => (hsolid hw).part ht
    have hbranch {b : Option Statement} (hb : ∀ t ∈ b.toList, t ∈ s.parts) :
        Option.Rel (Passes A act) (Asserted.statement? A { act with inline } b) (statement? act b) := by
      cases b with
      | none => exact .none
      | some t => exact .some (ih t (hb t List.mem_cons_self))
    cases s with
    | declare d => exact (declare_passes hcalls fun hw => hsolid hw d .self).noted
    | expr e => exact (passes_plain fun scopes hs => by rw [plain, plain, discard_asserted (hexpr e) hs]).noted
    | print text p => exact (passes_plain fun _ _ => rfl).noted
    | block body p => exact inScope_passes (statements_passes ih)
    | ifElse c a b p =>
      exact (branch_passes (hexpr c) (ih a List.mem_cons_self) (hbranch fun t ht => List.mem_cons_of_mem _ ht)).noted
    | whileLoop c body p => exact (whileLoop_passes (hexpr c) (ih body List.mem_cons_self)).noted
    | doLoop body c p => exact (doLoop_passes (hexpr c) (ih body List.mem_cons_self)).noted
    | forLoop init c step body p =>
      have hloop := forLoop_passes (hbranch (b := init) fun t ht => List.mem_cons_of_mem _ ht) (map_agreeIn hcalls c)
        (map_agreeIn hcalls step) (ih body List.mem_cons_self)
      refine Passes.noted (passes_plain fun scopes hs => ?_)
      have heq := (hloop scopes hs).1
      simp only [plain] at heq
      simp only [plain, heq, bind_assoc]
    | switch value cases p =>
      have harms (c : Case Statement) (hc : c ∈ cases) (t : Statement) (ht : t ∈ c.body ++ c.unreachable) :=
        ih t (List.mem_flatMap.2 ⟨c, hc, ht⟩)
      have hmap : Asserted.arms A { act with inline } cases =
          (arms act cases).map fun a => Asserted.armOf A { act with inline } a.case := by
        rw [Asserted.arms_eq, arms_eq, List.map_map]
        rfl
      rw [Asserted.statement, statement, hmap]
      refine Passes.noted ?_
      exact switch_passes (hexpr value) (fun _ => rfl) (arms_passes harms)
    | returns value p =>
      exact (passes_plain fun scopes hs => by rw [plain, plain, giveBack_asserted (map_agreeIn hcalls value) hs]).noted
    | breaks p => exact fun _ _ => ⟨rfl, fun _ _ h => absurd h not_lowers_throw⟩
    | continues p => exact fun _ _ => ⟨rfl, fun _ _ h => absurd h not_lowers_throw⟩
    | empty => exact passes_plain fun _ _ => rfl

end TapeC.Lowering
