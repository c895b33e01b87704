import TapeC.Lowering.Switch
import TapeC.Proofs.Alike

/-! Statements whose lowerings are alike, put together from parts that are. -/

namespace TapeC.Lowering.Likeness

open Layout Program Tape Routine Code

variable {L : Likeness}

/-- Alike among any scopes, which are the same after it. -/
def AlikeIn (L : Likeness) (body body' : CodeIn) : Prop :=
  ∀ scopes, L.Alike (fun r r' => L.code r.1 r'.1 ∧ r.2 = r'.2) (body scopes) (body' scopes)

/-- Alike among any scopes, to which it adds nothing. -/
def AlikePlain (L : Likeness) (code code' : Scopes → Lower Code) : Prop :=
  ∀ scopes, L.Alike L.code (code scopes) (code' scopes)

/-- Expressions that are alike among any scopes. -/
def AlikeExpr (L : Likeness) (e e' : Scopes → CodeAt) : Prop := ∀ scopes, L.AlikeAt (e scopes) (e' scopes)

variable {body body' : CodeIn} {c c' s s' e e' : Scopes → CodeAt}

/-! ### Simple statements -/

theorem inScope_alike (h : L.AlikeIn body body') : L.AlikePlain (inScope body) (inScope body') := by
  refine fun scopes => (h scopes.enter).bind fun (x, inner) (x', inner') hr => ?_
  obtain ⟨hx, hinner⟩ := hr
  cases hinner
  exact .pure (L.append hx (L.refl rfl))

theorem plain_alike {code code' : Scopes → Lower Code} (h : L.AlikePlain code code') :
    L.AlikeIn (plain code) (plain code') :=
  fun scopes => (h scopes).bind fun _ _ h => .pure ⟨h, rfl⟩

theorem skip_alike : L.AlikeIn (fun scopes => return (skip, scopes)) (fun scopes => return (skip, scopes)) :=
  fun _ => .pure ⟨L.refl rfl, rfl⟩

theorem append_alike {more more' : CodeIn} (h : L.AlikeIn body body') (h' : L.AlikeIn more more') :
    L.AlikeIn
      (fun scopes => do
        let (code, scopes) ← body scopes
        let (rest, scopes) ← more scopes
        return (code ++ rest, scopes))
      (fun scopes => do
        let (code, scopes) ← body' scopes
        let (rest, scopes) ← more' scopes
        return (code ++ rest, scopes)) := by
  refine fun scopes => (h scopes).bind fun (code, next) (code', next') hr => ?_
  obtain ⟨hcode, hnext⟩ := hr
  cases hnext
  exact (h' next).bind fun _ _ hr' => .pure ⟨L.append hcode hr'.1, hr'.2⟩

section Contents

variable {ε : Type} {leaf leaf' : ε → Leaf}

theorem inPlace_alike {cs : List (Content ε)} (h : ∀ e, .value e ∈ cs → L.AlikeLeaf (leaf e) (leaf' e)) (p : Nat) :
    L.Alike L.code (inPlace p (cs.map (Content.map leaf))) (inPlace p (cs.map (Content.map leaf'))) := by
  induction cs generalizing p with
  | nil => exact .pure (L.refl rfl)
  | cons c cs ih =>
    refine (content_alike (fun e he => h e (by simp [he])) p).bind fun _ _ hc => ?_
    exact (ih (fun e he => h e (by simp [he])) (p + 1)).bind fun _ _ hcs => .pure (L.append hc hcs)

/-- A declaration, of which the contents may be written differently. -/
theorem declare_alike {act act' : Activation} {d d' : Declaration} {i : Option (Initializer ε)}
    {leaf leaf' : Scopes → ε → Leaf} (hstructs : act.definitions.structs = act'.definitions.structs)
    (htype : d.type = d'.type) (hname : d.name = d'.name) (hdims : d.dims = d'.dims)
    (hposition : d.position = d'.position)
    (h : ∀ scopes, ∀ j ∈ i, ∀ e ∈ j.leaves, L.AlikeLeaf (leaf scopes e) (leaf' scopes e)) :
    L.AlikeIn (declare act d fun scopes => i.map (·.map (leaf scopes)))
      (declare act' d' fun scopes => i.map (·.map (leaf' scopes))) := by
  intro scopes
  rw [declare, declare, hstructs, htype, hname, hdims, hposition]
  refine (alike_liftM resolveType_failsOrdinarily).bind fun type _ htype => ?_
  subst htype
  have hrest (code code' : Code) (hcode : L.code code code') :
      L.Alike (fun r r' => L.code r.1 r'.1 ∧ r.2 = r'.2)
        (do
          let declared ← scopes.declare d'.name ⟨type, d'.dims⟩ d'.position
          return (code, declared.2))
        (do
          let declared ← scopes.declare d'.name ⟨type, d'.dims⟩ d'.position
          return (code', declared.2)) :=
    (alike_liftM declare_failsOrdinarily).bind fun _ _ hr => hr ▸ .pure ⟨hcode, rfl⟩
  cases i with
  | none => exact (Alike.pure (L.refl noteless_right)).bind hrest
  | some j =>
    refine (layOutContents_alike (h scopes j rfl)).bind fun _ _ hcs => ?_
    obtain ⟨cs, rfl, rfl, hleaf⟩ := hcs
    exact (inPlace_alike hleaf scopes.offset).bind hrest

end Contents

theorem discard_alike (h : L.AlikeExpr e e') : L.AlikePlain (discard e) (discard e') :=
  fun scopes => (h scopes scopes.offset).bind fun _ _ h => .pure (L.append h (L.refl rfl))

/-- Both left out, or alike. -/
def AlikeOption (L : Likeness) (e e' : Option (Scopes → CodeAt)) : Prop := Option.Rel L.AlikeExpr e e'

theorem giveBack_alike {act act' : Activation} {position : Position} {v v' : Option (Scopes → CodeAt)}
    (hreturns : act.returns = act'.returns) (hcell : act.returnCell = act'.returnCell)
    (h : L.AlikeOption v v') : L.AlikePlain (giveBack act position v) (giveBack act' position v') := by
  intro scopes
  rw [giveBack.eq_def, giveBack.eq_def, hreturns, hcell]
  cases h with
  | none => exact .pure (L.refl rfl)
  | some h =>
    cases act'.returns with
    | void => exact alike_fail nofun
    | int => exact (h scopes scopes.offset).bind fun _ _ h => .pure (L.append (L.append h (L.refl rfl)) (L.refl rfl))

/-! ### Branches and loops -/

theorem branch_alike {a a' : CodeIn} {b b' : Option CodeIn} (hc : L.AlikeExpr c c') (ha : L.AlikeIn a a')
    (hb : Option.Rel L.AlikeIn b b') : L.AlikePlain (branch c a b) (branch c' a' b') := by
  refine fun scopes => (hc scopes scopes.offset).bind fun _ _ hc => ?_
  refine (inScope_alike ha (scopes.reserve 2)).bind fun _ _ ha => ?_
  cases hb with
  | none =>
    refine .pure ?_
    repeat' first | assumption | exact L.refl rfl | apply L.append | apply L.loop
  | some hb =>
    refine (inScope_alike hb (scopes.reserve 2)).bind fun _ _ hb => .pure ?_
    repeat' first | assumption | exact L.refl rfl | apply L.append | apply L.loop

theorem repeatWhile_alike {x x' y y' : Code} (hx : L.code x x') (hy : L.code y y') :
    L.code (repeatWhile x y) (repeatWhile x' y') := by
  repeat' first | assumption | exact L.refl rfl | apply L.append | apply L.loop

theorem whileLoop_alike (hc : L.AlikeExpr c c') (h : L.AlikeIn body body') :
    L.AlikePlain (whileLoop c body) (whileLoop c' body') :=
  fun scopes => (hc scopes scopes.offset).bind fun _ _ hc => (inScope_alike h scopes).bind fun _ _ h =>
    .pure (repeatWhile_alike hc h)

theorem doLoop_alike (h : L.AlikeIn body body') (hc : L.AlikeExpr c c') :
    L.AlikePlain (doLoop body c) (doLoop body' c') := by
  refine fun scopes => (inScope_alike h scopes).bind fun _ _ h =>
    (hc scopes scopes.offset).bind fun _ _ hc => .pure ?_
  repeat' first | assumption | exact L.refl rfl | apply L.append | apply L.loop

theorem forLoop_alike {init init' : Option CodeIn} {c c' s s' : Option (Scopes → CodeAt)}
    (hinit : Option.Rel L.AlikeIn init init') (hc : L.AlikeOption c c') (hs : L.AlikeOption s s')
    (h : L.AlikeIn body body') : L.AlikePlain (forLoop init c s body) (forLoop init' c' s' body') := by
  have hcondition : L.AlikeExpr (c.getD fun _ => constant 1) (c'.getD fun _ => constant 1) := by
    cases hc with
    | none => exact fun _ => constant_alike
    | some h => exact h
  -- what follows the first part, among the scopes that it leaves
  have hrest {step step' : Scopes → Lower Code} (hstep : ∀ scopes, L.Alike L.code (step scopes) (step' scopes))
      (r r' : Code × Scopes) (hr : L.code r.1 r'.1 ∧ r.2 = r'.2) :
      L.Alike (fun r r' => L.code r.1 r'.1 ∧ r.2 = r'.2)
        (do
          let condition ← (c.getD fun _ => constant 1) r.2 r.2.offset
          let body ← inScope body r.2
          let step ← step r.2
          return (r.1 ++ repeatWhile condition (body ++ step), r.2))
        (do
          let condition ← (c'.getD fun _ => constant 1) r'.2 r'.2.offset
          let body ← inScope body' r'.2
          let step ← step' r'.2
          return (r'.1 ++ repeatWhile condition (body ++ step), r'.2)) := by
    obtain ⟨x, next⟩ := r
    obtain ⟨x', next'⟩ := r'
    obtain ⟨hx, hnext⟩ := hr
    cases hnext
    refine (hcondition next next.offset).bind fun _ _ hc => (inScope_alike h next).bind fun _ _ h => ?_
    exact (hstep next).bind fun _ _ hs => .pure ⟨L.append hx (repeatWhile_alike hc (L.append h hs)), rfl⟩
  refine inScope_alike fun scopes => ?_
  cases hs with
  | none =>
    have hskip (scopes : Scopes) : L.Alike L.code (pure skip) (pure skip) := .pure (L.refl noteless_skip)
    cases hinit with
    | none => exact hrest hskip (skip, scopes) (skip, scopes) ⟨L.refl rfl, rfl⟩
    | some hinit => exact (hinit scopes).bind (hrest hskip)
  | some hs =>
    cases hinit with
    | none => exact hrest (discard_alike hs) (skip, scopes) (skip, scopes) ⟨L.refl rfl, rfl⟩
    | some hinit => exact (hinit scopes).bind (hrest (discard_alike hs))

/-! ### Switches -/

/-- The same label. -/
inductive AlikeLabel : CaseLabel → CaseLabel → Prop where
  | default : AlikeLabel .default .default
  | value {e e' : Expr} (constant : e.constant? = e'.constant?) (position : e.position = e'.position) :
      AlikeLabel (.value e) (.value e')

/-- Arms with the same label that do the same. -/
structure AlikeArm (L : Likeness) (a a' : Arm) : Prop where
  label : AlikeLabel a.case.label a'.case.label
  declared : (declared? a.case.body).map (fun d => (d.name, d.position)) =
    (declared? a'.case.body).map (fun d => (d.name, d.position))
  empty : a.case.body.isEmpty = a'.case.body.isEmpty
  hasBreak : a.case.hasBreak = a'.case.hasBreak
  reached : a.case.unreachable.isEmpty = a'.case.unreachable.isEmpty
  position : a.case.position = a'.case.position
  body : L.AlikeIn a.body a'.body
  unreachable : List.Forall₂ L.AlikeIn a.unreachable a'.unreachable

structure AlikeGroup (L : Likeness) (g g' : Group) : Prop where
  labels : g.labels = g'.labels
  hasDefault : g.hasDefault = g'.hasDefault
  arms : List.Forall₂ L.AlikeArm g.arms g'.arms

variable {as as' : List Arm} {g g' : Group} {gs gs' : List Group}

theorem addLabel_alike {k k' : Case Statement} (seen : Labels) (hlabel : AlikeLabel k.label k'.label)
    (hposition : k.position = k'.position) (hg : L.AlikeGroup g g') :
    L.Alike (fun r r' => r.1 = r'.1 ∧ L.AlikeGroup r.2 r'.2) (addLabel seen g k) (addLabel seen g' k') := by
  rw [addLabel, addLabel, hposition]
  generalize k.label = l at hlabel
  generalize k'.label = l' at hlabel
  cases hlabel with
  | default => exact alike_guard (alike_fail (by nofun)) fun _ => .pure ⟨rfl, hg.labels, rfl, hg.arms⟩
  | @value e e' hconstant hposition =>
    simp only [hconstant, hposition]
    cases e'.constant? with
    | none => exact alike_fail nofun
    | some v =>
      exact alike_guard (alike_fail (by nofun)) fun _ =>
        .pure ⟨rfl, congrArg (· ++ [v]) hg.labels, hg.hasDefault, hg.arms⟩

theorem groupArms_alike (h : List.Forall₂ L.AlikeArm as as') (seen : Labels) (hg : L.AlikeGroup g g') :
    L.Alike (List.Forall₂ L.AlikeGroup) (groupArms seen g as) (groupArms seen g' as') := by
  induction h generalizing seen g g' with
  | nil => exact .pure .nil
  | @cons a a' as as' ha has ih =>
    rw [groupArms, groupArms]
    refine (addLabel_alike seen ha.label ha.position hg).bind fun (seen', next) (_, next') hr => ?_
    obtain ⟨hseen, hnext⟩ := hr
    cases hseen
    have hrest : L.Alike (List.Forall₂ L.AlikeGroup)
        (if !a.case.body.isEmpty || a.case.hasBreak || as.isEmpty then do
          let groups ← groupArms seen' {} as
          return { next with arms := a :: as } :: groups
        else groupArms seen' next as)
        (if !a'.case.body.isEmpty || a'.case.hasBreak || as'.isEmpty then do
          let groups ← groupArms seen' {} as'
          return { next' with arms := a' :: as' } :: groups
        else groupArms seen' next' as') := by
      have hempty : as.isEmpty = as'.isEmpty := by cases has <;> rfl
      rw [ha.empty, ha.hasBreak, hempty]
      split
      · exact (ih seen' ⟨rfl, rfl, .nil⟩).bind fun _ _ hgs =>
          .pure (.cons ⟨hnext.labels, hnext.hasDefault, .cons ha has⟩ hgs)
      · exact ih seen' hnext
    have hdeclared := ha.declared
    simp only [ha.reached, ha.position]
    generalize declared? a.case.body = d at hdeclared
    generalize declared? a'.case.body = d' at hdeclared
    cases d with
    | none =>
      cases d' with
      | none => exact alike_guard alike_warn fun _ => hrest
      | some d' => cases hdeclared
    | some d =>
      cases d' with
      | none => cases hdeclared
      | some d' =>
        obtain ⟨hname, hposition⟩ := Prod.mk.inj (Option.some.inj hdeclared)
        simp only [hname, hposition]
        have hfail : L.Alike Eq (fail d'.position (.declarationInCase d'.name) : Lower PUnit)
            (fail d'.position (.declarationInCase d'.name)) := alike_fail nofun
        exact hfail.bind fun _ _ _ => alike_guard alike_warn fun _ => hrest

theorem armsCode_alike (h : List.Forall₂ L.AlikeArm as as') : L.AlikeIn (armsCode as) (armsCode as') := by
  induction h with
  | nil => exact skip_alike
  | @cons a a' as as' ha has ih =>
    intro scopes
    rw [armsCode, armsCode, ha.hasBreak]
    cases a'.case.hasBreak with
    | true => exact (ha.body scopes).bind fun (_, _) (_, _) hr => .pure hr
    | false =>
      refine (ha.body scopes).bind fun (x, next) (x', next') hr => ?_
      obtain ⟨hx, hnext⟩ := hr
      cases hnext
      exact (ih next).bind fun (_, _) (_, _) hr => .pure ⟨L.append hx hr.1, hr.2⟩

theorem testGroups_alike (h : List.Forall₂ L.AlikeGroup gs gs') (scopes : Scopes) :
    L.Alike (fun r r' => L.code r.1 r'.1 ∧ Option.Rel L.code r.2 r'.2) (testGroups scopes gs)
      (testGroups scopes gs') := by
  induction h with
  | nil => exact .pure ⟨L.refl rfl, .none⟩
  | @cons g g' gs gs' hg _ ih =>
    rw [testGroups, testGroups, hg.labels, hg.hasDefault]
    refine ih.bind fun (tests, otherwise) (tests', otherwise') hr => ?_
    refine (inScope_alike (armsCode_alike hg.arms) scopes).bind fun body body' hbody => ?_
    split
    · exact .pure ⟨hr.1, .some hbody⟩
    · refine .pure ⟨?_, hr.2⟩
      have htests : L.code tests tests' := hr.1
      have hlabels : L.code (concat (g'.labels.map testLabel)) (concat (g'.labels.map testLabel)) := by
        refine L.refl (noteless_concat fun c hc => ?_)
        obtain ⟨v, -, rfl⟩ := List.mem_map.1 hc
        simp [testLabel]
      repeat' first | assumption | exact L.refl rfl | apply L.append | apply L.loop

theorem checkUnreachable_alike {bs bs' : List CodeIn} (h : List.Forall₂ L.AlikeIn bs bs') (scopes : Scopes) :
    L.Alike Eq (checkUnreachable scopes bs) (checkUnreachable scopes bs') := by
  induction h with
  | nil => exact .pure rfl
  | cons h _ ih => exact (inScope_alike h scopes).bind fun _ _ _ => ih

theorem unreachable_alike (h : List.Forall₂ L.AlikeArm as as') :
    List.Forall₂ L.AlikeIn (as.flatMap (·.unreachable)) (as'.flatMap (·.unreachable)) := by
  induction h with
  | nil => exact .nil
  | cons ha _ ih => exact List.rel_append ha.unreachable ih

theorem switch_alike {position : Position} (he : L.AlikeExpr e e') (h : List.Forall₂ L.AlikeArm as as') :
    L.AlikePlain (switch e as position) (switch e' as' position) := by
  have hempty : as.isEmpty = as'.isEmpty := by cases h <;> rfl
  intro scopes
  rw [switch, switch, hempty]
  refine (groupArms_alike h {} ⟨rfl, rfl, .nil⟩).bind fun _ _ hgs => ?_
  refine alike_guard alike_warn fun _ => (he scopes (scopes.offset + 1)).bind fun _ _ hv => ?_
  refine (testGroups_alike hgs (scopes.reserve 3)).bind fun (tests, otherwise) (tests', otherwise') hr => ?_
  refine (checkUnreachable_alike (unreachable_alike h) (scopes.reserve 3)).bind fun _ _ _ => .pure ?_
  obtain ⟨htests, hotherwise⟩ := hr
  have htests : L.code tests tests' := htests
  cases hotherwise with
  | none => repeat' first | assumption | exact L.refl rfl | apply L.append
  | some hbody => repeat' first | assumption | exact L.refl rfl | apply L.append | apply L.loop

end TapeC.Lowering.Likeness
