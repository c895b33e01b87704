import TapeC.Proofs.ConfinedExpression

/-! The code of a statement keeps to its cells. Of the cells that were taken before it, it changes
those of variables that it assigns and are not its own, and what functions change that it calls;
a return also changes the cell of the returned value. -/

namespace TapeC.Lowering

open Layout Program Tape Routine Code Config

variable {bounded : Bool} {act : Activation} {does does' : Effect → Prop} {declared declared' : List String}
  {scopes scopes' : Scopes} {body more : CodeIn} {e : Expr} {p : Nat} {c : Code}

/-- The code of a statement that declares variables of these names keeps to its cells. -/
def Keeps (bounded : Bool) (act : Activation) (declared : List String) (does : Effect → Prop) (body : CodeIn) : Prop :=
  ∀ scopes c scopes', Settled act scopes → Lowers (body scopes) (c, scopes') →
    Settled act scopes' ∧ After scopes declared scopes' ∧
      Confined bounded (Writable act scopes does) scopes.offset scopes.offset scopes'.offset c

/-- The code of a statement that declares nothing keeps to its cells. -/
def PlainlyKeeps (bounded : Bool) (act : Activation) (does : Effect → Prop) (code : Scopes → Lower Code) : Prop :=
  ∀ scopes c, Settled act scopes → Lowers (code scopes) c →
    Confined bounded (Writable act scopes does) scopes.offset scopes.offset scopes.offset c

theorem Keeps.mono (h : Keeps bounded act declared does body) (hdoes : ∀ effect, does effect → does' effect) :
    Keeps bounded act declared does' body := by
  intro scopes c scopes' hs hc
  obtain ⟨hs', hafter, hconfined⟩ := h scopes c scopes' hs hc
  exact ⟨hs', hafter, hconfined.mono (Nat.le_refl _) fun _ _ hx => hx.mono hdoes⟩

namespace PlainlyKeeps

variable {code : Scopes → Lower Code}

theorem mono (h : PlainlyKeeps bounded act does code) (hdoes : ∀ effect, does effect → does' effect) :
    PlainlyKeeps bounded act does' code :=
  fun scopes c hs hc => (h scopes c hs hc).mono (Nat.le_refl _) fun _ _ hx => hx.mono hdoes

theorem keeps (h : PlainlyKeeps bounded act does code) : Keeps bounded act [] does (plain code) := by
  intro scopes c scopes' hs hc
  obtain ⟨c', hc', hc⟩ := hc.bind
  cases lowers_pure.1 hc
  exact ⟨hs, .refl, h scopes c hs hc'⟩

end PlainlyKeeps

/-! ### Scopes -/

theorem inScope_keeps (h : Keeps bounded act declared does body) : PlainlyKeeps bounded act does (inScope body) := by
  intro scopes c hs hc
  obtain ⟨⟨c', inner⟩, hc', hc⟩ := hc.bind
  cases lowers_pure.1 hc
  obtain ⟨-, hafter, hconfined⟩ := h scopes.enter c' inner hs.enter hc'
  obtain ⟨n, hn⟩ := Nat.exists_eq_add_of_le hafter.offset
  have hclaimed : inner.claimed = n := by
    rw [Scopes.claimed, Scope.claimed, hafter.start, show inner.inner.next = _ from hn]
    exact Nat.add_sub_cancel_left _ _
  rw [hclaimed]
  rw [hn] at hconfined
  exact hconfined.follow (j := 0) (by rw [track_left (Nat.le_refl n), Nat.sub_self]) (Nat.le_refl _)

theorem skip_keeps : Keeps bounded act [] does fun scopes => return (skip, scopes) := by
  intro scopes c scopes' hs hc
  cases lowers_pure.1 hc
  exact ⟨hs, .refl, Confined.track scopes.offset (i := 0) (j := 0) rfl⟩

theorem Keeps.append (h : Keeps bounded act declared does body) (h' : Keeps bounded act declared' does' more) :
    Keeps bounded act (declared ++ declared')
      (fun effect => does effect ∨ does' effect ∧ effect.Outside declared) (fun scopes => do
        let (code, scopes) ← body scopes
        let (rest, scopes) ← more scopes
        return (code ++ rest, scopes)) := by
  intro scopes c scopes'' hs hc
  obtain ⟨⟨c₁, scopes'⟩, h₁, hc⟩ := hc.bind
  obtain ⟨⟨c₂, _⟩, h₂, hc⟩ := hc.bind
  cases lowers_pure.1 hc
  obtain ⟨hs', hafter, hconfined⟩ := h scopes c₁ scopes' hs h₁
  obtain ⟨hs'', hafter', hconfined'⟩ := h' scopes' c₂ scopes'' hs' h₂
  refine ⟨hs'', hafter.trans hafter', ?_⟩
  exact (hconfined.mono (Nat.le_refl _) fun _ _ hx => hx.mono fun _ => .inl).append
    (hconfined'.mono hafter.offset fun x hlt hx => (hafter.writable hlt hx).mono fun _ => .inr)

theorem note_track {text : String} : (act.note text).track 0 = some 0 := by
  rw [Activation.note]
  split <;> rfl

theorem Keeps.noted {s : Statement} (h : Keeps bounded act declared does body) :
    Keeps bounded act declared does (noted act s body) := by
  intro scopes c scopes' hs hc
  obtain ⟨⟨c', _⟩, hc', hc⟩ := hc.bind
  cases lowers_pure.1 hc
  obtain ⟨hs', hafter, hconfined⟩ := h scopes c' scopes' hs hc'
  refine ⟨hs', hafter, .append (q := scopes.offset) ?_ hconfined⟩
  cases noteText? s with
  | none => exact Confined.track scopes.offset (i := 0) (j := 0) rfl
  | some text => exact Confined.track scopes.offset (i := 0) (j := 0) note_track

/-! ### Simple statements -/

/-- A declaration whose code fills the cells of the variable. -/
theorem declared_keeps {d : Declaration} {type : ElementType} {code : Code} (hs : Settled act scopes)
    (htype : resolveType act.definitions.structs d.position d.type = .ok type)
    (hc : Lowers (do
      let (_, scopes) ← scopes.declare d.name ⟨type, d.dims⟩ d.position
      return (code, scopes) : Lower (Code × Scopes)) (c, scopes'))
    (hcode : Confined bounded (Writable act scopes does) scopes.offset scopes.offset
      (scopes.offset + Shape.size ⟨type, d.dims⟩) code) :
    Settled act scopes' ∧ After scopes [d.name] scopes' ∧
      Confined bounded (Writable act scopes does) scopes.offset scopes.offset scopes'.offset c := by
  obtain ⟨⟨v, next⟩, hv, hc⟩ := hc.bind
  cases lowers_pure.1 hc
  obtain ⟨hs', hafter, hoffset⟩ := hs.declare (resolveType_sound hs.prepared.structs htype) (lowers_lift.1 hv)
  exact ⟨hs', hafter, hoffset ▸ hcode⟩

theorem declare_keeps (hact : Contained bounded act) {d : Declaration} :
    Keeps bounded act [d.name] (Statement.declare d).Does
      (Lowering.declare act d fun scopes => d.contents.map (leaves act scopes)) := by
  intro scopes c scopes' hs hc
  obtain ⟨type, htype, hc⟩ := hc.bind
  rw [lowers_lift] at htype
  cases hcontents : d.contents with
  | none =>
    rw [hcontents] at hc
    obtain ⟨code, hcode, hc⟩ := hc.bind
    cases lowers_pure.1 hcode
    refine declared_keeps hs htype hc (Confined.track scopes.offset (i := 0) ?_)
    rw [track_right, Nat.zero_add]
  | some contents =>
    rw [hcontents] at hc
    obtain ⟨cells, hcells, hc⟩ := hc.bind
    obtain ⟨code, hcode, hc⟩ := hc.bind
    rw [lowers_lift] at hcells
    rw [inPlace_eq] at hcode
    refine declared_keeps hs htype hc ?_
    rw [← length_layOutContents hcells, ← List.length_map]
    refine arguments_confined (fun a ha => ?_) (Nat.le_refl _) hcode
    obtain ⟨cell, hcell, rfl⟩ := List.mem_map.1 ha
    refine content_confined fun leaf hleaf => ?_
    have hmem := mem_layOutContents hcells (hleaf ▸ hcell)
    rw [leaves_eq, Initializer.leaves_map] at hmem
    obtain ⟨t, ht, rfl⟩ := List.mem_map.1 hmem
    have hexprs : t ∈ d.exprs := by
      rw [Declaration.exprs, hcontents]
      exact ht
    exact (expr_confined hs hact t).mono fun x hx => hx.mono fun effect hdoes => ⟨t, hexprs, hdoes⟩

theorem discard_keeps (hact : Contained bounded act) :
    PlainlyKeeps bounded act e.Does (discard fun scopes => expr act scopes e) := by
  intro scopes c hs hc
  obtain ⟨c', hc', hc⟩ := hc.bind
  cases lowers_pure.1 hc
  exact (expr_confined hs hact e _ (Nat.le_refl _) c' hc').follow (j := 0) rfl (Nat.le_refl _)

theorem print_keeps {bytes : List Cell} : PlainlyKeeps bounded act does fun _ => return writeBytes bytes := by
  intro scopes c hs hc
  cases lowers_pure.1 hc
  exact Confined.track scopes.offset (i := 0) (j := 0) track_writeBytes

theorem giveBack_keeps (hact : Contained bounded act) {position : Position} {value : Option Expr} :
    PlainlyKeeps bounded act (Statement.returns value position).Does
      (giveBack act position (value.map fun e scopes => expr act scopes e)) := by
  intro scopes c hs hc
  cases value with
  | none =>
    cases lowers_pure.1 hc
    exact Confined.track scopes.offset (i := 0) (j := 0) rfl
  | some e =>
    cases hr : act.returns with
    | void =>
      simp only [Option.map_some, giveBack, hr] at hc
      exact absurd hc not_lowers_fail
    | int =>
      simp only [Option.map_some, giveBack, hr] at hc
      obtain ⟨c', hc', hc⟩ := hc.bind
      cases lowers_pure.1 hc
      have hvalue := (expr_confined hs hact e _ (Nat.le_refl _) c' hc').mono
        (W := Writable act scopes (Statement.returns (some e) position).Does) (Nat.le_refl _)
        fun x _ hx => hx.mono fun effect hdoes => ⟨e, rfl, .inl hdoes⟩
      have hreturn := hs.returned
      have hmove : Confined bounded (Writable act scopes (Statement.returns (some e) position).Does) scopes.offset
          (scopes.offset + 0) (scopes.offset + 0) (moveTo (scopes.offset - act.returnCell)) := by
        refine .of_runs rfl fun s hs => ⟨_, (runs_moveTo (by omega) (by omega)).2 rfl, hs, fun x hx hVx => ?_⟩
        rw [cells_put_of_ne (by omega), cells_put_of_ne]
        rintro rfl
        exact hVx ⟨.returns, ⟨e, rfl, .inr rfl⟩, by rw [hs]; exact Nat.sub_sub_self (Nat.le_of_lt hreturn)⟩
      exact (hvalue.follow rfl (Nat.le_refl _)).append hmove

/-! ### Branches and loops -/

variable {thenArm : CodeIn}

theorem condition_confined (hs : Settled act scopes) (hact : Contained bounded act)
    (he : ∀ effect, e.Does effect → does effect) (hc : Lowers (expr act scopes e scopes.offset) c) :
    Confined bounded (Writable act scopes does) scopes.offset scopes.offset (scopes.offset + 1) c :=
  (expr_confined hs hact e _ (Nat.le_refl _) c hc).mono (Nat.le_refl _) fun _ _ hx => hx.mono he

theorem branch_keeps (hact : Contained bounded act) {elseArm : Option CodeIn}
    (he : ∀ effect, e.Does effect → does effect)
    (ha : Keeps bounded act declared does thenArm)
    (hb : ∀ b ∈ elseArm, ∃ declared, Keeps bounded act declared does b) :
    PlainlyKeeps bounded act does (branch (fun scopes => expr act scopes e) thenArm elseArm) := by
  intro scopes c hs hc
  obtain ⟨cond, hcond, hc⟩ := hc.bind
  obtain ⟨arm, harm, hc⟩ := hc.bind
  have hle := Nat.le_add_right scopes.offset 2
  have hcond := condition_confined hs hact he hcond
  have harm := (inScope_keeps ha _ arm (hs.reserve 2) harm).narrow hle
  cases elseArm with
  | none =>
    cases lowers_pure.1 hc
    exact ifThen_confined (Nat.le_refl _) hcond harm
  | some elseArm =>
    obtain ⟨arm', harm', hc⟩ := hc.bind
    cases lowers_pure.1 hc
    obtain ⟨_, hb⟩ := hb elseArm rfl
    exact ifThenElse_confined (Nat.le_refl _) hcond harm ((inScope_keeps hb _ arm' (hs.reserve 2) harm').narrow hle)

variable {V : Nat → Prop} {condition round : Code}

theorem repeatWhile_confined (hc : Confined bounded V p p (p + 1) condition) (hr : Confined bounded V p p p round) :
    Confined bounded V p p p (repeatWhile condition round) := by
  have hround : Confined bounded V p p (p + 0) (round ++ condition ++ left 1) :=
    (hr.append hc).follow rfl (Nat.le_refl p)
  exact (hc.follow (j := 0) rfl (Nat.le_refl p)).append hround.loop

theorem repeatUntil_confined (hr : Confined bounded V p p p round) (hc : Confined bounded V p p (p + 1) condition) :
    Confined bounded V p p p (repeatUntil round condition) := by
  have hround : Confined bounded V p p (p + 0) (round ++ condition ++ left 1) :=
    (hr.append hc).follow rfl (Nat.le_refl p)
  exact (Confined.track p (i := 0) (j := 0) rfl).append hround.loop

theorem whileLoop_keeps (hact : Contained bounded act) (he : ∀ effect, e.Does effect → does effect)
    (hb : Keeps bounded act declared does body) :
    PlainlyKeeps bounded act does (whileLoop (fun scopes => expr act scopes e) body) := by
  intro scopes c hs hc
  obtain ⟨cond, hcond, hc⟩ := hc.bind
  obtain ⟨round, hround, hc⟩ := hc.bind
  cases lowers_pure.1 hc
  exact repeatWhile_confined (condition_confined hs hact he hcond) (inScope_keeps hb scopes round hs hround)

theorem doLoop_keeps (hact : Contained bounded act) (he : ∀ effect, e.Does effect → does effect)
    (hb : Keeps bounded act declared does body) :
    PlainlyKeeps bounded act does (doLoop body fun scopes => expr act scopes e) := by
  intro scopes c hs hc
  obtain ⟨round, hround, hc⟩ := hc.bind
  obtain ⟨cond, hcond, hc⟩ := hc.bind
  cases lowers_pure.1 hc
  exact repeatUntil_confined (inScope_keeps hb scopes round hs hround) (condition_confined hs hact he hcond)

theorem rounds_keeps (hact : Contained bounded act) {condition step : Option Expr}
    (hcond : ∀ e ∈ condition, ∀ effect, e.Does effect → does effect)
    (hstep : ∀ e ∈ step, ∀ effect, e.Does effect → does effect) (hb : Keeps bounded act declared does body) :
    PlainlyKeeps bounded act does
      (rounds (condition.map fun e scopes => expr act scopes e) (step.map fun e scopes => expr act scopes e) body) := by
  intro scopes c hs hc
  obtain ⟨cond, hcond', hc⟩ := hc.bind
  obtain ⟨round, hround, hc⟩ := hc.bind
  have hround := inScope_keeps hb scopes round hs hround
  have hcond : Confined bounded (Writable act scopes does) scopes.offset scopes.offset (scopes.offset + 1) cond := by
    cases condition with
    | none => exact constant_confined (o := scopes.offset) _ (Nat.le_refl _) cond hcond'
    | some e => exact condition_confined hs hact (hcond e rfl) hcond'
  cases step with
  | none =>
    cases lowers_pure.1 hc
    exact repeatWhile_confined hcond (hround.follow (i := 0) (j := 0) rfl (Nat.le_refl _))
  | some e =>
    obtain ⟨c', hc', hc⟩ := hc.bind
    cases lowers_pure.1 hc
    exact repeatWhile_confined hcond (hround.append ((discard_keeps hact).mono (hstep e rfl) scopes c' hs hc'))

theorem forLoop_keeps (hact : Contained bounded act) {init : Option CodeIn} {condition step : Option Expr}
    (hi : Keeps bounded act declared does' (init.getD fun scopes => return (skip, scopes)))
    (hcond : ∀ e ∈ condition, ∀ effect, e.Does effect → does effect)
    (hstep : ∀ e ∈ step, ∀ effect, e.Does effect → does effect) (hb : Keeps bounded act declared' does body) :
    PlainlyKeeps bounded act (fun effect => does' effect ∨ does effect ∧ effect.Outside declared)
      (forLoop init (condition.map fun e scopes => expr act scopes e)
        (step.map fun e scopes => expr act scopes e) body) := by
  rw [forLoop_eq]
  exact inScope_keeps (hi.append (rounds_keeps hact hcond hstep hb).keeps)

/-! ### Switches -/

variable {as : List Arm} {gs : List Group}

/-- No arm of a switch declares variables, and each group goes on through some of the arms. -/
theorem groupArms_arms {seen : Labels} {g : Group} (h : Lowers (groupArms seen g as) gs) :
    (∀ a ∈ as, declared? a.case.body = none) ∧ ∀ g' ∈ gs, ∀ a ∈ g'.arms, a ∈ as := by
  induction as generalizing seen g gs with
  | nil =>
    cases lowers_pure.1 h
    exact ⟨nofun, nofun⟩
  | cons a as ih =>
    rw [groupArms] at h
    obtain ⟨⟨seen', next⟩, -, h⟩ := h.bind
    cases hd : declared? a.case.body with
    | some d =>
      simp only [hd] at h
      obtain ⟨_, h, -⟩ := h.bind
      exact absurd h not_lowers_fail
    | none =>
      simp only [hd] at h
      have h := h.of_warning
      split at h
      · obtain ⟨groups, hgroups, h⟩ := h.bind
        cases lowers_pure.1 h
        obtain ⟨hdeclared, harms⟩ := ih hgroups
        exact ⟨List.forall_mem_cons.2 ⟨hd, hdeclared⟩, List.forall_mem_cons.2 ⟨fun _ ha => ha,
          fun g' hg' a' ha' => List.mem_cons_of_mem _ (harms g' hg' a' ha')⟩⟩
      · obtain ⟨hdeclared, harms⟩ := ih h
        exact ⟨List.forall_mem_cons.2 ⟨hd, hdeclared⟩,
          fun g' hg' a' ha' => List.mem_cons_of_mem _ (harms g' hg' a' ha')⟩

theorem armsCode_keeps (h : ∀ a ∈ as, Keeps bounded act [] does a.body) : Keeps bounded act [] does (armsCode as) := by
  induction as with
  | nil => exact skip_keeps
  | cons a as ih =>
    obtain ⟨ha, has⟩ := List.forall_mem_cons.1 h
    have hboth := (ha.append (ih has)).mono fun effect (h : does effect ∨ does effect ∧ effect.Outside []) =>
      h.elim id And.left
    by_cases hbreak : a.case.hasBreak = true
    · intro scopes c scopes' hs hc
      rw [armsCode] at hc
      obtain ⟨⟨c₁, scopes₁⟩, h₁, hc⟩ := hc.bind
      simp only [hbreak, if_true] at hc
      cases lowers_pure.1 hc
      exact ha scopes c scopes' hs h₁
    · simpa only [armsCode, hbreak, if_false, Bool.false_eq_true, List.append_nil] using hboth

theorem track_testLabel {label : Cell} : (testLabel label).track 2 = some 2 := by
  simp [testLabel, copyFrom, spreadRight, pourLeft, track_setCell, track_left, track_loop]

/-- The head is on the flag between tests. -/
theorem testGroups_confined {inner : Scopes} {tests : Code} {otherwise : Option Code}
    (h : ∀ g ∈ gs, Keeps bounded act [] does (armsCode g.arms)) (hs : Settled act inner)
    (hp : inner.offset = p + 3) (hc : Lowers (testGroups inner gs) (tests, otherwise)) :
    Confined bounded (Writable act inner does) p (p + 2) (p + 2) tests ∧
      ∀ c ∈ otherwise, Confined bounded (Writable act inner does) p (p + 3) (p + 3) c := by
  induction gs generalizing tests otherwise with
  | nil =>
    cases lowers_pure.1 hc
    exact ⟨Confined.track p rfl, nofun⟩
  | cons g gs ih =>
    obtain ⟨hg, hgs⟩ := List.forall_mem_cons.1 h
    obtain ⟨⟨tests', otherwise'⟩, hrest, hc⟩ := hc.bind
    obtain ⟨c, hbody, hc⟩ := hc.bind
    obtain ⟨htests, hotherwise⟩ := ih hgs hrest
    have hbody := (inScope_keeps hg inner c hs hbody).narrow (show p ≤ inner.offset by omega)
    rw [hp] at hbody
    split at hc
    · cases lowers_pure.1 hc
      exact ⟨htests, fun c' hc' => by cases hc'; exact hbody⟩
    · cases lowers_pure.1 hc
      have hlabels : (concat (g.labels.map testLabel)).track 2 = some 2 := track_concat fun c hc => by
        obtain ⟨label, -, rfl⟩ := List.mem_map.1 hc
        exact track_testLabel
      exact ⟨((htests.follow rfl (Nat.le_refl p)).follow hlabels (Nat.le_refl p)).append
        (runArm_confined (Nat.le_refl p) hbody), hotherwise⟩

theorem switch_keeps (hact : Contained bounded act) {position : Position} (he : ∀ effect, e.Does effect → does effect)
    (h : ∀ a ∈ as, declared? a.case.body = none → Keeps bounded act [] does a.body) :
    PlainlyKeeps bounded act does (Lowering.switch (fun scopes => expr act scopes e) as position) := by
  intro scopes c hs hc
  obtain ⟨groups, hgroups, hc⟩ := hc.bind
  have hc := hc.of_warning
  obtain ⟨value, hvalue, hc⟩ := hc.bind
  obtain ⟨⟨tests, otherwise⟩, htests, hc⟩ := hc.bind
  obtain ⟨_, -, hc⟩ := hc.bind
  cases lowers_pure.1 hc
  obtain ⟨hdeclared, harms⟩ := groupArms_arms hgroups
  have hkeeps (g : Group) (hg : g ∈ groups) : Keeps bounded act [] does (armsCode g.arms) :=
    armsCode_keeps fun a ha => h a (harms g hg a ha) (hdeclared a (harms g hg a ha))
  obtain ⟨htests, hlast⟩ := testGroups_confined hkeeps (hs.reserve 3) rfl htests
  have hvalue := ((expr_confined hs hact e _ (Nat.le_succ _) value hvalue).mono (W := Writable act scopes does)
    (Nat.le_refl _) fun _ _ hx => hx.mono he).narrow (Nat.le_succ scopes.offset)
  have hp := Nat.le_refl scopes.offset
  have hstart : Confined bounded (Writable act scopes does) scopes.offset scopes.offset (scopes.offset + 1)
      (clear ++ inc 1 ++ right 1) := Confined.track scopes.offset (i := 0) rfl
  refine ((hstart.append hvalue).append htests).append ?_
  cases otherwise with
  | none => exact Confined.track scopes.offset (i := 2) (j := 0) rfl
  | some body =>
    have hround : Confined bounded (Writable act scopes does) scopes.offset (scopes.offset + 0) (scopes.offset + 0)
        (dec 1 ++ right 3 ++ body ++ left 3) :=
      ((Confined.track scopes.offset rfl).append (hlast body rfl)).follow rfl hp
    exact (Confined.track scopes.offset (i := 2) (j := 0) rfl).append hround.loop

/-! ### All statements -/

theorem statements_keeps {ss : List Statement} (h : ∀ s ∈ ss, Keeps bounded act s.declared s.Does (statement act s)) :
    Keeps bounded act (ss.flatMap Statement.declared) (bodyDoes ss) (statements act ss) := by
  induction ss with
  | nil => exact skip_keeps
  | cons s ss ih =>
    obtain ⟨hs, hss⟩ := List.forall_mem_cons.1 h
    intro scopes c scopes' hsettled hc
    rw [statements] at hc
    obtain ⟨_, -, hc⟩ := hc.bind
    exact hs.append (ih hss) scopes c scopes' hsettled hc

theorem declared_of_none {ss : List Statement} (h : declared? ss = none) : ss.flatMap Statement.declared = [] := by
  induction ss with
  | nil => rfl
  | cons s ss ih =>
    cases s with
    | declare d => cases h
    | _ => exact ih h

theorem arms_keep {cases : List (Case Statement)} (hdoes : ∀ effect, casesDo cases effect → does effect)
    (h : ∀ c ∈ cases, ∀ s ∈ c.body, Keeps bounded act s.declared s.Does (statement act s)) :
    ∀ a ∈ arms act cases, declared? a.case.body = none → Keeps bounded act [] does a.body := by
  induction cases with
  | nil => exact nofun
  | cons c cases ih =>
    obtain ⟨hc, hcases⟩ := List.forall_mem_cons.1 h
    obtain ⟨label, body, hasBreak, unreachable, p⟩ := c
    refine List.forall_mem_cons.2 ⟨fun hnone => ?_, ih (fun effect h => hdoes effect (.inr h)) hcases⟩
    exact declared_of_none hnone ▸ (statements_keeps hc).mono fun effect h => hdoes effect (.inl h)

theorem statement_keeps (hact : Contained bounded act) (s : Statement) :
    Keeps bounded act s.declared s.Does (statement act s) := by
  induction s using Statement.induct with
  | step s ih =>
    cases s with
    | declare d => exact (declare_keeps hact).noted
    | expr e => exact (discard_keeps hact).keeps.noted
    | print text p => exact print_keeps.keeps.noted
    | block body p => exact (inScope_keeps (statements_keeps ih)).keeps
    | ifElse c a b p =>
      refine (branch_keeps hact (fun _ => .inl) ((ih a List.mem_cons_self).mono fun _ h => .inr (.inl h))
        fun b' hb' => ?_).keeps.noted
      cases b with
      | none => cases hb'
      | some b =>
        cases hb'
        exact ⟨_, (ih b (List.mem_cons_of_mem _ List.mem_cons_self)).mono fun _ h => .inr (.inr h)⟩
    | whileLoop c body p =>
      exact (whileLoop_keeps hact (fun _ => .inl) ((ih body List.mem_cons_self).mono fun _ => .inr)).keeps.noted
    | doLoop body c p =>
      exact (doLoop_keeps hact (fun _ => .inl) ((ih body List.mem_cons_self).mono fun _ => .inr)).keeps.noted
    | forLoop init c step body p =>
      have hinit : Keeps bounded act (init.toList.flatMap Statement.declared) (branchDoes init)
          ((statement? act init).getD fun scopes => return (skip, scopes)) := by
        cases init with
        | none => exact skip_keeps
        | some i =>
          have hi := ih i (List.mem_cons_of_mem _ List.mem_cons_self)
          rwa [show (some i).toList.flatMap Statement.declared = i.declared from List.append_nil _]
      have hloop : PlainlyKeeps bounded act (Statement.forLoop init c step body p).Does (fun scopes => do
          checkLoopInit init
          forLoop (statement? act init) (c.map fun e scopes => expr act scopes e)
            (step.map fun e scopes => expr act scopes e) (statement act body) scopes) := by
        intro scopes code hs hc
        obtain ⟨_, -, hc⟩ := hc.bind
        exact forLoop_keeps hact hinit (fun e he _ h => .inl ⟨e, he, h⟩) (fun e he _ h => .inr (.inr ⟨e, he, h⟩))
          ((ih body List.mem_cons_self).mono fun _ h => .inr (.inl h)) scopes code hs hc
      exact hloop.keeps.noted
    | switch value cases p =>
      refine (switch_keeps hact (fun _ => .inl) (arms_keep (fun _ => .inr) fun c hc t ht => ?_)).keeps.noted
      exact ih t (List.mem_flatMap.2 ⟨c, hc, List.mem_append_left _ ht⟩)
    | returns value p => exact (giveBack_keeps hact).keeps.noted
    | breaks p => exact fun _ _ _ _ hc => absurd hc not_lowers_throw
    | continues p => exact fun _ _ _ _ hc => absurd hc not_lowers_throw
    | empty =>
      refine PlainlyKeeps.keeps fun scopes c _ hc => ?_
      cases lowers_pure.1 hc
      exact Confined.track scopes.offset (i := 0) (j := 0) rfl

end TapeC.Lowering
