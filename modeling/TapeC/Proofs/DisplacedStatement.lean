import TapeC.Proofs.Displacement

/-! Statements at another place. Scopes that are entered, reserved and left move along with the cells
around them, and so the code of a statement is the same further on, if the variables are that it names
and does not declare itself. -/

namespace TapeC

open Layout Program Tape Routine

/-! ### Free names -/

namespace Program

/-- The variables that an expression names. -/
def Expr.accessed (e : Expr) : List String := e.nodes.filterMap Expr.variable?

mutual
/-- The variables that a statement names and does not declare itself. Labels are constants and name none. -/
def Statement.free : Statement → List String
  | .declare d => d.exprs.flatMap Expr.accessed
  | .expr e => e.accessed
  | .block body _ => freeInBody body
  | .ifElse c a b _ => c.accessed ++ a.free ++ freeInBranch b
  | .whileLoop c body _ => c.accessed ++ body.free
  | .doLoop body c _ => body.free ++ c.accessed
  | .forLoop init c step body _ => freeInBranch init ++
      (c.toList.flatMap Expr.accessed ++ step.toList.flatMap Expr.accessed ++ body.free).filter
        (· ∉ init.toList.flatMap Statement.declared)
  | .switch value cases _ => value.accessed ++ freeInCases cases
  | .returns value _ => value.toList.flatMap Expr.accessed
  | .print _ _ | .breaks _ | .continues _ | .empty => []

/-- Each statement sees what those before it declare. -/
def freeInBody : List Statement → List String
  | [] => []
  | s :: rest => s.free ++ (freeInBody rest).filter (· ∉ s.declared)

def freeInBranch : Option Statement → List String
  | none => []
  | some s => s.free

/-- The statements after a `break` are looked at one by one. -/
def freeApart : List Statement → List String
  | [] => []
  | s :: rest => s.free ++ freeApart rest

def freeInCases : List (Case Statement) → List String
  | [] => []
  | ⟨_, body, _, unreachable, _⟩ :: rest => freeInBody body ++ freeApart unreachable ++ freeInCases rest
end

/-- The variables that a function names and does not declare. -/
def FunctionDef.free (d : FunctionDef) : List String := (freeInBody d.body).filter (· ∉ d.params.map Parameter.name)

theorem Expr.mem_accessed {e : Expr} {name : String} {path : List (Selector Expr)} {p : Position}
    (h : Has (.access name path p) e) : name ∈ e.accessed :=
  List.mem_filterMap.2 ⟨_, mem_nodes.2 h, rfl⟩

theorem freeApart_eq (body : List Statement) : freeApart body = body.flatMap Statement.free := by
  induction body with
  | nil => rfl
  | cons s body ih => rw [freeApart, ih, List.flatMap_cons]

theorem freeInCases_eq (cases : List (Case Statement)) : freeInCases cases = cases.flatMap fun c =>
    freeInBody c.body ++ c.unreachable.flatMap Statement.free := by
  induction cases with
  | nil => rfl
  | cons c cases ih =>
    obtain ⟨label, body, hasBreak, unreachable, p⟩ := c
    rw [freeInCases, ih, List.flatMap_cons, freeApart_eq]

end Program

namespace Lowering.Displacement

open Code

variable {D : Displacement} {N M : String → Prop}

/-- The same code among scopes that are moved, which are moved after it as well. -/
def MovedIn (D : Displacement) (N M : String → Prop) (body body' : CodeIn) : Prop :=
  ∀ s s' : Scopes, s.Moved D.distance N s' →
    D.Agree (fun r r' => r.1 = r'.1 ∧ r.2.Moved D.distance M r'.2) (body s) (body' s')

/-- The same code among scopes that are moved, to which it adds nothing. -/
def MovedPlain (D : Displacement) (N : String → Prop) (code code' : Scopes → Lower Code) : Prop :=
  ∀ s s' : Scopes, s.Moved D.distance N s' → D.Agree Eq (code s) (code' s')

def MovedExpr (D : Displacement) (N : String → Prop) (e e' : Scopes → CodeAt) : Prop :=
  ∀ s s' : Scopes, s.Moved D.distance N s' → D.MovedAt (e s) (e' s')

variable {body body' : CodeIn} {c c' e e' : Scopes → CodeAt} {s s' : Scopes}

theorem MovedIn.mono {L : String → Prop} (h : D.MovedIn N M body body') (hL : ∀ name, L name → M name) :
    D.MovedIn N L body body' :=
  fun s s' hs => (h s s' hs).mono fun _ _ hr => ⟨hr.1, hr.2.mono hL⟩

/-- Code for a statement, followed by more among the scopes that it leaves. -/
theorem Agree.bindIn {α β : Type} {S : α → β → Prop} {x y : Lower (Code × Scopes)} {f : Code × Scopes → Lower α}
    {g : Code × Scopes → Lower β} (h : D.Agree (fun r r' => r.1 = r'.1 ∧ r.2.Moved D.distance M r'.2) x y)
    (hfg : ∀ code s s', s.Moved D.distance M s' → D.Agree S (f (code, s)) (g (code, s'))) :
    D.Agree S (x >>= f) (y >>= g) := by
  refine h.bind ?_
  rintro ⟨code, s⟩ ⟨_, s'⟩ ⟨rfl, hs⟩
  exact hfg code s s' hs

theorem MovedExpr.here (h : D.MovedExpr N e e') (hs : s.Moved D.distance N s') :
    D.Agree Eq (e s s.offset) (e' s' s'.offset) := by
  rw [hs.offset]
  exact h s s' hs s.offset

/-! ### Simple statements -/

theorem inScope_moved (h : D.MovedIn N M body body') : D.MovedPlain N (inScope body) (inScope body') := by
  refine fun s s' hs => (h s.enter s'.enter hs.enter).bindIn fun code inner inner' hinner => ?_
  dsimp only
  rw [hinner.claimed]
  exact .pure rfl

theorem plain_moved {code code' : Scopes → Lower Code} (h : D.MovedPlain N code code') :
    D.MovedIn N N (plain code) (plain code') :=
  fun s s' hs => (h s s' hs).andThen fun _ => .pure ⟨rfl, hs⟩

theorem append_moved {more more' : CodeIn} {L : String → Prop} (h : D.MovedIn N M body body')
    (h' : D.MovedIn M L more more') :
    D.MovedIn N L
      (fun scopes => do
        let (code, scopes) ← body scopes
        let (rest, scopes) ← more scopes
        return (code ++ rest, scopes))
      (fun scopes => do
        let (code, scopes) ← body' scopes
        let (rest, scopes) ← more' scopes
        return (code ++ rest, scopes)) := by
  exact fun s s' hs => (h s s' hs).bindIn fun code next next' hnext => (h' next next' hnext).bindIn fun rest last last' hlast =>
    .pure ⟨rfl, hlast⟩

section Contents

variable {ε : Type} {leaf leaf' : ε → Leaf}

theorem inPlace_moved {cs : List (Content ε)} (h : ∀ e, .value e ∈ cs → D.MovedLeaf (leaf e) (leaf' e)) (x : Nat) :
    D.Agree Eq (inPlace x (cs.map (Content.map leaf))) (inPlace (x + D.distance) (cs.map (Content.map leaf'))) := by
  induction cs generalizing x with
  | nil => exact .pure rfl
  | cons c cs ih =>
    have hrest := ih (fun e he => h e (by simp [he])) (x + 1)
    rw [Nat.add_right_comm] at hrest
    exact (content_moved (fun e he => h e (by simp [he])) x).andThen fun _ => hrest.andThen fun _ => .pure rfl

theorem declare_moved {act act' : Activation} {d : Declaration} {i : Option (Initializer ε)}
    {leaf leaf' : Scopes → ε → Leaf} (hstructs : act'.definitions.structs = act.definitions.structs)
    (h : ∀ s s' : Scopes, s.Moved D.distance N s' → ∀ j ∈ i, ∀ e ∈ j.leaves, D.MovedLeaf (leaf s e) (leaf' s' e)) :
    D.MovedIn N (fun other => other = d.name ∨ N other) (declare act d fun scopes => i.map (·.map (leaf scopes)))
      (declare act' d fun scopes => i.map (·.map (leaf' scopes))) := by
  intro s s' hs
  rw [declare, declare, hstructs]
  refine (agree_liftM (.refl _)).andThen fun type => ?_
  have hrest (code : Code) : D.Agree
      (fun r r' => r.1 = r'.1 ∧ r.2.Moved D.distance (fun other => other = d.name ∨ N other) r'.2)
      (do
        let declared ← s.declare d.name ⟨type, d.dims⟩ d.position
        return (code, declared.2))
      (do
        let declared ← s'.declare d.name ⟨type, d.dims⟩ d.position
        return (code, declared.2)) :=
    (agree_liftM (hs.declare ..)).bind fun _ _ hnext => .pure ⟨rfl, hnext⟩
  cases i with
  | none => exact hrest _
  | some j =>
    refine (layOutContents_moved (h s s' hs j rfl)).bind fun _ _ hcs => ?_
    obtain ⟨cs, rfl, rfl, hleaf⟩ := hcs
    rw [hs.offset]
    exact (inPlace_moved hleaf s.offset).andThen hrest

end Contents

theorem discard_moved (h : D.MovedExpr N e e') : D.MovedPlain N (discard e) (discard e') :=
  fun _ _ hs => (h.here hs).andThen fun _ => .pure rfl

/-- What statements need of the functions that they are in. -/
structure MovedFunction (D : Displacement) (act act' : Activation) : Prop where
  definitions : act'.definitions = act.definitions
  annotate : act'.annotate = act.annotate
  returns : act'.returns = act.returns
  returnCell : act'.returnCell = act.returnCell + D.distance

theorem MovedFunction.note {act act' : Activation} (hact : D.MovedFunction act act') (text : String) :
    act'.note text = act.note text := by
  rw [Activation.note, Activation.note, hact.annotate]

theorem giveBack_moved {act act' : Activation} {position : Position} {v v' : Option (Scopes → CodeAt)}
    (hact : D.MovedFunction act act') (h : Option.Rel (D.MovedExpr N) v v') :
    D.MovedPlain N (giveBack act position v) (giveBack act' position v') := by
  intro s s' hs
  rw [giveBack.eq_def, giveBack.eq_def, hact.returns, hact.returnCell]
  cases h with
  | none => exact .pure rfl
  | some h =>
    cases act.returns with
    | void => exact agree_fail
    | int =>
      refine (h.here hs).andThen fun _ => .pure ?_
      rw [hs.offset, Nat.add_sub_add_right]

/-! ### Branches and loops -/

theorem branch_moved {a a' : CodeIn} {b b' : Option CodeIn} (hc : D.MovedExpr N c c') (ha : D.MovedIn N M a a')
    (hb : Option.Rel (D.MovedIn N M) b b') : D.MovedPlain N (branch c a b) (branch c' a' b') := by
  refine fun s s' hs => (hc.here hs).andThen fun _ => ?_
  refine (inScope_moved ha _ _ (hs.reserve 2)).andThen fun _ => ?_
  cases hb with
  | none => exact .pure rfl
  | some hb => exact (inScope_moved hb _ _ (hs.reserve 2)).andThen fun _ => .pure rfl

theorem whileLoop_moved (hc : D.MovedExpr N c c') (h : D.MovedIn N M body body') :
    D.MovedPlain N (whileLoop c body) (whileLoop c' body') :=
  fun s s' hs => (hc.here hs).andThen fun _ => (inScope_moved h s s' hs).andThen fun _ => .pure rfl

theorem doLoop_moved (h : D.MovedIn N M body body') (hc : D.MovedExpr N c c') :
    D.MovedPlain N (doLoop body c) (doLoop body' c') :=
  fun s s' hs => (inScope_moved h s s' hs).andThen fun _ => (hc.here hs).andThen fun _ => .pure rfl

/-- A `for` loop whose first part leads from the names in `N` to those in `M`. -/
theorem forLoop_moved {L : String → Prop} {init init' : Option CodeIn} {test test' step step' : Option (Scopes → CodeAt)}
    (hinit : Option.Rel (D.MovedIn N M) init init') (hnone : init = none → ∀ name, M name → N name)
    (htest : Option.Rel (D.MovedExpr M) test test') (hstep : Option.Rel (D.MovedExpr M) step step')
    (h : D.MovedIn M L body body') : D.MovedPlain N (forLoop init test step body) (forLoop init' test' step' body') := by
  have hcondition : D.MovedExpr M (test.getD fun _ => constant 1) (test'.getD fun _ => constant 1) := by
    cases htest with
    | none => exact fun _ _ _ => constant_moved
    | some h => exact h
  -- what follows the first part, among the scopes that it leaves
  have hrest {k k' : Scopes → Lower Code} (hk : D.MovedPlain M k k') (r r' : Code × Scopes)
      (hr : r.1 = r'.1 ∧ r.2.Moved D.distance M r'.2) :
      D.Agree (fun r r' => r.1 = r'.1 ∧ r.2.Moved D.distance M r'.2)
        (do
          let condition ← (test.getD fun _ => constant 1) r.2 r.2.offset
          let body ← inScope body r.2
          let step ← k r.2
          return (r.1 ++ repeatWhile condition (body ++ step), r.2))
        (do
          let condition ← (test'.getD fun _ => constant 1) r'.2 r'.2.offset
          let body ← inScope body' r'.2
          let step ← k' r'.2
          return (r'.1 ++ repeatWhile condition (body ++ step), r'.2)) := by
    obtain ⟨hx, hnext⟩ := hr
    rw [hx]
    refine (hcondition.here hnext).andThen fun _ => (inScope_moved h _ _ hnext).andThen fun _ => ?_
    exact (hk _ _ hnext).andThen fun _ => .pure ⟨rfl, hnext⟩
  have hskip : D.MovedPlain M (fun _ => pure skip) (fun _ => pure skip) := fun _ _ _ => .pure rfl
  refine inScope_moved (M := M) fun s s' hs => ?_
  cases hinit with
  | none =>
    have hs := hs.mono (hnone rfl)
    cases hstep with
    | none => exact hrest hskip (skip, s) (skip, s') ⟨rfl, hs⟩
    | some hstep => exact hrest (discard_moved hstep) (skip, s) (skip, s') ⟨rfl, hs⟩
  | some hinit =>
    cases hstep with
    | none => exact (hinit s s' hs).bind (hrest hskip)
    | some hstep => exact (hinit s s' hs).bind (hrest (discard_moved hstep))

/-! ### Switches -/

/-- The same arm, whose statements have the same code. -/
structure MovedArm (D : Displacement) (N : String → Prop) (a a' : Arm) : Prop where
  case : a'.case = a.case
  body : D.MovedIn N N a.body a'.body
  unreachable : List.Forall₂ (D.MovedIn N N) a.unreachable a'.unreachable

structure MovedGroup (D : Displacement) (N : String → Prop) (g g' : Group) : Prop where
  labels : g'.labels = g.labels
  hasDefault : g'.hasDefault = g.hasDefault
  arms : List.Forall₂ (D.MovedArm N) g.arms g'.arms

variable {as as' : List Arm} {g g' : Group} {gs gs' : List Group}

theorem addLabel_moved (seen : Labels) (k : Case Statement) (hg : D.MovedGroup N g g') :
    D.Agree (fun r r' => r.1 = r'.1 ∧ D.MovedGroup N r.2 r'.2) (addLabel seen g k) (addLabel seen g' k) := by
  rw [addLabel, addLabel]
  cases k.label with
  | default => exact agree_guard agree_fail fun _ => .pure ⟨rfl, hg.labels, rfl, hg.arms⟩
  | value e =>
    dsimp only
    cases e.constant? with
    | none => exact agree_fail
    | some v =>
      exact agree_guard agree_fail fun _ => .pure ⟨rfl, congrArg (· ++ [v]) hg.labels, hg.hasDefault, hg.arms⟩

theorem groupArms_moved (h : List.Forall₂ (D.MovedArm N) as as') (seen : Labels) (hg : D.MovedGroup N g g') :
    D.Agree (List.Forall₂ (D.MovedGroup N)) (groupArms seen g as) (groupArms seen g' as') := by
  induction h generalizing seen g g' with
  | nil => exact .pure .nil
  | @cons a a' as as' ha has ih =>
    rw [groupArms, groupArms, ha.case]
    refine (addLabel_moved seen a.case hg).bind ?_
    rintro ⟨seen', next⟩ ⟨_, next'⟩ ⟨rfl, hnext⟩
    have hempty : as'.isEmpty = as.isEmpty := by cases has <;> rfl
    have hrest : D.Agree (List.Forall₂ (D.MovedGroup N))
        (if !a.case.body.isEmpty || a.case.hasBreak || as.isEmpty then do
          let groups ← groupArms seen' {} as
          return { next with arms := a :: as } :: groups
        else groupArms seen' next as)
        (if !a.case.body.isEmpty || a.case.hasBreak || as'.isEmpty then do
          let groups ← groupArms seen' {} as'
          return { next' with arms := a' :: as' } :: groups
        else groupArms seen' next' as') := by
      rw [hempty]
      split
      · exact (ih seen' ⟨rfl, rfl, .nil⟩).bind fun _ _ hgs =>
          .pure (.cons ⟨hnext.labels, hnext.hasDefault, .cons ha has⟩ hgs)
      · exact ih seen' hnext
    dsimp only
    cases declared? a.case.body with
    | none => exact agree_guard agree_warn fun _ => hrest
    | some d =>
      have hfail : D.Agree Eq (fail d.position (.declarationInCase d.name) : Lower PUnit)
          (fail d.position (.declarationInCase d.name)) := agree_fail
      exact hfail.andThen fun _ => agree_guard agree_warn fun _ => hrest

theorem armsCode_moved (h : List.Forall₂ (D.MovedArm N) as as') : D.MovedIn N N (armsCode as) (armsCode as') := by
  induction h with
  | nil => exact fun _ _ hs => .pure ⟨rfl, hs⟩
  | @cons a a' as as' ha _ ih =>
    intro s s' hs
    rw [armsCode, armsCode, ha.case]
    cases a.case.hasBreak with
    | true => exact (ha.body s s' hs).bindIn fun _ _ _ hnext => .pure ⟨rfl, hnext⟩
    | false => exact append_moved ha.body ih s s' hs

theorem testGroups_moved (h : List.Forall₂ (D.MovedGroup N) gs gs') (hs : s.Moved D.distance N s') :
    D.Agree Eq (testGroups s gs) (testGroups s' gs') := by
  induction h with
  | nil => exact .pure rfl
  | @cons g g' gs gs' hg _ ih =>
    rw [testGroups, testGroups, hg.labels, hg.hasDefault]
    refine ih.andThen fun tests => (inScope_moved (armsCode_moved hg.arms) s s' hs).andThen fun body => ?_
    split
    · exact .pure rfl
    · exact .pure rfl

theorem checkUnreachable_moved {bs bs' : List CodeIn} (h : List.Forall₂ (D.MovedIn N M) bs bs')
    (hs : s.Moved D.distance N s') : D.Agree Eq (checkUnreachable s bs) (checkUnreachable s' bs') := by
  induction h with
  | nil => exact .pure rfl
  | cons h _ ih => exact (inScope_moved h s s' hs).andThen fun _ => ih

theorem switch_moved {position : Position} (he : D.MovedExpr N e e') (h : List.Forall₂ (D.MovedArm N) as as') :
    D.MovedPlain N (switch e as position) (switch e' as' position) := by
  have hempty : as'.isEmpty = as.isEmpty := by cases h <;> rfl
  have hunreachable : List.Forall₂ (D.MovedIn N N) (as.flatMap (·.unreachable)) (as'.flatMap (·.unreachable)) :=
    List.rel_flatMap h fun _ _ ha => ha.unreachable
  intro s s' hs
  have hvalue : D.Agree Eq (e s (s.offset + 1)) (e' s' (s'.offset + 1)) := by
    rw [hs.offset]
    exact (he s s' hs).after s.offset 1
  rw [switch, switch, hempty]
  refine (groupArms_moved h {} ⟨rfl, rfl, .nil⟩).bind fun _ _ hgs => ?_
  refine agree_guard agree_warn fun _ => hvalue.andThen fun _ => ?_
  refine (testGroups_moved hgs (hs.reserve 3)).andThen fun tests => ?_
  exact (checkUnreachable_moved hunreachable (hs.reserve 3)).andThen fun _ => .pure rfl

/-! ### Statements -/

variable {act act' : Activation} {body : List Statement}

theorem noted_moved (hact : D.MovedFunction act act') (t : Statement) {code code' : CodeIn}
    (h : D.MovedIn N M code code') : D.MovedIn N M (noted act t code) (noted act' t code') := by
  refine fun s s' hs => (h s s' hs).bindIn fun code next next' hnext => ?_
  rw [funext hact.note]
  exact .pure ⟨rfl, hnext⟩

theorem checkReturn_agree (t : Statement) (rest : List Statement) : D.Agree Eq (checkReturn t rest) (checkReturn t rest) := by
  unfold checkReturn
  split
  · split
    · exact agree_warn
    · exact .pure rfl
  · exact .pure rfl

theorem checkLoopInit_agree (init : Option Statement) : D.Agree Eq (checkLoopInit init) (checkLoopInit init) := by
  unfold checkLoopInit
  split
  · exact agree_warn
  · exact .pure rfl

/-- The statement has the same code further on, whatever variables can be named there that it
names and does not declare. -/
def MovedStatement (D : Displacement) (act act' : Activation) (t : Statement) : Prop :=
  ∀ N : String → Prop, (∀ name ∈ t.free, N name) →
    D.MovedIn N (fun name => name ∈ t.declared ∨ N name) (statement act t) (statement act' t)

/-- A name that can be seen after a declaration is declared there, or it could be seen before. -/
theorem mem_or_of_filter {names declared : List String} {name : String}
    (h : ∀ name ∈ names.filter (· ∉ declared), N name) (hname : name ∈ names) : name ∈ declared ∨ N name := by
  by_cases hdeclared : name ∈ declared
  · exact .inl hdeclared
  · exact .inr (h name (List.mem_filter.2 ⟨hname, by simpa using hdeclared⟩))

theorem statements_moved (h : ∀ t ∈ body, D.MovedStatement act act' t) (hN : ∀ name ∈ freeInBody body, N name) :
    D.MovedIn N N (statements act body) (statements act' body) := by
  induction body generalizing N with
  | nil => exact fun _ _ hs => .pure ⟨rfl, hs⟩
  | cons t rest ih =>
    obtain ⟨ht, hrest⟩ := List.forall_mem_cons.1 h
    obtain ⟨hfree, hN⟩ := List.forall_mem_append.1 hN
    have hmore : D.MovedIn (fun name => name ∈ t.declared ∨ N name) N (statements act rest) (statements act' rest) := by
      exact (ih hrest fun name hname => mem_or_of_filter hN hname).mono fun name hname => .inr hname
    exact fun s s' hs => (checkReturn_agree t rest).andThen fun _ => append_moved (ht N hfree) hmore s s' hs

/-- The expression has the same code further on, whatever variables can be named there that it names. -/
def MovedValue (D : Displacement) (act act' : Activation) (e : Expr) : Prop :=
  ∀ N : String → Prop, (∀ name ∈ e.accessed, N name) → D.MovedExpr N (fun s => expr act s e) fun s => expr act' s e

theorem movedValue_of_calls {e : Expr}
    (h : ∀ name args p, Expr.Has (.call name args p) e → D.MovedCall act act' name) : D.MovedValue act act' e :=
  fun _ hN _ _ hs => expr_moved hs.find? e ⟨fun _ _ _ h => hN _ (Expr.mem_accessed h), h⟩

theorem MovedStatement.within {t : Statement} (h : D.MovedStatement act act' t) (hN : ∀ name ∈ t.free, N name) :
    D.MovedIn N N (statement act t) (statement act' t) :=
  (h N hN).mono fun _ => .inr

theorem option_rel {o : Option Expr} (h : ∀ e ∈ o.toList, D.MovedValue act act' e)
    (hN : ∀ name ∈ o.toList.flatMap Expr.accessed, N name) :
    Option.Rel (D.MovedExpr N) (o.map fun e s => expr act s e) (o.map fun e s => expr act' s e) := by
  cases o with
  | none => exact .none
  | some e => exact .some (h e (List.mem_singleton_self e) N (by simpa using hN))

theorem branch_rel {b : Option Statement} (h : ∀ t ∈ b.toList, D.MovedStatement act act' t)
    (hN : ∀ name ∈ freeInBranch b, N name) (hM : ∀ name, M name → name ∈ b.toList.flatMap Statement.declared ∨ N name) :
    Option.Rel (D.MovedIn N M) (statement? act b) (statement? act' b) := by
  cases b with
  | none => exact .none
  | some t => exact .some ((h t (List.mem_singleton_self t) N hN).mono fun name hname => by simpa using hM name hname)

theorem declaration_moved (hact : D.MovedFunction act act') {d : Declaration}
    (h : ∀ e ∈ d.exprs, D.MovedExpr N (fun s => expr act s e) fun s => expr act' s e) :
    D.MovedIn N (fun other => other = d.name ∨ N other) (declare act d fun s => d.contents.map (leaves act s))
      (declare act' d fun s => d.contents.map (leaves act' s)) := by
  have hcontents (act : Activation) : (fun s => d.contents.map (leaves act s)) =
      fun s => d.contents.map (·.map fun e => (⟨e.position, expr act s e⟩ : Leaf)) :=
    funext fun s => Option.map_congr fun i _ => leaves_eq i
  rw [hcontents, hcontents]
  refine declare_moved (congrArg _ hact.definitions) fun s s' hs i hi e he => ⟨rfl, ?_⟩
  refine h e ?_ s s' hs
  rw [Declaration.exprs, hi]
  exact he

/-- The condition, the step and the body of a loop see what its first part declares. -/
theorem loop_moved {init : Option Statement} {c step : Option Expr} {t : Statement} {p : Position}
    (hinit : ∀ u ∈ init.toList, D.MovedStatement act act' u) (hc : ∀ e ∈ c.toList, D.MovedValue act act' e)
    (hstep : ∀ e ∈ step.toList, D.MovedValue act act' e) (ht : D.MovedStatement act act' t)
    (hN : ∀ name ∈ (Statement.forLoop init c step t p).free, N name) :
    D.MovedPlain N
      (forLoop (statement? act init) (c.map fun e s => expr act s e) (step.map fun e s => expr act s e) (statement act t))
      (forLoop (statement? act' init) (c.map fun e s => expr act' s e) (step.map fun e s => expr act' s e)
        (statement act' t)) := by
  obtain ⟨hfirst, hrest⟩ := List.forall_mem_append.1 hN
  have hrest : ∀ name ∈ c.toList.flatMap Expr.accessed ++ step.toList.flatMap Expr.accessed ++ t.free,
      name ∈ init.toList.flatMap Statement.declared ∨ N name := fun name => mem_or_of_filter hrest
  obtain ⟨hrest, hbody⟩ := List.forall_mem_append.1 hrest
  obtain ⟨htest, hnext⟩ := List.forall_mem_append.1 hrest
  have hnone (h : statement? act init = none) (name : String)
      (hname : name ∈ init.toList.flatMap Statement.declared ∨ N name) : N name := by
    cases init with
    | none => simpa using hname
    | some u => cases h
  exact forLoop_moved (branch_rel hinit hfirst fun _ => id) hnone (option_rel hc htest) (option_rel hstep hnext)
    (ht.within hbody)

theorem armOf_moved {k : Case Statement} (h : ∀ t ∈ k.body ++ k.unreachable, D.MovedStatement act act' t)
    (hN : ∀ name ∈ freeInBody k.body ++ k.unreachable.flatMap Statement.free, N name) :
    D.MovedArm N (armOf act k) (armOf act' k) := by
  obtain ⟨hbody, hdead⟩ := List.forall_mem_append.1 hN
  refine ⟨rfl, statements_moved (fun t ht => h t (List.mem_append_left _ ht)) hbody, ?_⟩
  rw [armOf, armOf, statementList_eq, statementList_eq, List.forall₂_map_left_iff, List.forall₂_map_right_iff,
    List.forall₂_same]
  exact fun t ht => (h t (List.mem_append_right _ ht)).within fun name hname =>
    hdead name (List.mem_flatMap.2 ⟨t, ht, hname⟩)

theorem statement_moved (hact : D.MovedFunction act act') (t : Statement)
    (hcalls : ∀ e ∈ t.exprs, ∀ name args p, Expr.Has (.call name args p) e → D.MovedCall act act' name) :
    D.MovedStatement act act' t := by
  induction t using Statement.induct with
  | step t ih =>
    intro N hN
    have ih (u : Statement) (hu : u ∈ t.parts) : D.MovedStatement act act' u :=
      ih u hu fun e he => hcalls e (Statement.exprs_of_part hu he)
    have hvalue (e : Expr) (he : e ∈ t.exprs) : D.MovedValue act act' e := movedValue_of_calls (hcalls e he)
    have hplain {code code' : CodeIn} (h : D.MovedIn N N code code') (ht : t.declared = []) :
        D.MovedIn N (fun name => name ∈ t.declared ∨ N name) code code' :=
      h.mono fun name hname => hname.resolve_left (by simp [ht])
    cases t with
    | declare d =>
      have hdeclare := declaration_moved hact fun e he => hvalue e he N fun name hname =>
        hN name (List.mem_flatMap.2 ⟨e, he, hname⟩)
      exact (noted_moved hact _ hdeclare).mono fun name hname => hname.imp_left List.mem_singleton.1
    | expr e => exact hplain (noted_moved hact _ (plain_moved (discard_moved (hvalue e List.mem_cons_self N hN)))) rfl
    | print text p => exact hplain (noted_moved hact _ (plain_moved fun _ _ _ => .pure rfl)) rfl
    | block body p => exact hplain (plain_moved (inScope_moved (statements_moved ih hN))) rfl
    | ifElse c a b p =>
      obtain ⟨hN, hb⟩ := List.forall_mem_append.1 hN
      obtain ⟨hc, ha⟩ := List.forall_mem_append.1 hN
      have hbranch : Option.Rel (D.MovedIn N N) (statement? act b) (statement? act' b) :=
        branch_rel (fun u hu => ih u (List.mem_cons_of_mem _ hu)) hb fun _ => .inr
      exact hplain (noted_moved hact _ (plain_moved (branch_moved (hvalue c List.mem_cons_self N hc)
        ((ih a List.mem_cons_self).within ha) hbranch))) rfl
    | whileLoop c body p =>
      obtain ⟨hc, hbody⟩ := List.forall_mem_append.1 hN
      exact hplain (noted_moved hact _ (plain_moved (whileLoop_moved (hvalue c List.mem_cons_self N hc)
        ((ih body List.mem_cons_self).within hbody)))) rfl
    | doLoop body c p =>
      obtain ⟨hbody, hc⟩ := List.forall_mem_append.1 hN
      exact hplain (noted_moved hact _ (plain_moved (doLoop_moved ((ih body List.mem_cons_self).within hbody)
        (hvalue c (List.mem_append_right _ List.mem_cons_self) N hc)))) rfl
    | forLoop init c step body p =>
      have hloop := loop_moved (fun u hu => ih u (List.mem_cons_of_mem _ hu))
        (fun e he => hvalue e (by simp [Statement.exprs, he]))
        (fun e he => hvalue e (by simp [Statement.exprs, he])) (ih body List.mem_cons_self) hN
      exact hplain (noted_moved hact _ (plain_moved fun s s' hs =>
        (checkLoopInit_agree init).andThen fun _ => hloop s s' hs)) rfl
    | switch value cases p =>
      obtain ⟨hv, hcases⟩ := List.forall_mem_append.1 hN
      rw [freeInCases_eq, List.forall_mem_flatMap] at hcases
      refine hplain (noted_moved hact _ (plain_moved (switch_moved (hvalue value List.mem_cons_self N hv) ?_))) rfl
      rw [arms_eq, arms_eq, List.forall₂_map_left_iff, List.forall₂_map_right_iff, List.forall₂_same]
      exact fun k hk => armOf_moved (fun u hu => ih u (List.mem_flatMap.2 ⟨k, hk, hu⟩)) (hcases k hk)
    | returns value p =>
      exact hplain (noted_moved hact _ (plain_moved (giveBack_moved hact (option_rel hvalue hN)))) rfl
    | breaks p | continues p => exact fun _ _ _ => agree_throw
    | empty => exact hplain (plain_moved fun _ _ _ => .pure rfl) rfl

end Lowering.Displacement
end TapeC
