import TapeC.Proofs.Access
import TapeC.Proofs.AlikeTree

/-! What a lowering that succeeds has lowered: every expression and statement in it, whether or
not it can be reached, and so every function that is called anywhere in it. -/

namespace TapeC.Lowering

open Layout Program Tape Routine Code

/-- There is code for the expression at some cell. -/
def Lowered (a : CodeAt) : Prop := ∃ p c, Lowers (a p) c

/-- There is code among some scopes. -/
def LoweredIn {α : Type} (body : Scopes → Lower α) : Prop := ∃ scopes r, Lowers (body scopes) r

variable {act : Activation} {scopes : Scopes} {name : String} {position : Position} {a b value : CodeAt} {c : Code}
  {p : Nat}

theorem Lowers.lowered (h : Lowers (a p) c) : Lowered a := ⟨p, c, h⟩

/-! ### Operators -/

theorem lowered_onPair (h : Lowered (onPair c a b)) : Lowered a ∧ Lowered b := by
  obtain ⟨p, _, h⟩ := h
  obtain ⟨_, ha, h⟩ := h.bind
  obtain ⟨_, hb, -⟩ := h.bind
  exact ⟨ha.lowered, hb.lowered⟩

theorem lowered_onDivisor {operation : Bool → Code} {divisor : Option Cell}
    (h : Lowered (onDivisor operation divisor position a b)) : Lowered a ∧ Lowered b := by
  obtain ⟨p, _, h⟩ := h
  exact lowered_onPair (Lowers.of_guard h fun _ => not_lowers_fail).2.lowered

theorem lowered_binary {op : BinaryOp} {divisor : Option Cell} (h : Lowered (binary op divisor position a b)) :
    Lowered a ∧ Lowered b := by
  have hlogic {f : Code → Code → Code} {k : Nat}
      (h : Lowered fun p => do return f (← a p) (← b (p + k))) : Lowered a ∧ Lowered b := by
    obtain ⟨p, _, h⟩ := h
    obtain ⟨_, ha, h⟩ := h.bind
    obtain ⟨_, hb, -⟩ := h.bind
    exact ⟨ha.lowered, hb.lowered⟩
  cases op with
  | and | or => exact hlogic h
  | divide | modulo => exact lowered_onDivisor h
  | _ => exact lowered_onPair h

theorem lowered_unary {op : UnaryOp} (h : Lowered (unary op a)) : Lowered a := by
  cases op with
  | negate => exact (lowered_onPair h).2
  | not | complement =>
    obtain ⟨p, _, h⟩ := h
    obtain ⟨_, ha, -⟩ := h.bind
    exact ha.lowered

/-! ### Places -/

variable {P : List (Selector (Index CodeAt))} {place : Place CodeAt}

theorem lowered_term {t : Term CodeAt} (h : Lowered (term t)) : Lowered t.code := by
  rw [term] at h
  split at h
  · exact h
  · exact (lowered_onPair h).1

theorem lowered_sum {first : CodeAt} {ts : List (Term CodeAt)} (h : Lowered (sum first ts)) :
    Lowered first ∧ ∀ t ∈ ts, Lowered t.code := by
  induction ts generalizing first with
  | nil => exact ⟨h, nofun⟩
  | cons t ts ih =>
    obtain ⟨hfirst, hts⟩ := ih h
    obtain ⟨hfirst, ht⟩ := lowered_onPair hfirst
    exact ⟨hfirst, List.forall_mem_cons.2 ⟨lowered_term ht, hts⟩⟩

theorem lowered_terms {t : Term CodeAt} {ts : List (Term CodeAt)} (h : Lowered (sum (term t) ts)) :
    ∀ u ∈ t :: ts, Lowered u.code :=
  List.forall_mem_cons.2 ⟨lowered_term (lowered_sum h).1, (lowered_sum h).2⟩

theorem mem_runtime_of_indexed {i : Index CodeAt} (hi : i ∈ indexed P) (hnone : i.constant = none) :
    i.code ∈ runtime P := by
  induction P with
  | nil => cases hi
  | cons s P ih =>
    cases s with
    | field name => exact ih hi
    | index j =>
      obtain ⟨constant, q, code⟩ := j
      rcases List.mem_cons.1 hi with rfl | hrest
      · cases hnone
        exact List.mem_cons_self
      · cases constant with
        | none => exact List.mem_cons_of_mem _ (ih hrest)
        | some n => exact ih hrest

/-- The indices of a path that are not constant. -/
def LoweredPath (P : List (Selector (Index CodeAt))) : Prop :=
  ∀ i ∈ indexed P, i.constant = none → Lowered i.code

theorem loweredPath_of_terms (h : Lowers (Lowering.place scopes name P position) place)
    (hterms : ∀ t ∈ place.terms, Lowered t.code) : LoweredPath P := by
  obtain ⟨v, -, hplace⟩ := lowers_place h
  intro i hi hnone
  have hcode := mem_runtime_of_indexed hi hnone
  rw [← Place.ofPath_terms hplace] at hcode
  obtain ⟨t, ht, hcode⟩ := List.mem_map.1 hcode
  exact hcode ▸ hterms t ht

theorem lowered_onPlace {work : Nat → Code} (h : Lowered (onPlace place work)) :
    ∀ t ∈ place.terms, Lowered t.code := by
  obtain ⟨p, _, h⟩ := h
  rw [onPlace] at h
  split at h
  next ht =>
    rw [ht]
    exact List.forall_mem_nil _
  next t ts ht =>
    obtain ⟨_, hd, -⟩ := h.bind
    rw [ht]
    exact lowered_terms hd.lowered

theorem lowered_read (h : Lowered (read scopes name P position)) : LoweredPath P := by
  obtain ⟨p, _, h⟩ := h
  obtain ⟨place, hplace, h⟩ := h.bind
  obtain ⟨-, h⟩ := Lowers.of_guard h fun _ => not_lowers_fail
  exact loweredPath_of_terms hplace (lowered_onPlace h.lowered)

theorem lowered_update {op : UpdateOp} {before : Bool} (h : Lowered (update scopes name P position op before)) :
    LoweredPath P := by
  obtain ⟨p, _, h⟩ := h
  obtain ⟨place, hplace, h⟩ := h.bind
  obtain ⟨-, h⟩ := Lowers.of_guard h fun _ => not_lowers_fail
  exact loweredPath_of_terms hplace (lowered_onPlace h.lowered)

theorem lowered_assign (h : Lowered (assign scopes name P position value)) : LoweredPath P ∧ Lowered value := by
  obtain ⟨p, _, h⟩ := h
  obtain ⟨place, hplace, h⟩ := h.bind
  obtain ⟨-, h⟩ := Lowers.of_guard h fun _ => not_lowers_fail
  split at h
  next ht =>
    obtain ⟨_, hvalue, -⟩ := h.bind
    refine ⟨loweredPath_of_terms hplace ?_, hvalue.lowered⟩
    rw [ht]
    exact nofun
  next t ts ht =>
    obtain ⟨_, hd, h⟩ := h.bind
    obtain ⟨_, hvalue, -⟩ := h.bind
    refine ⟨loweredPath_of_terms hplace ?_, hvalue.lowered⟩
    rw [ht]
    exact lowered_terms hd.lowered

theorem lowered_store {cs : List (Content Leaf)} {base : Nat} (h : Lowers (store base p cs) c) :
    ∀ e, .value e ∈ cs → Lowered e.code := by
  induction cs generalizing base c with
  | nil => exact fun _ he => by cases he
  | cons content cs ih =>
    obtain ⟨_, hcontent, h⟩ := h.bind
    obtain ⟨_, hrest, -⟩ := h.bind
    intro e he
    rcases List.mem_cons.1 he with rfl | he
    · exact hcontent.lowered
    · exact ih hrest e he

theorem lowered_fill {i : Initializer Leaf} (h : Lowered (fill scopes name P position i)) :
    LoweredPath P ∧ ∀ e ∈ i.leaves, Lowered e.code := by
  obtain ⟨p, _, h⟩ := h
  obtain ⟨place, hplace, h⟩ := h.bind
  obtain ⟨hterms, h⟩ := Lowers.of_guard h fun _ => not_lowers_fail
  obtain ⟨cells, hcells, h⟩ := h.bind
  obtain ⟨_, hstore, -⟩ := h.bind
  refine ⟨loweredPath_of_terms hplace ?_, fun e he =>
    lowered_store hstore e (layOutContents_keeps (lowers_lift.1 hcells) he)⟩
  have hterms : place.terms = [] := by simpa using hterms
  rw [hterms]
  exact nofun

/-! ### Calls -/

theorem lowered_arguments {as : List CodeAt} (h : Lowers (arguments p as) c) : ∀ a ∈ as, Lowered a := by
  induction as generalizing p c with
  | nil => exact nofun
  | cons a as ih =>
    obtain ⟨_, ha, h⟩ := h.bind
    obtain ⟨_, has, -⟩ := h.bind
    exact List.forall_mem_cons.2 ⟨ha.lowered, ih has⟩

/-- The function of a name is expanded, if it is one that the program defines. -/
def Expands (act : Activation) (name : String) : Prop :=
  ∀ d, act.definitions.callable? name = some (.defined d) → ∃ position, Lowered (act.inline d position)

theorem lowered_call {args : List CodeAt} (h : Lowered (call act name args position)) :
    (∀ a ∈ args, Lowered a) ∧ Expands act name := by
  obtain ⟨p, _, h⟩ := h
  rw [call] at h
  split at h
  next callable hcallable =>
    obtain ⟨-, h⟩ := Lowers.of_guard h fun _ => not_lowers_fail
    obtain ⟨_, hargs, h⟩ := h.bind
    refine ⟨lowered_arguments hargs, fun d hd => ?_⟩
    rw [hcallable] at hd
    cases hd
    obtain ⟨_, hbody, -⟩ := h.bind
    exact ⟨position, hbody.lowered⟩
  next => exact absurd h not_lowers_fail

/-! ### Statements -/

variable {body : CodeIn} {s : Scopes → Lower Code} {e : Scopes → CodeAt}

/-- There is code for the expression among some scopes. -/
def LoweredExpr (e : Scopes → CodeAt) : Prop := ∃ scopes, Lowered (e scopes)

theorem lowered_inScope (h : LoweredIn (inScope body)) : LoweredIn body := by
  obtain ⟨scopes, _, h⟩ := h
  obtain ⟨r, hbody, -⟩ := h.bind
  exact ⟨_, r, hbody⟩

theorem lowered_plain (h : LoweredIn (plain s)) : LoweredIn s := by
  obtain ⟨scopes, _, h⟩ := h
  obtain ⟨c, hc, -⟩ := h.bind
  exact ⟨scopes, c, hc⟩

theorem lowered_noted {t : Statement} (h : LoweredIn (noted act t body)) : LoweredIn body := by
  obtain ⟨scopes, _, h⟩ := h
  obtain ⟨r, hr, -⟩ := h.bind
  exact ⟨scopes, r, hr⟩

theorem lowered_inPlace {cs : List (Content Leaf)} (h : Lowers (inPlace p cs) c) :
    ∀ e, .value e ∈ cs → Lowered e.code := by
  induction cs generalizing p c with
  | nil => exact fun _ he => by cases he
  | cons content cs ih =>
    obtain ⟨_, hcontent, h⟩ := h.bind
    obtain ⟨_, hrest, -⟩ := h.bind
    intro e he
    rcases List.mem_cons.1 he with rfl | he
    · exact hcontent.lowered
    · exact ih hrest e he

theorem lowered_declare {d : Declaration} {contents : Scopes → Option (Initializer Leaf)}
    (h : LoweredIn (declare act d contents)) : ∃ scopes, ∀ i ∈ contents scopes, ∀ e ∈ i.leaves, Lowered e.code := by
  obtain ⟨scopes, _, h⟩ := h
  refine ⟨scopes, fun i hi e he => ?_⟩
  obtain ⟨_, -, h⟩ := h.bind
  rw [Option.mem_def.1 hi] at h
  obtain ⟨cells, hcells, h⟩ := h.bind
  obtain ⟨_, hcode, -⟩ := h.bind
  exact lowered_inPlace hcode e (layOutContents_keeps (lowers_lift.1 hcells) he)

theorem lowered_discard (h : LoweredIn (discard e)) : LoweredExpr e := by
  obtain ⟨scopes, _, h⟩ := h
  obtain ⟨_, he, -⟩ := h.bind
  exact ⟨scopes, he.lowered⟩

theorem lowered_giveBack {v : Option (Scopes → CodeAt)} (h : LoweredIn (giveBack act position v)) :
    ∀ e ∈ v, LoweredExpr e := by
  obtain ⟨scopes, _, h⟩ := h
  rintro e rfl
  rw [giveBack.eq_def] at h
  cases hreturns : act.returns with
  | void =>
    rw [hreturns] at h
    exact absurd h not_lowers_fail
  | int =>
    rw [hreturns] at h
    obtain ⟨_, he, -⟩ := h.bind
    exact ⟨scopes, he.lowered⟩

theorem lowered_branch {a : CodeIn} {b : Option CodeIn} (h : LoweredIn (branch e a b)) :
    LoweredExpr e ∧ LoweredIn a ∧ ∀ b' ∈ b, LoweredIn b' := by
  obtain ⟨scopes, _, h⟩ := h
  obtain ⟨_, he, h⟩ := h.bind
  obtain ⟨_, ha, h⟩ := h.bind
  refine ⟨⟨scopes, he.lowered⟩, lowered_inScope ⟨_, _, ha⟩, ?_⟩
  rintro b' rfl
  obtain ⟨_, hb, -⟩ := h.bind
  exact lowered_inScope ⟨_, _, hb⟩

theorem lowered_whileLoop (h : LoweredIn (whileLoop e body)) : LoweredExpr e ∧ LoweredIn body := by
  obtain ⟨scopes, _, h⟩ := h
  obtain ⟨_, he, h⟩ := h.bind
  obtain ⟨_, hbody, -⟩ := h.bind
  exact ⟨⟨scopes, he.lowered⟩, lowered_inScope ⟨_, _, hbody⟩⟩

theorem lowered_doLoop (h : LoweredIn (doLoop body e)) : LoweredExpr e ∧ LoweredIn body := by
  obtain ⟨scopes, _, h⟩ := h
  obtain ⟨_, hbody, h⟩ := h.bind
  obtain ⟨_, he, -⟩ := h.bind
  exact ⟨⟨scopes, he.lowered⟩, lowered_inScope ⟨_, _, hbody⟩⟩

theorem lowered_forLoop {init : Option CodeIn} {cond step : Option (Scopes → CodeAt)}
    (h : LoweredIn (forLoop init cond step body)) :
    (∀ i ∈ init, LoweredIn i) ∧ (∀ e ∈ cond, LoweredExpr e) ∧ (∀ e ∈ step, LoweredExpr e) ∧ LoweredIn body := by
  obtain ⟨scopes, _, h⟩ := lowered_inScope h
  -- what follows the first part, among the scopes that it leaves
  have hrest {last : Scopes → Lower Code} (hlast : ∀ e ∈ step, last = discard e) {r r' : Code × Scopes}
      (h : Lowers (do
        let condition ← (cond.getD fun _ => constant 1) r.2 r.2.offset
        let body ← inScope body r.2
        let step ← last r.2
        return (r.1 ++ repeatWhile condition (body ++ step), r.2)) r') :
      (∀ e ∈ cond, LoweredExpr e) ∧ (∀ e ∈ step, LoweredExpr e) ∧ LoweredIn body := by
    obtain ⟨_, hcond, h⟩ := h.bind
    obtain ⟨_, hbody, h⟩ := h.bind
    obtain ⟨_, hlowers, -⟩ := h.bind
    refine ⟨?_, fun e he => lowered_discard ⟨r.2, _, hlast e he ▸ hlowers⟩, lowered_inScope ⟨_, _, hbody⟩⟩
    rintro e rfl
    exact ⟨r.2, hcond.lowered⟩
  cases step with
  | none =>
    have hskip (e : Scopes → CodeAt) (he : e ∈ none) : (fun _ => pure skip) = discard e := by cases he
    cases init with
    | none => exact ⟨by rintro _ ⟨⟩, hrest (r := (skip, scopes)) hskip h⟩
    | some init =>
      obtain ⟨r, hlowers, h⟩ := h.bind
      exact ⟨by rintro _ ⟨⟩; exact ⟨scopes, r, hlowers⟩, hrest (r := r) hskip h⟩
  | some step =>
    have hstep (e : Scopes → CodeAt) (he : e ∈ some step) : discard step = discard e := by
      cases he
      rfl
    cases init with
    | none => exact ⟨by rintro _ ⟨⟩, hrest (r := (skip, scopes)) hstep h⟩
    | some init =>
      obtain ⟨r, hlowers, h⟩ := h.bind
      exact ⟨by rintro _ ⟨⟩; exact ⟨scopes, r, hlowers⟩, hrest (r := r) hstep h⟩

/-- Labels are constant, and each arm with statements is the first of its group. -/
theorem groupArms_starts {seen : Labels} (h : Lowers (groupArms seen g as) gs) : ∀ a ∈ as,
    (∀ e, a.case.label = .value e → e.constant? ≠ none) ∧
      (a.case.body.isEmpty = false → ∃ g' ∈ gs, ∃ rest, g'.arms = a :: rest) := by
  induction as generalizing seen g gs with
  | nil => exact nofun
  | cons a as ih =>
    rw [groupArms] at h
    obtain ⟨⟨seen', next⟩, hlabel, h⟩ := h.bind
    have hconstant (e : Expr) (he : a.case.label = .value e) : e.constant? ≠ none := by
      intro hnone
      simp only [addLabel, he, hnone] at hlabel
      exact not_lowers_fail hlabel
    cases hd : declared? a.case.body with
    | some d =>
      simp only [hd] at h
      obtain ⟨_, h, -⟩ := h.bind
      exact absurd h not_lowers_fail
    | none =>
      simp only [hd] at h
      have h := h.of_warning
      split at h
      · obtain ⟨groups, hgroups, h⟩ := h.bind
        cases lowers_pure.1 h
        refine List.forall_mem_cons.2 ⟨⟨hconstant, fun _ => ⟨_, List.mem_cons_self, as, rfl⟩⟩, fun b hb => ?_⟩
        obtain ⟨hb, hstarts⟩ := ih hgroups b hb
        refine ⟨hb, fun hbody => ?_⟩
        obtain ⟨g', hg', hrest⟩ := hstarts hbody
        exact ⟨g', List.mem_cons_of_mem _ hg', hrest⟩
      next hends =>
        refine List.forall_mem_cons.2 ⟨⟨hconstant, fun hbody => ?_⟩, ih h⟩
        simp [hbody] at hends

theorem lowered_armsCode {a : Arm} (h : LoweredIn (armsCode (a :: as))) : LoweredIn a.body := by
  obtain ⟨scopes, _, h⟩ := h
  rw [armsCode] at h
  obtain ⟨r, hbody, -⟩ := h.bind
  exact ⟨scopes, r, hbody⟩

theorem lowered_testGroups {r : Code × Option Code} (h : Lowers (testGroups scopes gs) r) :
    ∀ g ∈ gs, LoweredIn (armsCode g.arms) := by
  induction gs generalizing r with
  | nil => exact nofun
  | cons g gs ih =>
    obtain ⟨_, hrest, h⟩ := h.bind
    obtain ⟨_, hbody, -⟩ := h.bind
    exact List.forall_mem_cons.2 ⟨lowered_inScope ⟨_, _, hbody⟩, ih hrest⟩

theorem lowered_checkUnreachable {bodies : List CodeIn} {u : Unit} (h : Lowers (checkUnreachable scopes bodies) u) :
    ∀ b ∈ bodies, LoweredIn b := by
  induction bodies with
  | nil => exact nofun
  | cons b bodies ih =>
    obtain ⟨_, hb, h⟩ := h.bind
    exact List.forall_mem_cons.2 ⟨lowered_inScope ⟨_, _, hb⟩, ih h⟩

theorem lowered_switch (h : LoweredIn (switch e as position)) : LoweredExpr e ∧ ∀ a ∈ as,
    (∀ e, a.case.label = .value e → e.constant? ≠ none) ∧ (a.case.body.isEmpty = false → LoweredIn a.body) ∧
      ∀ u ∈ a.unreachable, LoweredIn u := by
  obtain ⟨scopes, _, h⟩ := h
  obtain ⟨groups, hgroups, h⟩ := h.bind
  have h := h.of_warning
  obtain ⟨_, he, h⟩ := h.bind
  obtain ⟨_, htests, h⟩ := h.bind
  obtain ⟨_, hdead, -⟩ := h.bind
  refine ⟨⟨scopes, he.lowered⟩, fun a ha => ?_⟩
  obtain ⟨hlabel, hstarts⟩ := groupArms_starts hgroups a ha
  refine ⟨hlabel, fun hbody => ?_, fun u hu => ?_⟩
  · obtain ⟨g, hg, rest, harms⟩ := hstarts hbody
    have harmsCode := lowered_testGroups htests g hg
    rw [harms] at harmsCode
    exact lowered_armsCode harmsCode
  · exact lowered_checkUnreachable hdead u (List.mem_flatMap.2 ⟨a, ha, hu⟩)

/-! ### Trees -/

/-- The parts of an expression of literals and operators are such expressions. -/
theorem isClosed_of_part {e t : Expr} (h : e.isClosed = true) (ht : t ∈ e.parts) : t.isClosed = true := by
  cases e with
  | number | char | bool => cases ht
  | unary op e p =>
    cases List.mem_singleton.1 ht
    exact h
  | binary op a b p =>
    obtain ⟨ha, hb⟩ := Bool.and_eq_true_iff.1 h
    rcases List.mem_cons.1 ht with rfl | ht
    · exact ha
    · cases List.mem_singleton.1 ht
      exact hb
  | access | update | assign | fill | call => cases h

/-- An expression that is met in a lowering: there is code for it or, if it is a target, for its indices. Of
literals and operators there need not be any, as labels and constant indices have none. -/
inductive Met (act : Activation) (scopes : Scopes) : Expr → Prop where
  | lowered {e : Expr} (h : Lowered (expr act scopes e)) : Met act scopes e
  | target {path : List (Selector Expr)} {name : String} {position : Position}
      (h : LoweredPath (indices act scopes path)) : Met act scopes (.access name path position)
  | closed {e : Expr} (h : e.isClosed = true) : Met act scopes e

theorem met_of_indexed {path : List (Selector Expr)} {e : Expr} (h : LoweredPath (indices act scopes path))
    (he : e ∈ indexed path) : Met act scopes e := by
  rw [LoweredPath, indexed_indices, List.forall_mem_map] at h
  cases hconstant : e.constant? with
  | none => exact .lowered (h e he hconstant)
  | some v => exact .closed (Expr.isClosed_of_constant hconstant)

/-- A leaf of what is written is lowered as a leaf. -/
theorem mem_leaves {i : Initializer Expr} {e : Expr} (he : e ∈ i.leaves) :
    ⟨e.position, expr act scopes e⟩ ∈ (leaves act scopes i).leaves := by
  rw [leaves_eq, Initializer.leaves_map]
  exact List.mem_map_of_mem he

theorem not_lowered_notAssignable {operation : String} {e : Expr} : ¬ Lowered (notAssignable operation e) :=
  fun ⟨_, _, h⟩ => not_lowers_fail h

/-- What is written to a target is met along with it. -/
theorem met_of_assign {target value t : Expr} {op : Option BinaryOp} {p : Position}
    (h : Lowered (expr act scopes (.assign target op value p))) (ht : t ∈ (Expr.assign target op value p).parts) :
    Met act scopes t := by
  cases target with
  | access name path q =>
    have hparts : LoweredPath (indices act scopes path) ∧ Lowered (expr act scopes value) := by
      cases op with
      | none => exact lowered_assign h
      | some op =>
        obtain ⟨hpath, hvalue⟩ := lowered_assign h
        exact ⟨hpath, (lowered_binary hvalue).2⟩
    rcases List.mem_cons.1 ht with rfl | ht
    · exact .target hparts.1
    · cases List.mem_singleton.1 ht
      exact .lowered hparts.2
  | _ => cases op <;> exact absurd h not_lowered_notAssignable

theorem met_of_lowered {e t : Expr} (h : Lowered (expr act scopes e)) (ht : t ∈ e.parts) : Met act scopes t := by
  cases e with
  | number | char | bool => cases ht
  | access name path p => exact met_of_indexed (lowered_read h) ht
  | binary op a b p =>
    obtain ⟨ha, hb⟩ := lowered_binary h
    rcases List.mem_cons.1 ht with rfl | ht
    · exact .lowered ha
    · cases List.mem_singleton.1 ht
      exact .lowered hb
  | unary op e p =>
    cases List.mem_singleton.1 ht
    exact .lowered (lowered_unary h)
  | update op before target p =>
    rw [List.mem_singleton.1 ht]
    cases target with
    | access name path q => exact .target (lowered_update h)
    | _ => exact absurd h not_lowered_notAssignable
  | assign target op value p => exact met_of_assign h ht
  | fill target contents p =>
    cases target with
    | access name path q =>
      obtain ⟨hpath, hcontents⟩ := lowered_fill h
      rcases List.mem_cons.1 ht with rfl | ht
      · exact .target hpath
      · exact .lowered (hcontents _ (mem_leaves ht))
    | _ => exact absurd h not_lowered_notAssignable
  | call name args p =>
    have hargs := (lowered_call h).1
    rw [exprs_eq, List.forall_mem_map] at hargs
    exact .lowered (hargs t ht)

theorem Met.part {e t : Expr} (h : Met act scopes e) (ht : t ∈ e.parts) : Met act scopes t := by
  cases h with
  | lowered h => exact met_of_lowered h ht
  | target h => exact met_of_indexed h ht
  | closed h => exact .closed (isClosed_of_part h ht)

/-- The functions that are called in an expression are expanded, if the expression is met. -/
theorem Met.expands {e : Expr} {args : List Expr} (h : Met act scopes e)
    (hcall : Expr.Has (.call name args position) e) : Expands act name := by
  induction hcall with
  | self =>
    cases h with
    | lowered h => exact (lowered_call h).2
    | closed h => cases h
  | part ht _ ih => exact ih (h.part ht)

/-- Statements are all lowered, if there is code for them. -/
theorem loweredIn_statements {body : List Statement} (h : LoweredIn (statements act body)) :
    ∀ t ∈ body, LoweredIn (statement act t) := by
  induction body with
  | nil => exact nofun
  | cons t body ih =>
    obtain ⟨scopes, _, h⟩ := h
    obtain ⟨_, -, h⟩ := h.bind
    obtain ⟨r, ht, h⟩ := h.bind
    obtain ⟨r', hbody, -⟩ := h.bind
    exact List.forall_mem_cons.2 ⟨⟨scopes, r, ht⟩, ih ⟨_, r', hbody⟩⟩

theorem loweredIn_branch {b : Option Statement} (h : ∀ b' ∈ statement? act b, LoweredIn b') :
    ∀ t ∈ b.toList, LoweredIn (statement act t) := by
  cases b with
  | none => exact nofun
  | some t => exact List.forall_mem_singleton.2 (h _ rfl)

/-- The label of an arm is constant, and its statements are lowered. -/
structure LoweredArm (act : Activation) (c : Case Statement) : Prop where
  label : ∀ e ∈ c.label.exprs, e.isClosed = true
  parts : ∀ t ∈ c.body ++ c.unreachable, LoweredIn (statement act t)

theorem loweredArm_of_switch {cases : List (Case Statement)} (h : LoweredIn (switch e (arms act cases) position)) :
    ∀ c ∈ cases, LoweredArm act c := by
  intro c hc
  rw [arms_eq] at h
  obtain ⟨hlabel, hlive, hdead⟩ := (lowered_switch h).2 _ (List.mem_map_of_mem hc)
  refine ⟨fun e he => ?_, fun t ht => ?_⟩
  · obtain ⟨label, _, _, _, _⟩ := c
    cases label with
    | default => cases he
    | value e' =>
      cases List.mem_singleton.1 he
      obtain ⟨v, hv⟩ := Option.ne_none_iff_exists'.1 (hlabel e rfl)
      exact Expr.isClosed_of_constant hv
  · rcases List.mem_append.1 ht with ht | ht
    · have hbody : c.body.isEmpty = false := by simpa using List.ne_nil_of_mem ht
      exact loweredIn_statements (hlive hbody) t ht
    · rw [armOf, statementList_eq, List.forall_mem_map] at hdead
      exact hdead t ht

theorem loweredIn_forLoop {init : Option Statement} {c step : Option Expr} {body : Statement} {p : Position}
    (h : LoweredIn (statement act (.forLoop init c step body p))) :
    LoweredIn (forLoop (statement? act init) (c.map fun e scopes => expr act scopes e)
      (step.map fun e scopes => expr act scopes e) (statement act body)) := by
  obtain ⟨scopes, r, h⟩ := lowered_plain (lowered_noted h)
  obtain ⟨_, -, h⟩ := h.bind
  exact ⟨scopes, r, h⟩

/-- The parts of a statement are lowered, if there is code for it. -/
theorem loweredIn_parts {t : Statement} (h : LoweredIn (statement act t)) : ∀ u ∈ t.parts, LoweredIn (statement act u) := by
  cases t with
  | block body p => exact loweredIn_statements (lowered_inScope (lowered_plain h))
  | ifElse c a b p =>
    obtain ⟨-, ha, hb⟩ := lowered_branch (lowered_plain (lowered_noted h))
    exact List.forall_mem_cons.2 ⟨ha, loweredIn_branch hb⟩
  | whileLoop c body p => exact List.forall_mem_singleton.2 (lowered_whileLoop (lowered_plain (lowered_noted h))).2
  | doLoop body c p => exact List.forall_mem_singleton.2 (lowered_doLoop (lowered_plain (lowered_noted h))).2
  | forLoop init c step body p =>
    obtain ⟨hinit, -, -, hbody⟩ := lowered_forLoop (loweredIn_forLoop h)
    exact List.forall_mem_cons.2 ⟨hbody, loweredIn_branch hinit⟩
  | switch value cases p =>
    exact List.forall_mem_flatMap.2 fun c hc => (loweredArm_of_switch (lowered_plain (lowered_noted h)) c hc).parts
  | declare | expr | print | returns | breaks | continues | empty => exact nofun

/-- An expression that is met among some scopes. -/
def MetIn (act : Activation) (e : Expr) : Prop := ∃ scopes, Met act scopes e

theorem metIn_of_lowered {e : Expr} (h : LoweredExpr fun scopes => expr act scopes e) : MetIn act e :=
  let ⟨scopes, h⟩ := h
  ⟨scopes, .lowered h⟩

theorem metIn_of_option {o : Option Expr} (h : ∀ e' ∈ o.map fun e scopes => expr act scopes e, LoweredExpr e') :
    ∀ e ∈ o.toList, MetIn act e :=
  fun _ he => metIn_of_lowered (h _ (Option.mem_map_of_mem _ (Option.mem_toList.1 he)))

/-- The expressions of a statement are met, if there is code for it. -/
theorem metIn_heads {t : Statement} (h : LoweredIn (statement act t)) : ∀ e ∈ t.heads, MetIn act e := by
  cases t with
  | declare d =>
    obtain ⟨scopes, hcontents⟩ := lowered_declare (lowered_noted h)
    intro e he
    rw [Statement.heads, Declaration.exprs] at he
    cases hd : d.contents with
    | none =>
      rw [hd] at he
      cases he
    | some i =>
      rw [hd] at he hcontents
      exact ⟨scopes, .lowered (hcontents _ rfl _ (mem_leaves he))⟩
  | expr e =>
    exact List.forall_mem_singleton.2 (metIn_of_lowered (lowered_discard (lowered_plain (lowered_noted h))))
  | ifElse c a b p =>
    exact List.forall_mem_singleton.2 (metIn_of_lowered (lowered_branch (lowered_plain (lowered_noted h))).1)
  | whileLoop c body p =>
    exact List.forall_mem_singleton.2 (metIn_of_lowered (lowered_whileLoop (lowered_plain (lowered_noted h))).1)
  | doLoop body c p =>
    exact List.forall_mem_singleton.2 (metIn_of_lowered (lowered_doLoop (lowered_plain (lowered_noted h))).1)
  | forLoop init c step body p =>
    obtain ⟨-, hc, hstep, -⟩ := lowered_forLoop (loweredIn_forLoop h)
    exact List.forall_mem_append.2 ⟨metIn_of_option hc, metIn_of_option hstep⟩
  | switch value cases p =>
    have h := lowered_plain (lowered_noted h)
    obtain ⟨scopes, hvalue⟩ := (lowered_switch h).1
    refine List.forall_mem_cons.2 ⟨⟨scopes, .lowered hvalue⟩, ?_⟩
    exact List.forall_mem_flatMap.2 fun c hc e he => ⟨scopes, .closed ((loweredArm_of_switch h c hc).label e he)⟩
  | returns value p => exact metIn_of_option (lowered_giveBack (lowered_plain (lowered_noted h)))
  | block | print | breaks | continues | empty => exact fun _ he => absurd he List.not_mem_nil

/-- The functions that a statement calls, anywhere in it, are expanded if there is code for it. -/
theorem statement_expands {args : List Expr} (t : Statement) (h : LoweredIn (statement act t)) {e : Expr}
    (he : e ∈ t.exprs) (hcall : Expr.Has (.call name args position) e) : Expands act name := by
  induction t using Statement.induct with
  | step t ih =>
    rcases Statement.mem_exprs.1 he with hhead | ⟨u, hu, he⟩
    · obtain ⟨scopes, hmet⟩ := metIn_heads h e hhead
      exact hmet.expands hcall
    · exact ih u hu (loweredIn_parts h u hu) he

end TapeC.Lowering
