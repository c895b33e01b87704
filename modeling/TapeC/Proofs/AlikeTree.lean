import TapeC.Lowering.Tree
import TapeC.Proofs.AlikeControl
import TapeC.Proofs.Closed
import TapeC.Proofs.Definitions
import TapeC.Proofs.Parts

/-! Trees whose lowerings are alike: the same tree in two activations, and a tree beside the
same one with its constants folded or printed as text. -/

namespace TapeC

namespace Program

/-- The expression is the other one or is found inside it. -/
inductive Expr.Has (e : Expr) : Expr → Prop where
  | self : Has e e
  | part {t u : Expr} (ht : t ∈ u.parts) (h : Has e t) : Has e u

end Program

namespace Lowering

open Layout Program Tape Routine Code

/-! ### Paths -/

variable {act act' : Activation} {scopes : Scopes} {path : List (Selector Expr)}

/-- A path whose indices are known by their expressions. -/
def indexing (path : List (Selector Expr)) : List (Selector (Index Expr)) :=
  path.map (Selector.map fun e => ⟨e.constant?, e.position, e⟩)

theorem indices_indexing {f : Expr → Expr} (hf : Definitions.Steady f) :
    indices act scopes (path.map (Selector.map f)) =
      (indexing path).map (Selector.map (Index.map fun e => expr act scopes (f e))) := by
  rw [indices_eq, indexing, List.map_map, List.map_map, Selector.map_comp_map, Selector.map_comp_map]
  exact map_congr_of_indexed fun e _ => by
    simp only [Function.comp_apply, Index.map, hf.constant? e, hf.position e]

theorem mem_indexed_indexing {i : Index Expr} (h : i ∈ indexed (indexing path)) : i.code ∈ indexed path := by
  induction path with
  | nil => cases h
  | cons s path ih =>
    cases s with
    | field name => exact ih h
    | index e =>
      rcases List.mem_cons.1 h with rfl | h
      · exact List.mem_cons_self
      · exact List.mem_cons_of_mem _ (ih h)

theorem steady_id : Definitions.Steady id := ⟨fun _ => rfl, fun _ => rfl⟩

theorem has_of_indexing {i : Index Expr} (hi : i ∈ indexed (indexing path)) {e : Expr} (h : Expr.Has e i.code)
    {name : String} {p : Position} : Expr.Has e (.access name path p) :=
  .part (mem_indexed_indexing hi) h

theorem indices_indexing_id :
    indices act scopes path = (indexing path).map (Selector.map (Index.map (expr act scopes))) := by
  have h : indices act scopes (path.map (Selector.map id)) = _ := indices_indexing steady_id
  rwa [Selector.map_id, List.map_id] at h

theorem forall₂_exprs {R : CodeAt → CodeAt → Prop} {f : Expr → Expr} {es : List Expr}
    (h : ∀ e ∈ es, R (expr act scopes e) (expr act' scopes (f e))) :
    List.Forall₂ R (exprs act scopes es) (exprs act' scopes (es.map f)) := by
  rwa [exprs_eq, exprs_eq, List.map_map, List.forall₂_map_left_iff, List.forall₂_map_right_iff,
    List.forall₂_same]

/-! ### Arms -/

theorem statementList_eq (body : List Statement) : statementList act body = body.map (statement act) := by
  induction body with
  | nil => rfl
  | cons s body ih => rw [statementList, ih, List.map_cons]

/-- The arm of a switch that a case becomes. -/
def armOf (act : Activation) (c : Case Statement) : Arm :=
  ⟨c, statements act c.body, statementList act c.unreachable⟩

theorem arms_eq (cases : List (Case Statement)) : arms act cases = cases.map (armOf act) := by
  induction cases with
  | nil => rfl
  | cons c cases ih => rw [arms, ih, List.map_cons, armOf]

namespace Likeness

variable {L : Likeness}

/-! ### Expressions -/

theorem notAssignable_alike {operation : String} {e e' : Expr} (h : e.position = e'.position) :
    L.AlikeAt (notAssignable operation e) (notAssignable operation e') := by
  intro p
  rw [notAssignable, notAssignable, h]
  exact alike_fail nofun

/-- An expression has code that is alike in two activations, if the calls in it do. -/
theorem expr_alike (e : Expr) (h : ∀ name args p, Expr.Has (.call name args p) e → L.AlikeCall act act' name) :
    L.AlikeAt (expr act scopes e) (expr act' scopes e) := by
  induction e using Expr.induct with
  | number | char | bool => exact constant_alike
  | access name path p ih =>
    rw [expr, expr, indices_indexing_id, indices_indexing_id]
    exact read_alike fun i hi => ih i.code (mem_indexed_indexing hi) fun name args p hcall =>
      h name args p (has_of_indexing hi hcall)
  | binary op a b p iha ihb =>
    exact binary_alike (iha fun name args p hcall => h name args p (.part (by simp [Expr.parts]) hcall))
      (ihb fun name args p hcall => h name args p (.part (by simp [Expr.parts]) hcall))
  | unary op e p ih =>
    exact unary_alike (ih fun name args p hcall => h name args p (.part (by simp [Expr.parts]) hcall))
  | update op before target p _ ih =>
    cases target with
    | access name path p =>
      rw [expr, expr, indices_indexing_id, indices_indexing_id]
      exact update_alike fun i hi => ih i.code (mem_indexed_indexing hi) fun name args p hcall =>
        h name args p (.part List.mem_cons_self (has_of_indexing hi hcall))
    | _ => exact notAssignable_alike rfl
  | assign target op value p iht ih ihv =>
    have iht := iht fun name args p hcall => h name args p (.part (by simp [Expr.parts]) hcall)
    have ihv := ihv fun name args p hcall => h name args p (.part (by simp [Expr.parts]) hcall)
    cases target with
    | access name path q =>
      have hpath : ∀ i ∈ indexed (indexing path), L.AlikeAt (expr act scopes i.code) (expr act' scopes i.code) :=
        fun i hi => ih i.code (mem_indexed_indexing hi) fun name args p hcall =>
          h name args p (.part List.mem_cons_self (has_of_indexing hi hcall))
      cases op with
      | none =>
        rw [expr, expr, indices_indexing_id, indices_indexing_id]
        exact assign_alike hpath ihv
      | some op =>
        rw [expr_assign_op, expr_assign_op, indices_indexing_id, indices_indexing_id]
        exact assign_alike hpath (binary_alike iht ihv)
    | _ => cases op <;> exact notAssignable_alike rfl
  | fill target contents p _ ih ihc =>
    cases target with
    | access name path q =>
      rw [expr, expr, indices_indexing_id, indices_indexing_id, leaves_eq, leaves_eq]
      refine fill_alike (fun i hi => ih i.code (mem_indexed_indexing hi) fun name args p hcall =>
        h name args p (.part List.mem_cons_self (has_of_indexing hi hcall))) fun e he => ?_
      exact ⟨rfl, ihc e he fun name args p hcall => h name args p (.part (by simp [Expr.parts, he]) hcall)⟩
    | _ => exact notAssignable_alike rfl
  | call name args p ih =>
    refine call_alike (h name args p .self) ?_
    have hargs := forall₂_exprs (f := id) fun e he => ih e he fun name args p hcall => h name args p (.part he hcall)
    rwa [List.map_id] at hargs

/-! ### Statements -/

/-- A change of statements that those around them do not notice. -/
structure Unnoticed (k : Statement → Statement) : Prop where
  isEmpty : ∀ s, (k s).isEmpty = s.isEmpty
  checkReturn : ∀ s rest, Lowering.checkReturn (k s) rest = Lowering.checkReturn s rest
  declared : ∀ body, (declared? (body.map k)).map (fun d => (d.name, d.position)) =
    (declared? body).map fun d => (d.name, d.position)

theorem mapExprs_unnoticed {f : Expr → Expr} : Unnoticed (Statement.mapExprs f) where
  isEmpty s := by cases s <;> rfl
  checkReturn s rest := by cases s <;> rfl
  declared body := by
    induction body with
    | nil => rfl
    | cons s body ih => cases s <;> first | rfl | exact ih

/-- What statements need of the functions that they are in. -/
structure AlikeFunction (L : Likeness) (act act' : Activation) : Prop where
  structs : act.definitions.structs = act'.definitions.structs
  returns : act.returns = act'.returns
  returnCell : act.returnCell = act'.returnCell
  note : ∀ text, L.code (act.note text) (act'.note text)

variable {k : Statement → Statement} {body : List Statement}

theorem noted_alike (hact : L.AlikeFunction act act') {s s' : Statement} {code code' : CodeIn}
    (hs : noteText? s = noteText? s') (h : L.AlikeIn code code') :
    L.AlikeIn (noted act s code) (noted act' s' code') := by
  refine fun scopes => (h scopes).bind fun (_, _) (_, _) hr => .pure ⟨L.append ?_ hr.1, hr.2⟩
  rw [hs]
  cases noteText? s' with
  | none => exact L.refl rfl
  | some text => exact hact.note text

theorem statements_alike (hk : Unnoticed k)
    (h : ∀ s ∈ body, L.AlikeIn (statement act s) (statement act' (k s))) :
    L.AlikeIn (statements act body) (statements act' (body.map k)) := by
  induction body with
  | nil => exact skip_alike
  | cons s body ih =>
    obtain ⟨hs, hbody⟩ := List.forall_mem_cons.1 h
    intro scopes
    have hany : (body.map k).any (!·.isEmpty) = body.any (!·.isEmpty) := by
      simp only [List.any_map, Function.comp_def, hk.isEmpty]
    have hcheck : checkReturn (k s) (body.map k) = checkReturn s body := by
      rw [hk.checkReturn]
      cases s <;> simp only [checkReturn, hany]
    rw [List.map_cons, statements, statements, hcheck]
    have hwarn : L.Alike Eq (checkReturn s body) (checkReturn s body) := by
      cases s with
      | returns v p =>
        rw [checkReturn]
        split
        · exact alike_warn
        · exact .pure rfl
      | _ => exact .pure rfl
    exact hwarn.bind fun _ _ _ => append_alike hs (ih hbody) scopes

theorem statementList_alike (h : ∀ s ∈ body, L.AlikeIn (statement act s) (statement act' (k s))) :
    List.Forall₂ L.AlikeIn (statementList act body) (statementList act' (body.map k)) := by
  rwa [statementList_eq, statementList_eq, List.map_map, List.forall₂_map_left_iff,
    List.forall₂_map_right_iff, List.forall₂_same]

theorem armOf_alike {l : CaseLabel → CaseLabel} {k' : Statement → Statement} {c : Case Statement}
    (hl : AlikeLabel c.label (l c.label)) (hk : Unnoticed k)
    (hbody : ∀ s ∈ c.body, L.AlikeIn (statement act s) (statement act' (k s)))
    (hdead : ∀ s ∈ c.unreachable, L.AlikeIn (statement act s) (statement act' (k' s))) :
    L.AlikeArm (armOf act c)
      (armOf act' ⟨l c.label, c.body.map k, c.hasBreak, c.unreachable.map k', c.position⟩) where
  label := hl
  declared := (hk.declared c.body).symm
  empty := List.isEmpty_map.symm
  hasBreak := rfl
  reached := List.isEmpty_map.symm
  position := rfl
  body := statements_alike hk hbody
  unreachable := statementList_alike hdead

theorem label_alike {f : Expr → Expr} (hf : Definitions.Steady f) (label : CaseLabel) :
    AlikeLabel label (label.mapExprs f) := by
  cases label with
  | default => exact .default
  | value e => exact .value (hf.constant? e).symm (hf.position e).symm

theorem option_alike {f : Expr → Expr} {o : Option Expr}
    (h : ∀ e ∈ o.toList, ∀ scopes, L.AlikeAt (expr act scopes e) (expr act' scopes (f e))) :
    L.AlikeOption (o.map fun e scopes => expr act scopes e) ((o.map f).map fun e scopes => expr act' scopes e) := by
  cases o with
  | none => exact .none
  | some e => exact .some (h e (by simp))

theorem branch_rel {b : Option Statement}
    (h : ∀ s ∈ b.toList, L.AlikeIn (statement act s) (statement act' (k s))) :
    Option.Rel L.AlikeIn (statement? act b) (statement? act' (b.map k)) := by
  cases b with
  | none => exact .none
  | some s => exact .some (h s (by simp))

theorem checkLoopInit_map {f : Expr → Expr} {init : Option Statement} :
    checkLoopInit (init.map (·.mapExprs f)) = checkLoopInit init := by
  match init with
  | some (.declare ⟨_, _, _, none, _⟩) | some (.declare ⟨_, _, _, some _, _⟩) => rfl
  | none => rfl
  | some (.expr _) | some (.print _ _) | some (.block _ _) | some (.ifElse _ _ _ _) | some (.whileLoop _ _ _)
  | some (.doLoop _ _ _) | some (.forLoop _ _ _ _ _) | some (.switch _ _ _) | some (.returns _ _)
  | some (.breaks _) | some (.continues _) | some .empty => rfl

theorem checkLoopInit_alike {init : Option Statement} : L.Alike Eq (checkLoopInit init) (checkLoopInit init) := by
  unfold checkLoopInit
  split
  · exact alike_warn
  · exact .pure rfl

/-- Statements are alike if the expressions in them are. -/
theorem statement_alike (hact : L.AlikeFunction act act') {f : Expr → Expr} (hf : Definitions.Steady f) (s : Statement)
    (h : ∀ e ∈ s.exprs, ∀ scopes, L.AlikeAt (expr act scopes e) (expr act' scopes (f e))) :
    L.AlikeIn (statement act s) (statement act' (s.mapExprs f)) := by
  induction s using Statement.induct with
  | step s ih =>
    have ih (t : Statement) (ht : t ∈ s.parts) : L.AlikeIn (statement act t) (statement act' (t.mapExprs f)) :=
      ih t ht fun e he => h e (Statement.exprs_of_part ht he)
    cases s with
    | declare d =>
      have hcontents (scopes : Scopes) : (d.mapExprs f).contents.map (leaves act' scopes) =
          d.contents.map (·.map fun e => ⟨(f e).position, expr act' scopes (f e)⟩) := by
        rw [Declaration.mapExprs, Option.map_map]
        exact Option.map_congr fun i _ => by rw [Function.comp_apply, leaves_eq, Initializer.map_map]; rfl
      have hcontents' (scopes : Scopes) : d.contents.map (leaves act scopes) =
          d.contents.map (·.map fun e => ⟨e.position, expr act scopes e⟩) :=
        Option.map_congr fun i _ => leaves_eq i
      rw [Statement.mapExprs, statement, statement, funext hcontents, funext hcontents']
      refine noted_alike hact rfl (declare_alike hact.structs rfl rfl rfl rfl fun scopes i hi e he => ?_)
      have he : e ∈ d.exprs := by
        rw [Declaration.exprs, hi]
        exact he
      exact ⟨(hf.position e).symm, h e he scopes⟩
    | expr e =>
      refine noted_alike hact (by simp only [noteText?, hf.position]) (plain_alike (discard_alike ?_))
      exact h e List.mem_cons_self
    | print text p => exact noted_alike hact rfl (plain_alike fun _ => .pure (L.refl writeBytes_noteless))
    | block body p =>
      rw [Statement.mapExprs, statement, statement, mapBody_eq]
      exact plain_alike (inScope_alike (statements_alike mapExprs_unnoticed ih))
    | ifElse c a b p =>
      rw [Statement.mapExprs, statement, statement, mapBranch_eq]
      exact noted_alike hact rfl (plain_alike (branch_alike (h c List.mem_cons_self) (ih a List.mem_cons_self)
        (branch_rel fun s hs => ih s (List.mem_cons_of_mem _ hs))))
    | whileLoop c body p =>
      exact noted_alike hact rfl (plain_alike (whileLoop_alike (h c List.mem_cons_self) (ih body List.mem_cons_self)))
    | doLoop body c p =>
      exact noted_alike hact rfl (plain_alike (doLoop_alike (ih body List.mem_cons_self)
        (h c (List.mem_append_right _ List.mem_cons_self))))
    | forLoop init c step body p =>
      have hinit : Option.Rel L.AlikeIn (statement? act init) (statement? act' (init.map (·.mapExprs f))) :=
        branch_rel fun s hs => ih s (List.mem_cons_of_mem _ hs)
      have hexprs {o : Option Expr} (ho : ∀ e ∈ o.toList, e ∈ (Statement.forLoop init c step body p).exprs) :
          L.AlikeOption (o.map fun e scopes => expr act scopes e)
            ((o.map f).map fun e scopes => expr act' scopes e) :=
        option_alike fun e he => h e (ho e he)
      have hloop := forLoop_alike hinit (hexprs (o := c) fun e he => by simp [Statement.exprs, he])
        (hexprs (o := step) fun e he => by simp [Statement.exprs, he]) (ih body List.mem_cons_self)
      rw [Statement.mapExprs, statement, statement, mapBranch_eq, checkLoopInit_map]
      exact noted_alike hact rfl (plain_alike fun scopes => checkLoopInit_alike.bind fun _ _ _ => hloop scopes)
    | switch value cases p =>
      rw [Statement.mapExprs, statement, statement, mapCases_eq, arms_eq, arms_eq]
      refine noted_alike hact rfl (plain_alike (switch_alike (h value List.mem_cons_self) ?_))
      rw [List.map_map, List.forall₂_map_left_iff, List.forall₂_map_right_iff, List.forall₂_same]
      intro c hc
      have hparts (s : Statement) (hs : s ∈ c.body ++ c.unreachable) := ih s (List.mem_flatMap.2 ⟨c, hc, hs⟩)
      exact armOf_alike (label_alike hf c.label) mapExprs_unnoticed (fun s hs => hparts s (List.mem_append_left _ hs))
        fun s hs => hparts s (List.mem_append_right _ hs)
    | returns value p =>
      exact noted_alike hact rfl (plain_alike (giveBack_alike hact.returns hact.returnCell (option_alike h)))
    | breaks p | continues p => exact fun _ => alike_throw fun _ _ h => by cases h
    | empty => exact plain_alike fun _ => .pure (L.refl rfl)

/-- The same statements in two functions, in which calls are alike. -/
theorem statements_alike_self (hact : L.AlikeFunction act act')
    (h : ∀ s ∈ body, ∀ e ∈ s.exprs, ∀ name args p, Expr.Has (.call name args p) e → L.AlikeCall act act' name) :
    L.AlikeIn (statements act body) (statements act' body) := by
  have hid : body.map (Statement.mapExprs id) = body :=
    (List.map_congr_left fun s _ => s.mapExprs_id).trans (List.map_id' body)
  have hbody : L.AlikeIn (statements act body) (statements act' (body.map (Statement.mapExprs id))) :=
    statements_alike mapExprs_unnoticed fun s hs =>
      statement_alike hact steady_id s fun e he _ => expr_alike e (h s hs e he)
  rwa [hid] at hbody

end Likeness
end Lowering
end TapeC
