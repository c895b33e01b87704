import TapeC.Proofs.Folding

/-! The parts of statements, and the expressions that are in a statement but in no part of it. A
change of the expressions, and one that prints constants as text, is made part by part. -/

namespace TapeC.Program

/-! ### Expressions -/

theorem bodyExprs_eq (body : List Statement) : bodyExprs body = body.flatMap Statement.exprs := by
  induction body with
  | nil => rfl
  | cons s body ih => rw [bodyExprs, ih, List.flatMap_cons]

theorem branchExprs_eq (b : Option Statement) : branchExprs b = b.toList.flatMap Statement.exprs := by
  cases b <;> simp [branchExprs]

theorem casesExprs_eq (cases : List (Case Statement)) : casesExprs cases = cases.flatMap fun c =>
    c.label.exprs ++ c.body.flatMap Statement.exprs ++ c.unreachable.flatMap Statement.exprs := by
  induction cases with
  | nil => rfl
  | cons c cases ih =>
    obtain ⟨label, body, hasBreak, unreachable, p⟩ := c
    rw [casesExprs, ih, List.flatMap_cons, bodyExprs_eq, bodyExprs_eq]

/-- The expressions of a statement that are not in its parts. -/
def Statement.heads : Statement → List Expr
  | .declare d => d.exprs
  | .expr e => [e]
  | .ifElse c _ _ _ | .whileLoop c _ _ | .doLoop _ c _ => [c]
  | .forLoop _ c step _ _ => c.toList ++ step.toList
  | .switch value cases _ => value :: cases.flatMap fun c => c.label.exprs
  | .returns value _ => value.toList
  | .block _ _ | .print _ _ | .breaks _ | .continues _ | .empty => []

attribute [local simp] Statement.exprs Statement.heads Statement.parts Statement.mapExprs Statement.printConstants

theorem Statement.mem_exprs {s : Statement} {e : Expr} : e ∈ s.exprs ↔ e ∈ s.heads ∨ ∃ t ∈ s.parts, e ∈ t.exprs := by
  cases s with
  | block body p => simp [bodyExprs_eq]
  | ifElse c a b p => simp [branchExprs_eq]
  | whileLoop c body p => simp
  | doLoop body c p => simp [or_comm]
  | forLoop init c step body p =>
    simp only [exprs, heads, parts, branchExprs_eq, List.mem_append, List.mem_flatMap, List.mem_cons, exists_eq_or_imp]
    grind
  | switch value cases p =>
    simp only [exprs, heads, parts, casesExprs_eq, List.mem_append, List.mem_flatMap, List.mem_cons]
    grind
  | declare | expr | print | returns | breaks | continues | empty => simp

theorem Statement.exprs_of_head {s : Statement} {e : Expr} (he : e ∈ s.heads) : e ∈ s.exprs := mem_exprs.2 (.inl he)

/-- The expressions of a part are expressions of the statement. -/
theorem Statement.exprs_of_part {s t : Statement} (ht : t ∈ s.parts) {e : Expr} (he : e ∈ t.exprs) : e ∈ s.exprs :=
  mem_exprs.2 (.inr ⟨t, ht, he⟩)

/-! ### Changed expressions -/

theorem mapCases_eq {f : Expr → Expr} (cases : List (Case Statement)) : mapCases f cases = cases.map fun c =>
    ⟨c.label.mapExprs f, c.body.map (·.mapExprs f), c.hasBreak, c.unreachable.map (·.mapExprs f), c.position⟩ := by
  induction cases with
  | nil => rfl
  | cons c cases ih => rw [mapCases, ih, mapBody_eq, mapBody_eq, List.map_cons]

theorem Declaration.exprs_mapExprs {f : Expr → Expr} (d : Declaration) : (d.mapExprs f).exprs = d.exprs.map f := by
  rw [mapExprs, exprs, exprs]
  cases d.contents with
  | none => rfl
  | some i => exact Initializer.leaves_map i

theorem Statement.heads_mapExprs {f : Expr → Expr} (s : Statement) : (s.mapExprs f).heads = s.heads.map f := by
  cases s with
  | declare d => exact d.exprs_mapExprs
  | forLoop init c step body p => cases c <;> cases step <;> rfl
  | switch value cases p =>
    have hlabel (l : CaseLabel) : (l.mapExprs f).exprs = l.exprs.map f := by cases l <;> rfl
    rw [mapExprs, heads, heads, mapCases_eq, List.flatMap_map, List.map_cons, List.map_flatMap]
    simp only [hlabel]
  | returns value p => cases value <;> rfl
  | _ => rfl

theorem Statement.parts_mapExprs {f : Expr → Expr} (s : Statement) :
    (s.mapExprs f).parts = s.parts.map (·.mapExprs f) := by
  cases s with
  | block body p => exact mapBody_eq body
  | ifElse c a b p => cases b <;> rfl
  | forLoop init c step body p => cases init <;> rfl
  | switch value cases p =>
    rw [mapExprs, mapCases_eq, parts, parts, List.flatMap_map, List.map_flatMap]
    simp only [List.map_append]
  | _ => rfl

theorem Statement.exprs_mapExprs_subset {f : Expr → Expr} (s : Statement) : (s.mapExprs f).exprs ⊆ s.exprs.map f := by
  induction s using Statement.induct with
  | step s ih =>
    intro e he
    rcases mem_exprs.1 he with he | ⟨u, hu, he⟩
    · rw [heads_mapExprs] at he
      exact List.map_subset f (fun _ => exprs_of_head) he
    · rw [parts_mapExprs] at hu
      obtain ⟨t, ht, rfl⟩ := List.mem_map.1 hu
      exact List.map_subset f (fun _ => exprs_of_part ht) (ih t ht he)

/-! ### Unchanged expressions -/

mutual
theorem Initializer.map_id {ε : Type} : (i : Initializer ε) → i.map id = i
  | .single _ => rfl
  | .list items p => by rw [Initializer.map, mapItems_id items]
  | .text _ _ => rfl

theorem mapItems_id {ε : Type} : (items : List (Initializer ε)) → mapItems id items = items
  | [] => rfl
  | i :: items => by rw [mapItems, Initializer.map_id i, mapItems_id items]
end

theorem Declaration.mapExprs_eq_self {f : Expr → Expr} (d : Declaration) (h : ∀ e ∈ d.exprs, f e = e) :
    d.mapExprs f = d := by
  obtain ⟨type, name, dims, contents, p⟩ := d
  cases contents with
  | none => rfl
  | some i => rw [mapExprs, Option.map_some, (i.map_congr h : i.map f = i.map id), Initializer.map_id]

theorem Case.mapExprs_eq_self {f : Expr → Expr} {c : Case Statement} (hlabel : ∀ e ∈ c.label.exprs, f e = e)
    (hparts : ∀ t ∈ c.body ++ c.unreachable, t.mapExprs f = t) : (⟨c.label.mapExprs f, c.body.map (·.mapExprs f),
      c.hasBreak, c.unreachable.map (·.mapExprs f), c.position⟩ : Case Statement) = c := by
  obtain ⟨label, body, hasBreak, unreachable, p⟩ := c
  obtain ⟨hbody, hunreachable⟩ := List.forall_mem_append.1 hparts
  rw [(List.map_congr_left hbody).trans (List.map_id' body),
    (List.map_congr_left hunreachable).trans (List.map_id' unreachable)]
  cases label with
  | default => rfl
  | value e => rw [CaseLabel.mapExprs, hlabel e List.mem_cons_self]

/-- A statement whose expressions are not changed is not changed. -/
theorem Statement.mapExprs_eq_self {f : Expr → Expr} (s : Statement) (h : ∀ e ∈ s.exprs, f e = e) :
    s.mapExprs f = s := by
  induction s using Statement.induct with
  | step s ih =>
    have ih (t : Statement) (ht : t ∈ s.parts) : t.mapExprs f = t := ih t ht fun e he => h e (exprs_of_part ht he)
    have h (e : Expr) (he : e ∈ s.heads) : f e = e := h e (exprs_of_head he)
    have hbranch {b : Option Statement} (h : ∀ t ∈ b.toList, t.mapExprs f = t) : mapBranch f b = b := by
      cases b with
      | none => rfl
      | some t => exact congrArg some (h t (by simp))
    have hoption {o : Option Expr} (ho : ∀ e ∈ o.toList, e ∈ s.heads) : o.map f = o := by
      cases o with
      | none => rfl
      | some e => exact congrArg some (h e (ho e (by simp)))
    cases s with
    | declare d => exact congrArg declare (d.mapExprs_eq_self h)
    | expr e => exact congrArg expr (h e List.mem_cons_self)
    | block body p =>
      have hbody : body.map (·.mapExprs f) = body := (List.map_congr_left ih).trans (List.map_id' body)
      rw [mapExprs, mapBody_eq, hbody]
    | ifElse c a b p =>
      rw [mapExprs, ih a List.mem_cons_self, hbranch fun t ht => ih t (List.mem_cons_of_mem _ ht),
        h c List.mem_cons_self]
    | whileLoop c body p => rw [mapExprs, ih body List.mem_cons_self, h c List.mem_cons_self]
    | doLoop body c p => rw [mapExprs, ih body List.mem_cons_self, h c List.mem_cons_self]
    | forLoop init c step body p =>
      rw [mapExprs, ih body List.mem_cons_self, hbranch fun t ht => ih t (List.mem_cons_of_mem _ ht),
        hoption fun e he => List.mem_append_left _ he, hoption fun e he => List.mem_append_right _ he]
    | switch value cases p =>
      have hcase (c : Case Statement) (hc : c ∈ cases) := Case.mapExprs_eq_self
        (fun e he => h e (List.mem_cons_of_mem _ (List.mem_flatMap.2 ⟨c, hc, he⟩)))
        (fun t ht => ih t (List.mem_flatMap.2 ⟨c, hc, ht⟩))
      rw [mapExprs, mapCases_eq, (List.map_congr_left hcase).trans (List.map_id' cases), h value List.mem_cons_self]
    | returns value p => rw [mapExprs, hoption fun _ he => he]
    | print | breaks | continues | empty => rfl

theorem Statement.mapExprs_id (s : Statement) : s.mapExprs id = s := s.mapExprs_eq_self fun _ _ => rfl

/-! ### Printed constants -/

theorem printConstantsCases_eq (cases : List (Case Statement)) : printConstantsCases cases = cases.map fun c =>
    ⟨c.label, c.body.map Statement.printConstants, c.hasBreak, c.unreachable, c.position⟩ := by
  induction cases with
  | nil => rfl
  | cons c cases ih => rw [printConstantsCases, ih, printConstantsIn_eq, List.map_cons]

/-- What prints a constant is text. -/
theorem Statement.printConstants_expr (e : Expr) : (Statement.expr e).printConstants = .expr e ∨
    ∃ text p, (Statement.expr e).printConstants = .print text p := by
  rw [printConstants]
  unfold Expr.printed?
  split
  next arg p =>
    cases arg.constant? with
    | none => exact .inl rfl
    | some v => exact .inr ⟨_, _, rfl⟩
  next => exact .inl rfl

theorem Statement.heads_printConstants_subset (s : Statement) : s.printConstants.heads ⊆ s.heads := by
  cases s with
  | expr e =>
    obtain h | ⟨text, p, h⟩ := printConstants_expr e
    · rw [h]
      exact List.Subset.refl _
    · rw [h]
      exact List.nil_subset _
  | switch value cases p =>
    rw [printConstants, heads, heads, printConstantsCases_eq, List.flatMap_map]
    exact List.Subset.refl _
  | _ => exact List.Subset.refl _

theorem Statement.parts_printConstants {s u : Statement} (h : u ∈ s.printConstants.parts) :
    ∃ t ∈ s.parts, u = t ∨ u = t.printConstants := by
  cases s with
  | expr e =>
    rcases printConstants_expr e with he | ⟨text, p, he⟩ <;> rw [he] at h <;> cases h
  | block body p =>
    rw [printConstants, parts, printConstantsIn_eq] at h
    obtain ⟨t, ht, rfl⟩ := List.mem_map.1 h
    exact ⟨t, ht, .inr rfl⟩
  | ifElse c a b p =>
    rcases List.mem_cons.1 h with rfl | h
    · exact ⟨a, List.mem_cons_self, .inr rfl⟩
    · cases b with
      | none => cases h
      | some b => exact ⟨b, List.mem_cons_of_mem _ List.mem_cons_self, .inr (List.mem_singleton.1 h)⟩
  | whileLoop c body p => exact ⟨body, List.mem_cons_self, .inr (List.mem_singleton.1 h)⟩
  | doLoop body c p => exact ⟨body, List.mem_cons_self, .inr (List.mem_singleton.1 h)⟩
  | forLoop init c step body p =>
    rcases List.mem_cons.1 h with rfl | h
    · exact ⟨body, List.mem_cons_self, .inr rfl⟩
    · exact ⟨u, List.mem_cons_of_mem _ h, .inl rfl⟩
  | switch value cases p =>
    rw [printConstants, printConstantsCases_eq, parts, List.flatMap_map] at h
    obtain ⟨c, hc, h⟩ := List.mem_flatMap.1 h
    have hmem {t : Statement} (ht : t ∈ c.body ++ c.unreachable) : t ∈ (switch value cases p).parts :=
      List.mem_flatMap.2 ⟨c, hc, ht⟩
    rcases List.mem_append.1 h with h | h
    · obtain ⟨t, ht, rfl⟩ := List.mem_map.1 h
      exact ⟨t, hmem (List.mem_append_left _ ht), .inr rfl⟩
    · exact ⟨u, hmem (List.mem_append_right _ h), .inl rfl⟩
  | declare | print | returns | breaks | continues | empty => cases h

/-- Where a constant is printed as text, only a call of a built-in function is left out. -/
theorem Statement.exprs_printConstants_subset (s : Statement) : s.printConstants.exprs ⊆ s.exprs := by
  induction s using Statement.induct with
  | step s ih =>
    intro e he
    rcases mem_exprs.1 he with he | ⟨u, hu, he⟩
    · exact exprs_of_head (s.heads_printConstants_subset he)
    · obtain ⟨t, ht, rfl | rfl⟩ := parts_printConstants hu
      · exact exprs_of_part ht he
      · exact exprs_of_part ht (ih t ht he)

theorem Statement.printConstants_printConstants (s : Statement) : s.printConstants.printConstants = s.printConstants := by
  induction s using Statement.induct with
  | step s ih =>
    have hbody {body : List Statement} (h : ∀ t ∈ body, t.printConstants.printConstants = t.printConstants) :
        printConstantsIn (printConstantsIn body) = printConstantsIn body := by
      rw [printConstantsIn_eq, printConstantsIn_eq, List.map_map]
      exact List.map_congr_left h
    cases s with
    | expr e =>
      obtain h | ⟨text, p, h⟩ := printConstants_expr e
      · rw [h, h]
      · rw [h, printConstants]
    | declare | print | returns | breaks | continues | empty => rfl
    | block body p => exact congrArg (block · p) (hbody ih)
    | ifElse c a b p =>
      have hb : printConstantsBranch (printConstantsBranch b) = printConstantsBranch b := by
        cases b with
        | none => rfl
        | some t => exact congrArg some (ih t (List.mem_cons_of_mem _ List.mem_cons_self))
      rw [printConstants, printConstants, ih a List.mem_cons_self, hb]
    | whileLoop c body p => rw [printConstants, printConstants, ih body List.mem_cons_self]
    | doLoop body c p => rw [printConstants, printConstants, ih body List.mem_cons_self]
    | forLoop init c step body p => rw [printConstants, printConstants, ih body List.mem_cons_self]
    | switch value cases p =>
      rw [printConstants, printConstants, printConstantsCases_eq, printConstantsCases_eq, List.map_map]
      refine congrArg (switch value · p) (List.map_congr_left fun c hc => ?_)
      have hc := hbody fun t ht => ih t (List.mem_flatMap.2 ⟨c, hc, List.mem_append_left _ ht⟩)
      rw [printConstantsIn_eq, printConstantsIn_eq] at hc
      rw [Function.comp_apply, hc]

end TapeC.Program
