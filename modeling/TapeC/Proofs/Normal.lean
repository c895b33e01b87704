import TapeC.Proofs.Recursion

/-! Folding leaves nothing to fold. An expression is normal if no node of it is an operation
with a constant value. What folding yields is normal, and a normal expression is not changed by
folding, so that an optimized program is optimized to itself. -/

namespace TapeC.Program

open Lowering

/-! ### Nodes -/

/-- Induction on the parts of an expression. -/
@[elab_as_elim]
theorem Expr.inductParts {motive : Expr → Prop} (step : ∀ e, (∀ t ∈ e.parts, motive t) → motive e) (e : Expr) :
    motive e := by
  induction e using Expr.induct with
  | number | char | bool => exact step _ fun _ h => nomatch h
  | access _ _ _ ih | call _ _ _ ih => exact step _ ih
  | binary _ _ _ _ iha ihb => exact step _ (by simp [parts, iha, ihb])
  | unary _ _ _ ih | update _ _ _ _ ih => exact step _ (by simp [parts, ih])
  | assign _ _ _ _ iht _ ihv => exact step _ (by simp [parts, iht, ihv])
  | fill _ _ _ iht _ ihc => exact step _ (List.forall_mem_cons.2 ⟨iht, ihc⟩)

theorem pathNodes_eq (path : List (Selector Expr)) : pathNodes path = (indexed path).flatMap Expr.nodes := by
  induction path with
  | nil => rfl
  | cons s path ih => cases s <;> simp [pathNodes, indexed, ih]

theorem argsNodes_eq (es : List Expr) : argsNodes es = es.flatMap Expr.nodes := by
  induction es with
  | nil => rfl
  | cons e es ih => rw [argsNodes, ih, List.flatMap_cons]

mutual
theorem contentsNodes_eq : (i : Initializer Expr) → contentsNodes i = i.leaves.flatMap Expr.nodes
  | .single _ => (List.flatMap_singleton ..).symm
  | .list items _ => itemsNodes_eq items
  | .text _ _ => rfl

theorem itemsNodes_eq : (items : List (Initializer Expr)) →
    itemsNodes items = (leavesOfItems items).flatMap Expr.nodes
  | [] => rfl
  | i :: items => by rw [itemsNodes, contentsNodes_eq i, itemsNodes_eq items, leavesOfItems, List.flatMap_append]
end

/-- The nodes of an expression are itself and those of its parts. -/
theorem Expr.nodes_eq (e : Expr) : e.nodes = e :: e.parts.flatMap nodes := by
  cases e with
  | number | char | bool => rfl
  | access name path p => rw [nodes, pathNodes_eq, parts]
  | call name args p => rw [nodes, argsNodes_eq, parts]
  | fill target contents p => rw [nodes, contentsNodes_eq, parts, List.flatMap_cons]
  | binary | unary | update | assign => simp [nodes, parts]

/-- A node of an expression is found inside it. -/
theorem Expr.mem_nodes {t e : Expr} : t ∈ e.nodes ↔ Has t e := by
  induction e using Expr.inductParts with
  | step e ih =>
    rw [nodes_eq, List.mem_cons, List.mem_flatMap]
    constructor
    · rintro (rfl | ⟨u, hu, ht⟩)
      · exact .self
      · exact .part hu ((ih u hu).1 ht)
    · rintro (_ | ⟨hu, ht⟩)
      · exact .inl rfl
      · exact .inr ⟨_, hu, (ih _ hu).2 ht⟩

/-! ### Normal expressions -/

/-- No node of the expression is an operation with a constant value. -/
def Expr.Normal (e : Expr) : Prop := ∀ t ∈ e.nodes, t.isFoldable = false

namespace Expr

variable {e : Expr}

theorem normal_iff : e.Normal ↔ e.isFoldable = false ∧ ∀ t ∈ e.parts, t.Normal := by
  rw [Normal, nodes_eq, List.forall_mem_cons, List.forall_mem_flatMap]
  rfl

theorem isFoldable_orConstant (e : Expr) : e.orConstant.isFoldable = false := by
  rw [orConstant]
  split
  · rfl
  next h => cases e <;> first | rfl | rw [isFoldable, h, Option.isSome_none]

/-- A folded expression is normal: the parts are folded before it is known whether the
expression is constant. -/
theorem fold_normal (e : Expr) : e.fold.Normal := by
  induction e using Expr.inductParts with
  | step e ih =>
    refine normal_iff.2 ⟨?_, fun t ht => ?_⟩
    · cases e with
      | binary op a b p => exact isFoldable_orConstant _
      | unary op e p => exact isFoldable_orConstant _
      | _ => rfl
    · obtain ⟨u, hu, rfl⟩ := mem_parts_fold ht
      exact ih u hu

/-- A normal expression is its own folding. -/
theorem fold_eq_self (e : Expr) (h : e.Normal) : e.fold = e := by
  have hoperation {e : Expr} (h : e.constant?.isSome = false) : e.orConstant = e := by
    rw [orConstant, Option.isSome_eq_false_iff.1 h |> Option.isNone_iff_eq_none.1]
  induction e using Expr.induct with
  | number | char | bool => rfl
  | access name path p ih =>
    have hpath : path.map (Selector.map fold) = path.map (Selector.map id) :=
      map_congr_of_indexed fun t ht => ih t ht ((normal_iff.1 h).2 t ht)
    rw [fold, foldPath_eq, hpath, Selector.map_id, List.map_id]
  | binary op a b p iha ihb =>
    obtain ⟨hself, hparts⟩ := normal_iff.1 h
    rw [fold, iha (hparts a (by simp [parts])), ihb (hparts b (by simp [parts])), hoperation hself]
  | unary op e p ih =>
    obtain ⟨hself, hparts⟩ := normal_iff.1 h
    rw [fold, ih (hparts e (by simp [parts])), hoperation hself]
  | update op before target p ih =>
    rw [fold, ih ((normal_iff.1 h).2 target (by simp [parts]))]
  | assign target op value p iht _ ihv =>
    obtain ⟨-, hparts⟩ := normal_iff.1 h
    rw [fold, iht (hparts target (by simp [parts])), ihv (hparts value (by simp [parts]))]
  | fill target contents p iht _ ihc =>
    obtain ⟨-, hparts⟩ := normal_iff.1 h
    have hcontents : contents.map fold = contents.map id :=
      contents.map_congr fun t ht => ihc t ht (hparts t (List.mem_cons_of_mem _ ht))
    rw [fold, iht (hparts target List.mem_cons_self), foldContents_eq, hcontents, Initializer.map_id]
  | call name args p ih =>
    have hargs : args.map fold = args := (List.map_congr_left fun t ht => ih t ht ((normal_iff.1 h).2 t ht)).trans
      (List.map_id' args)
    rw [fold, foldArgs_eq, hargs]

/-- An operation with a constant value is replaced by it. -/
theorem fold_of_isFoldable (h : e.isFoldable = true) {v : Cell} (hv : e.constant? = some v) :
    e.fold = .number v.toNat e.position := by
  have hoperation {u : Expr} (hself : e.fold = u.orConstant) (hposition : u.position = e.position) :
      e.fold = .number v.toNat e.position := by
    have hconstant : u.constant? = some v := by rw [← u.orConstant_constant?, ← hself, fold_constant?, hv]
    rw [hself, orConstant, hconstant, hposition]
  cases e with
  | binary op a b p => exact hoperation (u := .binary op a.fold b.fold p) rfl rfl
  | unary op e p => exact hoperation (u := .unary op e.fold p) rfl rfl
  | _ => cases h

end Expr

/-! ### Programs -/

theorem mem_exprs {p : Program} {e : Expr} :
    e ∈ p.exprs ↔ (∃ d ∈ p.globals, e ∈ d.exprs) ∨ ∃ d ∈ p.functions, ∃ s ∈ d.body, e ∈ s.exprs := by
  simp [exprs, bodyExprs_eq]

theorem exprs_mapExprs_subset {f : Expr → Expr} (p : Program) : (p.mapExprs f).exprs ⊆ p.exprs.map f := by
  intro e he
  rcases mem_exprs.1 he with ⟨_, hmem, he⟩ | ⟨_, hmem, _, hbody, he⟩
  · obtain ⟨d, hd, rfl⟩ := List.mem_map.1 hmem
    rw [Declaration.exprs_mapExprs] at he
    exact List.map_subset f (fun _ he => mem_exprs.2 (.inl ⟨d, hd, he⟩)) he
  · obtain ⟨d, hd, rfl⟩ := List.mem_map.1 hmem
    rw [mapBody_eq] at hbody
    obtain ⟨s, hs, rfl⟩ := List.mem_map.1 hbody
    exact List.map_subset f (fun _ he => mem_exprs.2 (.inr ⟨d, hd, s, hs, he⟩)) (s.exprs_mapExprs_subset he)

theorem exprs_printConstants_subset (p : Program) : p.printConstants.exprs ⊆ p.exprs := by
  intro e he
  rcases mem_exprs.1 he with he | ⟨_, hmem, _, hbody, he⟩
  · exact mem_exprs.2 (.inl he)
  · obtain ⟨d, hd, rfl⟩ := List.mem_map.1 hmem
    rw [printConstantsIn_eq] at hbody
    obtain ⟨s, hs, rfl⟩ := List.mem_map.1 hbody
    exact mem_exprs.2 (.inr ⟨d, hd, s, hs, s.exprs_printConstants_subset he⟩)

/-- A program whose expressions are not changed is not changed. -/
theorem mapExprs_eq_self {f : Expr → Expr} (p : Program) (h : ∀ e ∈ p.exprs, f e = e) : p.mapExprs f = p := by
  have hglobals : p.globals.map (·.mapExprs f) = p.globals :=
    (List.map_congr_left fun d hd => d.mapExprs_eq_self fun e he => h e (mem_exprs.2 (.inl ⟨d, hd, he⟩))).trans
      (List.map_id' p.globals)
  have hbody (d : FunctionDef) (hd : d ∈ p.functions) : mapBody f d.body = d.body := by
    rw [mapBody_eq]
    refine (List.map_congr_left fun s hs => s.mapExprs_eq_self fun e he => h e ?_).trans (List.map_id' d.body)
    exact mem_exprs.2 (.inr ⟨d, hd, s, hs, he⟩)
  have hfunctions : p.functions.map (fun d => { d with body := mapBody f d.body }) = p.functions :=
    (List.map_congr_left fun d hd => by rw [hbody d hd]).trans (List.map_id' p.functions)
  rw [mapExprs, hglobals, hfunctions]

theorem printConstants_printConstants (p : Program) : p.printConstants.printConstants = p.printConstants := by
  simp only [printConstants, List.map_map, printConstantsIn_eq, Function.comp_def,
    Statement.printConstants_printConstants]

/-- Folding goes through all of a program, and no later step undoes it. -/
theorem normal_of_mem_optimize {level : Nat} (hlevel : 1 ≤ level) {p : Program} {e : Expr}
    (he : e ∈ (p.optimize level).exprs) : e.Normal := by
  have hfold : e ∈ p.fold.exprs := by
    simp only [optimize, if_pos hlevel] at he
    split at he
    · exact p.fold.exprs_printConstants_subset he
    · exact he
  obtain ⟨e, -, rfl⟩ := List.mem_map.1 (p.exprs_mapExprs_subset hfold)
  exact e.fold_normal

theorem optimize_optimize {level : Nat} (hlevel : 1 ≤ level) (p : Program) :
    (p.optimize level).optimize level = p.optimize level := by
  have hfold : (p.optimize level).fold = p.optimize level :=
    mapExprs_eq_self _ fun e he => e.fold_eq_self (normal_of_mem_optimize hlevel he)
  rw [optimize, if_pos hlevel, hfold]
  split
  next hprint =>
    simp only [optimize, if_pos hprint]
    exact printConstants_printConstants _
  next => rfl

/-- Optimizing a program folds all of it: there is no operation with a constant value anywhere
in the result, a second time changes and counts nothing, and the constants are what they were,
values of a cell, which take the place of the operations. -/
theorem optimize_complete {level : Nat} (hlevel : 1 ≤ level) (p : Program) :
    (∀ e ∈ (p.optimize level).exprs, ∀ t, Expr.Has t e → t.isFoldable = false) ∧
      (p.optimize level).optimize level = p.optimize level ∧ optimizeCount level (p.optimize level) = 0 ∧
      ∀ e : Expr, e.fold.constant? = e.constant? ∧ ∀ v, e.constant? = some v →
        v.toNat ≤ 255 ∧ (e.isFoldable = true → e.fold = .number v.toNat e.position) := by
  have hnormal {e t : Expr} (he : e ∈ (p.optimize level).exprs) (ht : t ∈ e.nodes) : t.isFoldable = false :=
    normal_of_mem_optimize hlevel he t ht
  refine ⟨fun e he t ht => hnormal he (Expr.mem_nodes.2 ht), optimize_optimize hlevel p, ?_, fun e =>
    ⟨e.fold_constant?, fun v hv => ⟨Nat.le_of_lt_succ v.toNat_lt, fun h => Expr.fold_of_isFoldable h hv⟩⟩⟩
  rw [optimizeCount, if_pos hlevel, foldCount, List.countP_eq_zero]
  intro t ht
  obtain ⟨e, he, ht⟩ := List.mem_flatMap.1 ht
  rw [hnormal he ht]
  exact Bool.false_ne_true

/-- Operations with constant values in all kinds of places: in a nested initializer, in the header
of a loop, in an index on the left of an assignment, in a label, in the argument of a call, and
after the `break` of an arm. -/
def operations : Program where
  globals := [⟨.int, "x", [1, 2], some (.list [.list [.single (sum 1), .single (sum 2)] .start] .start), .start⟩]
  functions := [⟨.void, "main", [], [.forLoop (some (.declare ⟨.int, "i", [], some (.single (sum 3)), .start⟩))
    (some (.binary .less (.access "i" [] .start) (sum 4) .start))
    (some (.assign (.access "x" [.index (.number 0 .start), .index (sum 0)] .start) none (sum 5) .start))
    (.switch (.access "i" [] .start) [⟨.value (sum 6), [.expr (.call "printint" [sum 7] .start)], true,
      [.returns (some (.unary .negate (sum 8) .start)) .start], .start⟩] .start) .start], .start⟩]
where
  sum (n : Int) : Expr := .binary .add (.number n .start) (.number 1 .start) .start

theorem optimize_complete_of_operations :
    1 ≤ 2 ∧ optimizeCount 2 operations = 10 ∧ optimizeCount 2 (operations.optimize 2) = 0 :=
  ⟨by decide, by decide, (optimize_complete (by decide) operations).2.2.1⟩

end TapeC.Program
