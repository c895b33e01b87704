import TapeC.Proofs.Expression

/-! Folding of constants and printing them as text. Neither changes where an expression
stands, whether it is constant, or what an evaluation does. -/

namespace TapeC

namespace Program

/-! ### Maps -/

section Maps

variable {ε δ η : Type} {f g : ε → δ}

theorem map_congr_of_indexed {path : List (Selector ε)} (h : ∀ e ∈ indexed path, f e = g e) :
    path.map (Selector.map f) = path.map (Selector.map g) := by
  induction path with
  | nil => rfl
  | cons s path ih =>
    cases s with
    | field name => simp [Selector.map, ih h]
    | index e => simp [Selector.map, h e (by simp [indexed]), ih fun e he => h e (by simp [indexed, he])]

theorem Selector.map_comp_map {h : δ → η} : Selector.map h ∘ Selector.map f = Selector.map (h ∘ f) := by
  funext s
  cases s <;> rfl

mutual
theorem Initializer.map_map {h : δ → η} : (i : Initializer ε) → (i.map f).map h = i.map (h ∘ f)
  | .single _ => rfl
  | .list items p => by rw [Initializer.map, Initializer.map, mapItems_mapItems items, Initializer.map]
  | .text _ _ => rfl

theorem mapItems_mapItems {h : δ → η} :
    (items : List (Initializer ε)) → mapItems h (mapItems f items) = mapItems (h ∘ f) items
  | [] => rfl
  | i :: items => by rw [mapItems, mapItems, Initializer.map_map i, mapItems_mapItems items, mapItems]
end

mutual
theorem Initializer.map_congr : (i : Initializer ε) → (∀ e ∈ i.leaves, f e = g e) → i.map f = i.map g
  | .single e, h => by rw [Initializer.map, h e (List.mem_singleton_self e), Initializer.map]
  | .list items p, h => by rw [Initializer.map, mapItems_congr items h, Initializer.map]
  | .text _ _, _ => rfl

theorem mapItems_congr :
    (items : List (Initializer ε)) → (∀ e ∈ leavesOfItems items, f e = g e) → mapItems f items = mapItems g items
  | [], _ => rfl
  | i :: items, h => by
    rw [mapItems, Initializer.map_congr i fun e he => h e (List.mem_append_left _ he),
      mapItems_congr items fun e he => h e (List.mem_append_right _ he), mapItems]
end

mutual
theorem Initializer.leaves_map : (i : Initializer ε) → (i.map f).leaves = i.leaves.map f
  | .single _ => rfl
  | .list items _ => leavesOfItems_map items
  | .text _ _ => rfl

theorem leavesOfItems_map : (items : List (Initializer ε)) →
    leavesOfItems (mapItems f items) = (leavesOfItems items).map f
  | [] => rfl
  | i :: items => by
    rw [mapItems, leavesOfItems, Initializer.leaves_map i, leavesOfItems_map items, leavesOfItems,
      List.map_append]
end

end Maps

theorem foldPath_eq (path : List (Selector Expr)) : foldPath path = path.map (Selector.map Expr.fold) := by
  induction path with
  | nil => rfl
  | cons s path ih => cases s <;> simp [foldPath, Selector.map, ih]

theorem foldArgs_eq (es : List Expr) : foldArgs es = es.map Expr.fold := by
  induction es with
  | nil => rfl
  | cons e es ih => rw [foldArgs, ih, List.map_cons]

mutual
theorem foldContents_eq : (i : Initializer Expr) → foldContents i = i.map Expr.fold
  | .single _ => rfl
  | .list items p => by rw [foldContents, foldItems_eq items, Initializer.map]
  | .text _ _ => rfl

theorem foldItems_eq : (items : List (Initializer Expr)) → foldItems items = mapItems Expr.fold items
  | [] => rfl
  | i :: items => by rw [foldItems, foldContents_eq i, foldItems_eq items, mapItems]
end

variable {f : Expr → Expr}

theorem mapBody_eq (body : List Statement) : mapBody f body = body.map (·.mapExprs f) := by
  induction body with
  | nil => rfl
  | cons s body ih => rw [mapBody, ih, List.map_cons]

theorem mapBranch_eq (b : Option Statement) : mapBranch f b = b.map (·.mapExprs f) := by
  cases b <;> rfl

theorem printConstantsBranch_eq (b : Option Statement) :
    printConstantsBranch b = b.map Statement.printConstants := by
  cases b <;> rfl

theorem printConstantsIn_eq (body : List Statement) :
    printConstantsIn body = body.map Statement.printConstants := by
  induction body with
  | nil => rfl
  | cons s body ih => rw [printConstantsIn, ih, List.map_cons]

/-! ### Constants and positions -/

theorem Expr.orConstant_constant? (e : Expr) : e.orConstant.constant? = e.constant? := by
  rw [orConstant]
  split
  next v hv =>
    rw [hv, constant?, Lowering.cell_ofInt_natCast, UInt8.ofNat_toNat]
  next => rfl

theorem Expr.orConstant_position (e : Expr) : e.orConstant.position = e.position := by
  rw [orConstant]
  split <;> rfl

/-- Folding does not change constant values. -/
theorem Expr.fold_constant? (e : Expr) : e.fold.constant? = e.constant? := by
  induction e using Expr.induct with
  | number | char | bool | access | update | assign | fill | call => rfl
  | unary op e p ih => rw [fold, orConstant_constant?, constant?, ih, constant?]
  | binary op a b p iha ihb => rw [fold, orConstant_constant?, constant?, iha, ihb, constant?]

theorem Expr.fold_position (e : Expr) : e.fold.position = e.position := by
  cases e with
  | unary | binary => rw [fold, orConstant_position]; rfl
  | _ => rfl

end Program

/-! ### Evaluation -/

namespace Evaluation

open Program

variable {ctx ctx' : Context}

/-- An expression does the same where calls do. -/
theorem expr_congr (h : ∀ name args, call ctx' name args = call ctx name args) (e : Expr) :
    expr ctx' e = expr ctx e := by
  have hindices {path : List (Selector Expr)} (h : ∀ e ∈ indexed path, expr ctx' e = expr ctx e) :
      indices ctx' path = indices ctx path := by
    rw [indices_eq, indices_eq]
    exact map_congr_of_indexed fun e he => by rw [h e he]
  induction e using Expr.induct with
  | number | char | bool => rfl
  | access name path p ih => rw [expr, hindices ih, expr]
  | binary op a b p iha ihb => rw [expr, iha, ihb, expr]
  | unary op e p ih => rw [expr, ih, expr]
  | update op before target p _ ih =>
    cases target with
    | access name path p => rw [expr, hindices ih, expr]
    | _ => rfl
  | assign target op value p iht ih ihv =>
    cases target with
    | access name path p => cases op <;> simp only [expr, hindices ih, ihv]
    | _ => cases op <;> rfl
  | fill target contents p _ ih ihc =>
    cases target with
    | access name path p =>
      rw [expr, hindices ih, leaves_eq, Initializer.map_congr contents ihc, ← leaves_eq, expr]
    | _ => rfl
  | call name args p ih => rw [expr, exprs_eq, List.map_congr_left ih, ← exprs_eq, h, expr]

theorem expr_orConstant (e : Expr) : expr ctx e.orConstant = expr ctx e := by
  rw [Expr.orConstant]
  split
  next v hv =>
    rw [expr_of_constant hv, expr, Lowering.cell_ofInt_natCast, UInt8.ofNat_toNat]
  next => rfl

/-- Folding does not change what an expression does. -/
theorem expr_fold (e : Expr) : expr ctx e.fold = expr ctx e := by
  have hindices {path : List (Selector Expr)} (h : ∀ e ∈ indexed path, expr ctx e.fold = expr ctx e) :
      indices ctx (foldPath path) = indices ctx path := by
    rw [foldPath_eq, indices_eq, indices_eq, List.map_map, Selector.map_comp_map]
    refine map_congr_of_indexed fun e he => ?_
    rw [Function.comp_apply, h e he, e.fold_constant?, e.fold_position]
  induction e using Expr.induct with
  | number | char | bool => rfl
  | access name path p ih => rw [Expr.fold, expr, hindices ih, expr]
  | binary op a b p iha ihb => rw [Expr.fold, expr_orConstant, expr, iha, ihb, expr]
  | unary op e p ih => rw [Expr.fold, expr_orConstant, expr, ih, expr]
  | update op before target p _ ih =>
    cases target with
    | access name path p => rw [Expr.fold, Expr.fold, expr, hindices ih, expr]
    | unary | binary =>
      rw [Expr.fold, Expr.fold, Expr.orConstant]
      split <;> rfl
    | _ => rfl
  | assign target op value p iht ih ihv =>
    cases target with
    | access name path p => cases op <;> simp only [Expr.fold, expr, hindices ih, ihv]
    | unary | binary =>
      rw [Expr.fold, Expr.fold, Expr.orConstant]
      split <;> cases op <;> rfl
    | _ => cases op <;> rfl
  | fill target contents p _ ih ihc =>
    cases target with
    | access name path p =>
      have hleaves : leaves ctx (foldContents contents) = leaves ctx contents := by
        rw [foldContents_eq, leaves_eq, leaves_eq, Initializer.map_map]
        exact Initializer.map_congr contents ihc
      rw [Expr.fold, Expr.fold, expr, hindices ih, hleaves, expr]
    | unary | binary =>
      rw [Expr.fold, Expr.fold, Expr.orConstant]
      split <;> rfl
    | _ => rfl
  | call name args p ih =>
    have hargs : exprs ctx (foldArgs args) = exprs ctx args := by
      rw [foldArgs_eq, exprs_eq, exprs_eq, List.map_map]
      exact List.map_congr_left ih
    rw [Expr.fold, expr, hargs, expr]

end Evaluation
end TapeC
