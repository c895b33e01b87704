import TapeC.Lowering.Tree
import TapeC.Program.Folding
import TapeC.Proofs.Evaluation

/-! Induction over the trees of expressions and statements, whose parts are in lists. A
function that goes through such a list is a map over it. -/

namespace TapeC.Program

variable {ε δ : Type}

/-! ### Expressions -/

def Selector.map (f : ε → δ) : Selector ε → Selector δ
  | .index e => .index (f e)
  | .field name => .field name

theorem Selector.map_id : Selector.map id = (id : Selector ε → Selector ε) := by
  funext s
  cases s <;> rfl

/-- The expressions of the indices of a path. -/
def indexed : List (Selector ε) → List ε
  | [] => []
  | .index e :: rest => e :: indexed rest
  | .field _ :: rest => indexed rest

theorem indexed_map {f : ε → δ} (path : List (Selector ε)) :
    indexed (path.map (Selector.map f)) = (indexed path).map f := by
  induction path with
  | nil => rfl
  | cons s path ih =>
    cases s with
    | index e => exact congrArg (f e :: ·) ih
    | field name => exact ih

theorem indexed_append (path more : List (Selector ε)) : indexed (path ++ more) = indexed path ++ indexed more := by
  induction path with
  | nil => rfl
  | cons s path ih =>
    cases s with
    | index e => exact congrArg (e :: ·) ih
    | field name => exact ih

/-- The expressions that an expression is made of. -/
def Expr.parts : Expr → List Expr
  | .number _ _ | .char _ _ | .bool _ _ => []
  | .access _ path _ => indexed path
  | .binary _ a b _ => [a, b]
  | .unary _ e _ => [e]
  | .update _ _ target _ => [target]
  | .assign target _ value _ => [target, value]
  | .fill target contents _ => target :: contents.leaves
  | .call _ args _ => args

/-- Induction on an expression. Of a target, which may be a path, the parts are
available too. -/
@[elab_as_elim]
theorem Expr.induct {motive : Expr → Prop} (number : ∀ n p, motive (.number n p))
    (char : ∀ c p, motive (.char c p)) (bool : ∀ b p, motive (.bool b p))
    (access : ∀ name path p, (∀ e ∈ indexed path, motive e) → motive (.access name path p))
    (binary : ∀ op a b p, motive a → motive b → motive (.binary op a b p))
    (unary : ∀ op e p, motive e → motive (.unary op e p))
    (update : ∀ op before target p, motive target → (∀ e ∈ target.parts, motive e) →
      motive (.update op before target p))
    (assign : ∀ target op value p, motive target → (∀ e ∈ target.parts, motive e) → motive value →
      motive (.assign target op value p))
    (fill : ∀ target contents p, motive target → (∀ e ∈ target.parts, motive e) →
      (∀ e ∈ contents.leaves, motive e) → motive (.fill target contents p))
    (call : ∀ name args p, (∀ e ∈ args, motive e) → motive (.call name args p)) (e : Expr) :
    motive e := by
  let both (e : Expr) : Prop := motive e ∧ ∀ e' ∈ e.parts, motive e'
  suffices h : both e from h.1
  refine @Expr.rec both (fun path => ∀ e ∈ indexed path, motive e) (fun i => ∀ e ∈ i.leaves, motive e)
    (fun args => ∀ e ∈ args, motive e) (fun s => ∀ e ∈ indexed [s], motive e)
    (fun items => ∀ e ∈ leavesOfItems items, motive e) ?_ ?_ ?_ ?_ ?_ ?_ ?_ ?_ ?_ ?_ ?_ ?_ ?_ ?_ ?_ ?_ ?_
    ?_ ?_ ?_ ?_ e
  · exact fun n p => ⟨number n p, by simp [parts]⟩
  · exact fun c p => ⟨char c p, by simp [parts]⟩
  · exact fun b p => ⟨bool b p, by simp [parts]⟩
  · exact fun name path p h => ⟨access name path p h, h⟩
  · exact fun op a b p ha hb => ⟨binary op a b p ha.1 hb.1, by simp [parts, ha.1, hb.1]⟩
  · exact fun op e p h => ⟨unary op e p h.1, by simp [parts, h.1]⟩
  · exact fun op before target p h => ⟨update op before target p h.1 h.2, by simp [parts, h.1]⟩
  · exact fun target op value p ht hv =>
      ⟨assign target op value p ht.1 ht.2 hv.1, by simp [parts, ht.1, hv.1]⟩
  · exact fun target contents p ht hc =>
      ⟨fill target contents p ht.1 ht.2 hc, by simpa [parts, ht.1] using hc⟩
  · exact fun name args p h => ⟨call name args p h, h⟩
  · simp [indexed]
  · intro s rest hs hrest
    cases s with
    | index e => simpa [indexed, show motive e from hs e (by simp [indexed])] using hrest
    | field name => exact hrest
  · exact fun e h => by simp [Initializer.leaves, h.1]
  · exact fun items p h => h
  · simp [Initializer.leaves]
  · simp
  · exact fun e rest h hrest => by simpa [h.1] using hrest
  · exact fun e h => by simp [indexed, h.1]
  · simp [indexed]
  · simp [leavesOfItems]
  · intro i rest hi hrest e he
    exact (List.mem_append.1 he).elim (hi e) (hrest e)

/-! ### Statements -/

/-- The statements that a statement is made of. -/
def Statement.parts : Statement → List Statement
  | .block body _ => body
  | .ifElse _ a b _ => a :: b.toList
  | .whileLoop _ body _ | .doLoop body _ _ => [body]
  | .forLoop init _ _ body _ => body :: init.toList
  | .switch _ cases _ => cases.flatMap fun c => c.body ++ c.unreachable
  | _ => []

@[elab_as_elim]
theorem Statement.induct {motive : Statement → Prop}
    (step : ∀ s, (∀ s' ∈ s.parts, motive s') → motive s) (s : Statement) : motive s := by
  refine @Statement.rec motive (fun body => ∀ s ∈ body, motive s) (fun b => ∀ s ∈ b.toList, motive s)
    (fun cases => ∀ s ∈ cases.flatMap fun c => c.body ++ c.unreachable, motive s)
    (fun c => ∀ s ∈ c.body ++ c.unreachable, motive s) ?_ ?_ ?_ ?_ ?_ ?_ ?_ ?_ ?_ ?_ ?_ ?_ ?_ ?_ ?_ ?_ ?_
    ?_ ?_ ?_ s
  · exact fun d => step _ (by simp [parts])
  · exact fun e => step _ (by simp [parts])
  · exact fun text p => step _ (by simp [parts])
  · exact fun body p h => step _ h
  · exact fun c a b p ha hb => step _ (by simpa [parts, ha] using hb)
  · exact fun c body p h => step _ (by simpa [parts] using h)
  · exact fun body c p h => step _ (by simpa [parts] using h)
  · exact fun init c s body p hi hb => step _ (by simpa [parts, hb] using hi)
  · exact fun value cases p h => step _ h
  · exact fun value p => step _ (by simp [parts])
  · exact fun p => step _ (by simp [parts])
  · exact fun p => step _ (by simp [parts])
  · exact step _ (by simp [parts])
  · simp
  · exact fun s rest h hrest => by simpa [h] using hrest
  · simp
  · exact fun s h => by simpa using h
  · simp
  · intro c rest hc hrest s hs
    rw [List.flatMap_cons] at hs
    exact (List.mem_append.1 hs).elim (hc s) (hrest s)
  · intro label body hasBreak unreachable p hb hu s hs
    exact (List.mem_append.1 hs).elim (hb s) (hu s)

end Program

/-! ### Maps -/

namespace Lowering

open Program Layout

variable {act : Activation} {scopes : Scopes}

theorem indices_eq (path : List (Selector Expr)) :
    indices act scopes path = path.map (Selector.map fun e => ⟨e.constant?, e.position, expr act scopes e⟩) := by
  induction path with
  | nil => rfl
  | cons s path ih => cases s <;> simp [indices, Selector.map, ih]

/-- An assignment with an operator computes the new value from the old one. -/
theorem expr_assign_op {name : String} {path : List (Selector Expr)} {q p : Position} {op : BinaryOp} {value : Expr} :
    expr act scopes (.assign (.access name path q) (some op) value p) =
      assign scopes name (indices act scopes path) q (binary op value.constant? p
        (expr act scopes (.access name path q)) (expr act scopes value)) := rfl

theorem indexed_indices (path : List (Selector Expr)) :
    indexed (indices act scopes path) = (indexed path).map fun e => ⟨e.constant?, e.position, expr act scopes e⟩ := by
  rw [indices_eq, indexed_map]

theorem exprs_eq (es : List Expr) : exprs act scopes es = es.map (expr act scopes) := by
  induction es with
  | nil => rfl
  | cons e es ih => rw [exprs, ih, List.map_cons]

mutual
theorem leaves_eq : (i : Initializer Expr) →
    leaves act scopes i = i.map fun e => ⟨e.position, expr act scopes e⟩
  | .single e => rfl
  | .list items p => by rw [leaves, leavesOfItems_eq items, Initializer.map]
  | .text s p => rfl

theorem leavesOfItems_eq : (items : List (Initializer Expr)) →
    leavesOfItems act scopes items = mapItems (fun e => ⟨e.position, expr act scopes e⟩) items
  | [] => rfl
  | i :: items => by rw [leavesOfItems, leaves_eq i, leavesOfItems_eq items, mapItems]
end

end Lowering

namespace Evaluation

open Program

variable {ctx : Context}

theorem indices_eq (path : List (Selector Expr)) :
    indices ctx path = path.map (Selector.map fun e => ⟨e.constant?, e.position, expr ctx e⟩) := by
  induction path with
  | nil => rfl
  | cons s path ih => cases s <;> simp [indices, Selector.map, ih]

theorem exprs_eq (es : List Expr) : exprs ctx es = es.map (expr ctx) := by
  induction es with
  | nil => rfl
  | cons e es ih => rw [exprs, ih, List.map_cons]

mutual
theorem leaves_eq : (i : Initializer Expr) → leaves ctx i = i.map (expr ctx)
  | .single e => rfl
  | .list items p => by rw [leaves, leavesOfItems_eq items, Initializer.map]
  | .text s p => rfl

theorem leavesOfItems_eq : (items : List (Initializer Expr)) →
    leavesOfItems ctx items = mapItems (expr ctx) items
  | [] => rfl
  | i :: items => by rw [leavesOfItems, leaves_eq i, leavesOfItems_eq items, mapItems]
end

end Evaluation
end TapeC
