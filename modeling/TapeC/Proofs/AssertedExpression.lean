import TapeC.Proofs.Assertion
import TapeC.Proofs.Effect
import TapeC.Proofs.Solid

/-! Expressions whose lowering passes its assertions. At each cell from the first free one on,
lowering with assertions yields what lowering without them does: a place that is selected lies
left of the first free cell, and the parts of an expression are lowered right of where it is. A walk
leads on from a place in its variable unless an array has length zero. -/

namespace TapeC.Lowering

open Layout Program Tape Routine Code

variable {A : Assertions} {act : Activation} {scopes scopes' : Scopes} {o p : Nat}

theorem bind_congr_of_lowers {α β : Type} {x : Lower α} {f g : α → Lower β} (h : ∀ a, Lowers x a → f a = g a) :
    x >>= f = x >>= g := by
  refine StateT.ext fun w => ?_
  rw [StateT.run_bind, StateT.run_bind]
  cases hx : x.run w with
  | error fault => rfl
  | ok r => exact congrArg (·.run r.2) (h r.1 ⟨w, r.2, hx⟩)

/-- The same test on both sides, which refuses. -/
theorem guard_congr {α : Type} {c : Prop} [Decidable c] {r : Lower PUnit} {f g : PUnit → Lower α}
    (h : ¬ c → f ⟨⟩ = g ⟨⟩) (hr : ∀ u, ¬ Lowers r u) :
    (if c then r >>= f else f ⟨⟩) = if c then r >>= g else g ⟨⟩ := by
  split
  · exact bind_congr_of_lowers fun u hu => absurd hu (hr u)
  next hc => exact h hc

/-! ### Tests -/

namespace Assertions

variable {a : Assertion}

theorem check_of {holds : Prop} [Decidable holds] (h : holds) : A.check a holds = pure () := by
  rw [check]
  split
  · exact if_pos h
  · rfl

theorem check_of_none {holds : Prop} [Decidable holds] (h : A a = none) : A.check a holds = pure () := by
  rw [check, h]

theorem distance_of {cell : Nat} (h : cell ≤ p) : A.distance a p cell = pure (p - cell) := by
  rw [distance, check_of h, pure_bind]

theorem walkDistance_of {base : Nat} (h : A.Walks → base ≤ p) : A.walkDistance p base = pure (p + 2 - base) := by
  by_cases hwalks : A.Walks
  · have hle := h hwalks
    rw [walkDistance, check_of hle, pure_bind, distance_of (by omega)]
  · obtain ⟨hwalk, hwalked⟩ := not_or.1 hwalks
    rw [walkDistance, check_of_none (not_not.1 hwalk), pure_bind, distance, check_of_none (not_not.1 hwalked),
      pure_bind]

end Assertions

/-! ### Scopes -/

/-- What is visible in a function takes cells left of the first free one, and no array there has
length zero if walks are tested. -/
structure Safe (A : Assertions) (act : Activation) (scopes : Scopes) : Prop extends Settled act scopes where
  solid : A.Walks → act.definitions.Solid
  shapes : A.Walks → ∀ name v, scopes.find? name = some v → v.shape.Solid

namespace Safe

theorem enter (h : Safe A act scopes) : Safe A act scopes.enter := ⟨h.toSettled.enter, h.solid, h.shapes⟩

theorem reserve (h : Safe A act scopes) (n : Nat) : Safe A act (scopes.reserve n) :=
  ⟨h.toSettled.reserve n, h.solid, h.shapes⟩

theorem declare {name : String} {shape : Shape} {position : Position} {v : Variable} (h : Safe A act scopes)
    (hsound : shape.type.Sound) (hsolid : A.Walks → shape.Solid)
    (hv : scopes.declare name shape position = .ok (v, scopes')) : Safe A act scopes' := by
  refine ⟨(h.toSettled.declare hsound hv).1, h.solid, fun hw other u hu => ?_⟩
  rw [find?_declare hv] at hu
  split at hu
  · cases hu
    rw [Scopes.declare] at hv
    split at hv
    · cases hv
    · cases hv
      exact hsolid hw
  · exact h.shapes hw other u hu

/-- Of a function it does not matter how calls are expanded. -/
theorem calling (h : Safe A act scopes) (inline : FunctionDef → Position → CodeAt) :
    Safe A { act with inline } scopes :=
  ⟨⟨h.below, h.types, h.start, h.returned, h.prepared⟩, h.solid, h.shapes⟩

theorem arrive (h : Safe A act scopes) (hp : scopes.offset ≤ p) (code : CodeAt) :
    A.arrive act scopes code p = code p := by
  have hreturned := Nat.lt_of_lt_of_le h.returned hp
  have hbelow : ∀ v ∈ scopes.visible, v.stop ≤ scopes.offset := fun v hv => by
    obtain ⟨name, hv⟩ := Scopes.mem_visible.1 hv
    exact h.below name v hv
  rw [Assertions.arrive, Assertions.check_of ⟨hp, hreturned, hbelow⟩, pure_bind]

end Safe

/-! ### Operators -/

/-- The same code from cell `o` on. -/
def AgreeFrom (o : Nat) (a b : CodeAt) : Prop := ∀ p, o ≤ p → a p = b p

namespace AgreeFrom

variable {a a' b b' : CodeAt}

theorem refl : AgreeFrom o a a := fun _ _ => rfl

theorem arrive (hs : Safe A act scopes) (h : AgreeFrom scopes.offset a a') :
    AgreeFrom scopes.offset (A.arrive act scopes a) a' :=
  fun p hp => (hs.arrive hp a).trans (h p hp)

theorem onPair {c : Code} (ha : AgreeFrom o a a') (hb : AgreeFrom o b b') :
    AgreeFrom o (onPair c a b) (onPair c a' b') := by
  intro p hp
  rw [Lowering.onPair, Lowering.onPair, ha p hp, hb (p + 1) (by omega)]

theorem onDivisor {operation : Bool → Code} {divisor : Option Cell} {position : Position} (ha : AgreeFrom o a a')
    (hb : AgreeFrom o b b') :
    AgreeFrom o (onDivisor operation divisor position a b) (onDivisor operation divisor position a' b') := by
  intro p hp
  rw [Lowering.onDivisor, Lowering.onDivisor, ha.onPair hb p hp]

theorem binary {op : BinaryOp} {divisor : Option Cell} {position : Position} (ha : AgreeFrom o a a')
    (hb : AgreeFrom o b b') : AgreeFrom o (binary op divisor position a b) (binary op divisor position a' b') := by
  have hlogic {f : Code → Code → Code} {k : Nat} :
      AgreeFrom o (fun p => do return f (← a p) (← b (p + k))) fun p => do return f (← a' p) (← b' (p + k)) := by
    intro p hp
    simp only [ha p hp, hb (p + k) (by omega)]
  cases op with
  | and | or => exact hlogic
  | divide | modulo => exact onDivisor ha hb
  | _ => exact onPair ha hb

theorem unary {op : UnaryOp} (ha : AgreeFrom o a a') : AgreeFrom o (unary op a) (unary op a') := by
  cases op with
  | negate => exact onPair refl ha
  | not | complement =>
    intro p hp
    simp only [Lowering.unary, ha p hp]

end AgreeFrom

/-! ### Places -/

section Places

variable {ι : Type} {X : List (Selector (Index ι))} {f g : ι → CodeAt} {name : String} {position : Position}
  {value value' : CodeAt} {q : Place ι}

/-- A place whose indices are not lowered yet. -/
def placeOf (scopes : Scopes) (name : String) (X : List (Selector (Index ι))) (position : Position) :
    Lower (Place ι) := do
  let v ← scopes.lookup name position
  let q ← Place.ofPath v position X
  if !q.terms.isEmpty && walkReach < v.size then warn position (.longWalk name v.size)
  return q

theorem place_map : place scopes name (X.map (Selector.map (Index.map f))) position =
    Place.map f <$> placeOf scopes name X position := by
  rw [place, placeOf, map_bind]
  congr 1
  funext v
  rw [Place.ofPath_map, map_bind]
  cases Place.ofPath v position X with
  | error fault => rfl
  | ok q =>
    have hempty : (q.map f).terms.isEmpty = q.terms.isEmpty := List.isEmpty_map
    change (do
      if !(q.map f).terms.isEmpty && walkReach < v.size then warn position (.longWalk name v.size)
      return q.map f : Lower (Place CodeAt)) = Place.map f <$> (do
        if !q.terms.isEmpty && walkReach < v.size then warn position (.longWalk name v.size)
        return q : Lower (Place ι))
    rw [hempty]
    split <;> simp

theorem Lowers.placeOf (h : Lowers (placeOf scopes name X position) q) :
    ∃ v, scopes.find? name = some v ∧ Place.ofPath v position X = .ok q := by
  obtain ⟨v, hv, h⟩ := h.bind
  obtain ⟨q', hq, h⟩ := h.bind
  cases lowers_pure.1 h.of_warning
  have hv := lowers_lift.1 hv
  rw [Scopes.lookup] at hv
  split at hv
  next u hu => cases hv; exact ⟨_, hu, lowers_lift.1 hq⟩
  next => cases hv

/-- A place lies left of the first free cell, but for its terms if there are arrays of length zero. -/
theorem Safe.place_le (hs : Safe A act scopes) (h : Lowers (placeOf scopes name X position) q)
    (hterms : q.terms = [] ∨ A.Walks) : q.base + q.shape.size ≤ scopes.offset := by
  obtain ⟨v, hv, hq⟩ := h.placeOf
  have hinside := Place.ofPath_inside hq (hterms.imp_right fun hw => hs.shapes hw name v hv) (hs.types name v hv)
  exact Nat.le_trans hinside (hs.below name v hv)

theorem term_asserted (hs : Safe A act scopes) {t : Term ι} (h : AgreeFrom scopes.offset (f t.code) (g t.code)) :
    AgreeFrom scopes.offset (Asserted.term A act scopes (t.map f)) (term (t.map g)) := by
  have hstride (k : ι → CodeAt) : (t.map k).stride = t.stride := rfl
  rw [Asserted.term, term, hstride, hstride]
  split
  · exact h
  · exact .arrive hs (.onPair h (.arrive hs .refl))

theorem sum_asserted (hs : Safe A act scopes) {a a' : CodeAt} {ts : List (Term ι)}
    (ha : AgreeFrom scopes.offset a a') (h : ∀ t ∈ ts, AgreeFrom scopes.offset (f t.code) (g t.code)) :
    AgreeFrom scopes.offset (Asserted.sum A act scopes a (ts.map (Term.map f))) (sum a' (ts.map (Term.map g))) := by
  induction ts generalizing a a' with
  | nil => exact ha
  | cons t ts ih =>
    obtain ⟨ht, hts⟩ := List.forall_mem_cons.1 h
    exact ih (.arrive hs (.onPair ha (term_asserted hs ht))) hts

/-- The indices of a place that are known at run time only. -/
theorem terms_asserted (hs : Safe A act scopes) {t : Term ι} {ts : List (Term ι)}
    (h : ∀ u ∈ t :: ts, AgreeFrom scopes.offset (f u.code) (g u.code)) :
    AgreeFrom scopes.offset (Asserted.sum A act scopes (Asserted.term A act scopes (t.map f)) (ts.map (Term.map f)))
      (sum (term (t.map g)) (ts.map (Term.map g))) :=
  sum_asserted hs (term_asserted hs (h t List.mem_cons_self)) fun u hu => h u (List.mem_cons_of_mem _ hu)

theorem agree_terms (hX : ∀ i ∈ indexed X, AgreeFrom o (f i.code) (g i.code))
    (h : Lowers (placeOf scopes name X position) q) : ∀ t ∈ q.terms, AgreeFrom o (f t.code) (g t.code) := by
  obtain ⟨v, -, hq⟩ := h.placeOf
  intro t ht
  obtain ⟨i, hi, hcode⟩ := Place.code_of_mem_terms hq ht
  exact hcode ▸ hX i hi

theorem onPlace_asserted (hs : Safe A act scopes)
    (hX : ∀ i ∈ indexed X, AgreeFrom scopes.offset (f i.code) (g i.code))
    (h : Lowers (placeOf scopes name X position) q) {work : Nat → Code} :
    AgreeFrom scopes.offset (Asserted.onPlace A act scopes (q.map f) work) (onPlace (q.map g) work) := by
  intro p hp
  have hle := hs.place_le h
  have hterms := agree_terms hX h
  obtain ⟨base, terms, shape, stop⟩ := q
  simp only at hle
  cases terms with
  | nil =>
    have hbase := hle (.inl rfl)
    change (do return work (← A.distance .place p base)) = pure (work (p - base))
    rw [Assertions.distance_of (by omega), pure_bind]
  | cons t ts =>
    change (do
      let index ← Asserted.sum A act scopes (Asserted.term A act scopes (t.map f)) (ts.map (Term.map f)) p
      let d ← A.walkDistance p base
      return index ++ Code.within (stop - base) ++ walkRight ++ work d ++ left 1 ++ bringBack) = _
    rw [terms_asserted hs hterms p hp, Assertions.walkDistance_of fun hw => by have := hle (.inr hw); omega]
    rfl

theorem read_asserted (hs : Safe A act scopes)
    (hX : ∀ i ∈ indexed X, AgreeFrom scopes.offset (f i.code) (g i.code)) :
    AgreeFrom scopes.offset (Asserted.read A act scopes name (X.map (Selector.map (Index.map f))) position)
      (read scopes name (X.map (Selector.map (Index.map g))) position) := by
  intro p hp
  rw [Asserted.read, read, place_map, place_map, bind_map_left, bind_map_left]
  refine bind_congr_of_lowers fun q hq => ?_
  rw [onPlace_asserted hs hX hq p hp]
  rfl

theorem update_asserted {op : UpdateOp} {before : Bool} (hs : Safe A act scopes)
    (hX : ∀ i ∈ indexed X, AgreeFrom scopes.offset (f i.code) (g i.code)) :
    AgreeFrom scopes.offset (Asserted.update A act scopes name (X.map (Selector.map (Index.map f))) position op before)
      (update scopes name (X.map (Selector.map (Index.map g))) position op before) := by
  intro p hp
  rw [Asserted.update, update, place_map, place_map, bind_map_left, bind_map_left]
  refine bind_congr_of_lowers fun q hq => ?_
  rw [onPlace_asserted hs hX hq p hp]
  rfl

theorem assign_asserted (hs : Safe A act scopes)
    (hX : ∀ i ∈ indexed X, AgreeFrom scopes.offset (f i.code) (g i.code))
    (hvalue : AgreeFrom scopes.offset value value') :
    AgreeFrom scopes.offset (Asserted.assign A act scopes name (X.map (Selector.map (Index.map f))) position value)
      (assign scopes name (X.map (Selector.map (Index.map g))) position value') := by
  intro p hp
  rw [Asserted.assign, assign, place_map, place_map, bind_map_left, bind_map_left]
  refine bind_congr_of_lowers fun q hq => ?_
  have hle := hs.place_le hq
  have hterms := agree_terms hX hq
  obtain ⟨base, terms, shape, stop⟩ := q
  simp only at hle
  cases terms with
  | nil =>
    have hbase := hle (.inl rfl)
    simp only [Place.map, List.map_nil, hvalue p hp, Assertions.distance_of (show base ≤ p by omega), pure_bind]
  | cons t ts =>
    have hwalk : A.walkDistance p base = pure (p + 2 - base) :=
      Assertions.walkDistance_of fun hw => by have := hle (.inr hw); omega
    simp only [Place.map, List.map_cons, terms_asserted hs hterms p hp, hvalue (p + 2) (by omega), hwalk, pure_bind]

/-! ### Contents -/

variable {F G : ι → Leaf}

theorem content_asserted {c : Content ι} (h : ∀ e, c = .value e → AgreeFrom o (F e).code (G e).code) :
    AgreeFrom o (Content.code (c.map F)) (Content.code (c.map G)) := by
  cases c with
  | byte v => exact .refl
  | value e => exact h e rfl

theorem store_asserted {cs : List (Content ι)} {base : Nat}
    (h : ∀ e, .value e ∈ cs → AgreeFrom o (F e).code (G e).code) (hp : o ≤ p) (hbase : base + cs.length ≤ o) :
    Asserted.store A base p (cs.map (Content.map F)) = store base p (cs.map (Content.map G)) := by
  induction cs generalizing base with
  | nil => rfl
  | cons c cs ih =>
    rw [List.length_cons] at hbase
    have hc := content_asserted fun e he => h e (he ▸ List.mem_cons_self)
    have hcs : Asserted.store A (base + 1) p (cs.map (Content.map F)) = store (base + 1) p (cs.map (Content.map G)) :=
      ih (fun e he => h e (List.mem_cons_of_mem _ he)) (by omega)
    rw [List.map_cons, List.map_cons, Asserted.store, store, hc p hp, Assertions.distance_of (by omega), hcs]
    simp only [pure_bind]

theorem fill_asserted {i : Initializer ι} (hs : Safe A act scopes)
    (hposition : ∀ e, (F e).position = (G e).position)
    (hi : ∀ e ∈ i.leaves, AgreeFrom scopes.offset (F e).code (G e).code) :
    AgreeFrom scopes.offset (Asserted.fill A scopes name (X.map (Selector.map (Index.map f))) position (i.map F))
      (fill scopes name (X.map (Selector.map (Index.map g))) position (i.map G)) := by
  intro p hp
  have hF : Leaf.position ∘ F = Leaf.position ∘ G := funext hposition
  rw [Asserted.fill, fill, place_map, place_map, bind_map_left, bind_map_left]
  refine bind_congr_of_lowers fun q hq => ?_
  have hshape (k : ι → CodeAt) : (q.map k).shape = q.shape := rfl
  have hempty (k : ι → CodeAt) : (q.map k).terms.isEmpty = q.terms.isEmpty := List.isEmpty_map
  rw [hempty, hempty, hshape, hshape, layOutContents_map, layOutContents_map, hF]
  refine guard_congr (fun hterms => ?_) fun _ => not_lowers_fail
  have hle := hs.place_le hq (.inl (by simpa using hterms))
  cases hcells : layOutContents (Leaf.position ∘ G) name position q.shape i with
  | error fault => rfl
  | ok cells =>
    have hlength := length_layOutContents hcells
    have hstore : Asserted.store A q.base p (cells.map (Content.map F)) = store q.base p (cells.map (Content.map G)) :=
      store_asserted (fun e he => hi e (mem_layOutContents hcells he)) hp (by omega)
    have hall : (cells.map (Content.map F)).length = q.shape.size := by rw [List.length_map, hlength]
    change (do
      A.check .laidOut ((cells.map (Content.map F)).length = q.shape.size)
      return (← Asserted.store A q.base p (cells.map (Content.map F))) ++ clear ++ right 1) = (do
        return (← store q.base p (cells.map (Content.map G))) ++ clear ++ right 1)
    rw [Assertions.check_of hall, pure_bind, hstore]

end Places

/-! ### Calls -/

section Calls

variable {inline : FunctionDef → Position → CodeAt} {f g : Expr → CodeAt} {es : List Expr} {name : String}
  {position : Position}

theorem arguments_asserted (h : ∀ e ∈ es, AgreeFrom o (f e) (g e)) (hp : o ≤ p) :
    arguments p (es.map f) = arguments p (es.map g) := by
  induction es generalizing p with
  | nil => rfl
  | cons e es ih =>
    obtain ⟨he, hes⟩ := List.forall_mem_cons.1 h
    rw [List.map_cons, List.map_cons, arguments, arguments, he p hp, ih hes (by omega)]

/-- Functions have the same code wherever all global variables are left of it. -/
def SameCalls (act : Activation) (inline : FunctionDef → Position → CodeAt) : Prop :=
  ∀ d ∈ act.definitions.functions, ∀ position p, Prepared act.definitions p →
    inline d position p = act.inline d position p

theorem mem_functions_of_callable? {definitions : Definitions} {d : FunctionDef}
    (h : definitions.callable? name = some (.defined d)) : d ∈ definitions.functions := by
  rw [Definitions.callable?] at h
  split at h
  · cases h
  · obtain ⟨_, hd, h⟩ := Option.map_eq_some_iff.1 h
    cases h
    exact List.mem_of_find?_eq_some hd

theorem call_asserted (hcalls : SameCalls act inline) (hprepared : Prepared act.definitions o)
    (h : ∀ e ∈ es, AgreeFrom o (f e) (g e)) :
    AgreeFrom o (call { act with inline } name (es.map f) position) (call act name (es.map g) position) := by
  intro p hp
  rw [call, call, List.length_map, List.length_map, arguments_asserted h (by omega)]
  cases hcallable : act.definitions.callable? name with
  | none => rfl
  | some callable =>
    refine guard_congr (fun _ => bind_congr_of_lowers fun args _ => ?_) fun _ => not_lowers_fail
    cases callable with
    | builtin b => rfl
    | defined d =>
      change (do return clear ++ right 1 ++ args ++ left (es.length + 1) ++ (← inline d position p) ++ right 1) =
        (do return clear ++ right 1 ++ args ++ left (es.length + 1) ++ (← act.inline d position p) ++ right 1)
      rw [hcalls d (mem_functions_of_callable? hcallable) position p (hprepared.mono hp)]

end Calls

/-! ### Trees -/

namespace Asserted

variable (A act scopes)

theorem indices_eq (path : List (Selector Expr)) :
    indices A act scopes path = (indexing path).map (Selector.map (Index.map (expr A act scopes))) := by
  induction path with
  | nil => rfl
  | cons s path ih => cases s <;> simp [indices, indexing, Selector.map, Index.map, ih]

theorem exprs_eq (es : List Expr) : exprs A act scopes es = es.map (expr A act scopes) := by
  induction es with
  | nil => rfl
  | cons e es ih => rw [exprs, ih, List.map_cons]

mutual
theorem leaves_eq : (i : Initializer Expr) →
    leaves A act scopes i = i.map fun e => ⟨e.position, expr A act scopes e⟩
  | .single e => rfl
  | .list items p => by rw [leaves, leavesOfItems_eq items, Initializer.map]
  | .text s p => rfl

theorem leavesOfItems_eq : (items : List (Initializer Expr)) →
    leavesOfItems A act scopes items = mapItems (fun e => ⟨e.position, expr A act scopes e⟩) items
  | [] => rfl
  | i :: items => by rw [leavesOfItems, leaves_eq i, leavesOfItems_eq items, mapItems]
end

end Asserted

/-- Wherever an expression is lowered from the first free cell on, all assertions hold. -/
theorem expr_asserted {inline : FunctionDef → Position → CodeAt} (hs : Safe A act scopes)
    (hcalls : SameCalls act inline) (e : Expr) :
    AgreeFrom scopes.offset (Asserted.expr A { act with inline } scopes e) (expr act scopes e) := by
  have hs' : Safe A { act with inline } scopes := hs.calling inline
  have hpath {path : List (Selector Expr)} (ih : ∀ t ∈ indexed path,
      AgreeFrom scopes.offset (Asserted.expr A { act with inline } scopes t) (expr act scopes t)) :
      ∀ i ∈ indexed (indexing path),
        AgreeFrom scopes.offset (Asserted.expr A { act with inline } scopes i.code) (expr act scopes i.code) :=
    fun i hi => ih i.code (mem_indexed_indexing hi)
  induction e using Expr.induct with
  | number | char | bool => exact .arrive hs' .refl
  | access name path position ih =>
    rw [Asserted.expr, expr, Asserted.indices_eq, indices_indexing_id]
    exact .arrive hs' (read_asserted hs' (hpath ih))
  | binary op a b position iha ihb => exact .arrive hs' (.binary iha ihb)
  | unary op e position ih => exact .arrive hs' (.unary ih)
  | update op before target position _ ih =>
    cases target with
    | access name path start =>
      rw [Asserted.expr, expr, Asserted.indices_eq, indices_indexing_id]
      exact .arrive hs' (update_asserted hs' (hpath ih))
    | _ => exact .arrive hs' .refl
  | assign target op value position iht ih ihv =>
    cases target with
    | access name path start =>
      cases op with
      | none =>
        rw [Asserted.expr, expr, Asserted.indices_eq, indices_indexing_id]
        exact .arrive hs' (assign_asserted hs' (hpath ih) ihv)
      | some op =>
        have hcombined : AgreeFrom scopes.offset
            (A.arrive { act with inline } scopes (binary op value.constant? position
              (Asserted.expr A { act with inline } scopes (.access name path start))
              (Asserted.expr A { act with inline } scopes value)))
            (binary op value.constant? position (expr act scopes (.access name path start)) (expr act scopes value)) :=
          .arrive hs' (.binary iht ihv)
        rw [expr_assign_op, Asserted.expr, Asserted.indices_eq, indices_indexing_id]
        exact .arrive hs' (assign_asserted hs' (hpath ih) hcombined)
    | _ => cases op <;> exact .arrive hs' .refl
  | fill target contents position _ _ ihc =>
    cases target with
    | access name path start =>
      rw [Asserted.expr, expr, Asserted.indices_eq, indices_indexing_id, Asserted.leaves_eq, leaves_eq]
      exact .arrive hs' (fill_asserted hs' (fun _ => rfl) ihc)
    | _ => exact .arrive hs' .refl
  | call name args position ih =>
    rw [Asserted.expr, expr, Asserted.exprs_eq, exprs_eq]
    exact .arrive hs' (call_asserted hcalls hs.prepared ih)

end TapeC.Lowering
