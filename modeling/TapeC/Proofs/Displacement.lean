import TapeC.Proofs.Effect
import TapeC.Proofs.Normal

/-! Code at another place. The same operation is lowered at two cells, among variables that are as
far from each other as the cells are. Cells enter the code by their distances alone, so that it is
the same code. The warnings may start out differently; how they are related is left open. -/

namespace TapeC

open Layout Program Tape Routine

/-- Related results, or the same fault. -/
def Concur {α β : Type} (S : α → β → Prop) : Except CompileFault α → Except CompileFault β → Prop
  | .ok a, .ok b => S a b
  | .error e, .error f => e = f
  | _, _ => False

namespace Concur

variable {α β γ : Type} {S : α → β → Prop}

theorem refl (x : Except CompileFault α) : Concur Eq x x := by
  cases x with
  | error e => exact rfl
  | ok a => exact rfl

/-- One computation, the result of which is used in different ways. -/
theorem map (x : Except CompileFault γ) {f : γ → α} {g : γ → β} (h : ∀ c, x = .ok c → S (f c) (g c)) :
    Concur S (x.map f) (x.map g) := by
  cases x with
  | error e => exact rfl
  | ok c => exact h c rfl

end Concur

/-! ### Variables and places -/

namespace Layout

variable {ι κ : Type} {d : Nat}

def Variable.moved (d : Nat) (v : Variable) : Variable := { v with cell := v.cell + d }

def Scope.moved (d : Nat) (s : Scope) : Scope := ⟨s.start + d, s.next + d, s.vars.map (·.moved d)⟩

/-- The variables of the names in `N`, in whatever scope they are, are `d` cells further on in `s'`. -/
def Scopes.FoundMoved (d : Nat) (N : String → Prop) (s s' : Scopes) : Prop :=
  ∀ name, N name → s'.find? name = (s.find? name).map (·.moved d)

/-- So is the innermost scope. -/
structure Scopes.Moved (d : Nat) (N : String → Prop) (s s' : Scopes) : Prop where
  inner : s'.inner = s.inner.moved d
  find? : s.FoundMoved d N s'

theorem Variable.stop_moved (v : Variable) : (v.moved d).stop = v.stop + d := Nat.add_right_comm ..

theorem Scopes.FoundMoved.lookup {N : String → Prop} {s s' : Scopes} {name : String} (h : s.FoundMoved d N s')
    (hname : N name) (position : Position) :
    s'.lookup name position = (s.lookup name position).map (·.moved d) := by
  rw [Scopes.lookup, Scopes.lookup, h name hname]
  cases s.find? name <;> rfl

namespace Scopes.Moved

variable {N M : String → Prop} {s s' : Scopes}

theorem mono (h : Moved d N s s') (hM : ∀ name, M name → N name) : Moved d M s s' :=
  ⟨h.inner, fun name hname => h.find? name (hM name hname)⟩

theorem offset (h : Moved d N s s') : s'.offset = s.offset + d := by
  rw [Scopes.offset, h.inner]
  rfl

theorem claimed (h : Moved d N s s') : s'.claimed = s.claimed := by
  rw [Scopes.claimed, h.inner]
  exact Nat.add_sub_add_right ..

theorem enter (h : Moved d N s s') : Moved d N s.enter s'.enter where
  inner := by
    rw [Scopes.enter, Scopes.enterAt, h.offset]
    rfl
  find? := h.find?

theorem reserve (h : Moved d N s s') (n : Nat) : Moved d N (s.reserve n) (s'.reserve n) where
  inner := by
    rw [Scopes.reserve, h.inner]
    exact congrArg (Scope.mk _ · _) (Nat.add_right_comm ..)
  find? := by
    have hfind (s : Scopes) (name : String) : (s.reserve n).find? name = s.find? name := rfl
    simpa only [FoundMoved, hfind] using h.find?

/-- What is declared can be named as well. -/
theorem declare (h : Moved d N s s') (name : String) (shape : Shape) (position : Position) :
    Concur (fun r r' => Moved d (fun other => other = name ∨ N other) r.2 r'.2) (s.declare name shape position)
      (s'.declare name shape position) := by
  have hisSome : (s'.inner.find? name).isSome = (s.inner.find? name).isSome := by
    rw [h.inner, Scope.find?, Scope.moved, List.find?_map, Option.isSome_map]
    rfl
  by_cases hnew : (s.inner.find? name).isSome
  · rw [Scopes.declare, Scopes.declare, hisSome, if_pos hnew, if_pos hnew]
    exact rfl
  · have hs : s.declare name shape position = .ok _ := if_neg hnew
    have hs' : s'.declare name shape position = .ok _ := if_neg (hisSome ▸ hnew)
    have hcell : (⟨name, shape, s'.offset⟩ : Variable) = Variable.moved d ⟨name, shape, s.offset⟩ := by
      rw [h.offset]
      rfl
    rw [hs, hs', hcell]
    refine ⟨?_, fun other hother => ?_⟩
    · rw [h.inner, Variable.stop_moved]
      rfl
    · rw [Lowering.find?_declare hs, Lowering.find?_declare (hcell ▸ hs')]
      split
      · rfl
      next hne => exact h.find? other (hother.resolve_left (Ne.symm hne))

end Scopes.Moved

namespace Place

variable {v : Variable} {name : String} {position : Position}

/-- A fold whose steps commute with a change of what they work on. -/
theorem foldlM_commutes {α β ε : Type} {k : β → β} {step : β → α → Except ε β}
    (h : ∀ b a, step (k b) a = (step b a).map k) (as : List α) (b : β) :
    as.foldlM step (k b) = (as.foldlM step b).map k := by
  have hfold := foldlM_natural (g := id) h as b
  rwa [List.map_id] at hfold

def moved (d : Nat) (p : Place κ) : Place κ := { p with base := p.base + d, stop := p.stop + d }

theorem advance_moved (p : Place κ) (i : Index κ) (length stride : Nat) :
    (p.moved d).advance name i length stride = (p.advance name i length stride).map (moved d) := by
  obtain ⟨constant, q, code⟩ := i
  cases constant with
  | none => rfl
  | some n =>
    simp only [advance]
    split
    · rfl
    · exact congrArg Except.ok (congrArg (Place.mk · _ _ _) (Nat.add_right_comm ..))

theorem element_moved (p : Place κ) (is : List (Index κ)) :
    (p.moved d).element name position is = (p.element name position is).map (moved d) := by
  have hshape : (p.moved d).shape = p.shape := rfl
  let q : Place κ := { p with shape := ⟨p.shape.type, []⟩ }
  by_cases hempty : p.shape.dims.isEmpty = true
  · simp only [element, hshape, hempty, if_true]
    rfl
  by_cases hlen : is.length = p.shape.dims.length
  · simp only [element, hshape, hempty, hlen, if_true]
    exact foldlM_commutes (k := moved d) (fun p leg => advance_moved p leg.1 leg.2.1 leg.2.2) _ q
  · simp only [element, hshape, hempty, hlen, if_false]
    rcases is with _ | ⟨i, _ | ⟨j, is⟩⟩
    · rfl
    · exact advance_moved q i _ _
    · rfl

theorem select_moved (p : Place κ) (field : String) :
    (p.moved d).select name position field = (p.select name position field).map (moved d) := by
  rw [select, select, show (p.moved d).shape = p.shape from rfl]
  split
  · split
    · exact congrArg Except.ok (congrArg (Place.mk · _ _ _) (Nat.add_right_comm ..))
    · rfl
  · rfl
  · rfl

theorem ofPath_moved (path : List (Selector (Index κ))) :
    ofPath (v.moved d) position path = (ofPath v position path).map (moved d) := by
  have hstart : (⟨(v.moved d).cell, [], v.shape, (v.moved d).stop⟩ : Place κ) =
      moved d ⟨v.cell, [], v.shape, v.stop⟩ := by
    rw [Variable.stop_moved]
    rfl
  rw [ofPath_eq, ofPath_eq]
  refine (congrArg (List.foldlM _ · _) hstart).trans (foldlM_commutes (fun p step => ?_) _ _)
  cases step with
  | field name => exact select_moved p name
  | indices is => exact element_moved p is

end Place

end Layout

namespace Lowering

open Code

/-- How the lowerings of one tree at two places are compared: how many cells further on the second
place is, and how the warnings are related. -/
structure Displacement where
  distance : Nat
  warnings : List Warning → List Warning → Prop
  cons : ∀ {v w} (a : Warning), warnings v w → warnings (a :: v) (a :: w)

namespace Displacement

variable {D : Displacement} {α β γ δ : Type} {S : α → β → Prop} {T : γ → δ → Prop}

/-- Related results and related warnings, or the same fault. -/
def Agree (D : Displacement) (S : α → β → Prop) (x : Lower α) (y : Lower β) : Prop :=
  ∀ v w, D.warnings v w → Concur (fun a b => S a.1 b.1 ∧ D.warnings a.2 b.2) (x.run v) (y.run w)

/-- The same code at each cell and at the one as far on as the second place is. -/
def MovedAt (D : Displacement) (a b : CodeAt) : Prop := ∀ p, D.Agree Eq (a p) (b (p + D.distance))

/-! ### Computations -/

theorem Agree.pure {a : α} {b : β} (h : S a b) : D.Agree S (pure a) (pure b) := fun _ _ hw => ⟨h, hw⟩

theorem Agree.bind {x : Lower α} {y : Lower β} {f : α → Lower γ} {g : β → Lower δ} (h : D.Agree S x y)
    (hfg : ∀ a b, S a b → D.Agree T (f a) (g b)) : D.Agree T (x >>= f) (y >>= g) := by
  intro v w hw
  have hxy := h v w hw
  rw [StateT.run_bind, StateT.run_bind]
  generalize x.run v = r at hxy
  generalize y.run w = r' at hxy
  match r, r', hxy with
  | .ok (a, v), .ok (b, w), ⟨hab, hw⟩ => exact hfg a b hab v w hw
  | .error e, .error _, h => exact h

theorem Agree.mono {R : α → β → Prop} {x : Lower α} {y : Lower β} (h : D.Agree S x y)
    (hR : ∀ a b, S a b → R a b) : D.Agree R x y := by
  intro v w hw
  have hxy := h v w hw
  generalize x.run v = r at hxy ⊢
  generalize y.run w = r' at hxy ⊢
  match r, r', hxy with
  | .ok _, .ok _, ⟨hab, hw⟩ => exact ⟨hR _ _ hab, hw⟩
  | .error _, .error _, h => exact h

theorem Agree.andThen {x y : Lower α} {f : α → Lower γ} {g : α → Lower δ} (h : D.Agree Eq x y)
    (hfg : ∀ a, D.Agree T (f a) (g a)) : D.Agree T (x >>= f) (y >>= g) :=
  h.bind fun a _ hab => hab ▸ hfg a

theorem agree_throw {fault : CompileFault} : D.Agree S (throw fault) (throw fault) := fun _ _ _ => rfl

theorem agree_fail {position : Position} {cause : SemanticCause} : D.Agree S (fail position cause) (fail position cause) :=
  agree_throw

theorem agree_warn {position : Position} {cause : WarningCause} :
    D.Agree Eq (warn position cause) (warn position cause) :=
  fun _ _ hw => ⟨rfl, D.cons _ hw⟩

theorem agree_liftM {x : Except CompileFault α} {y : Except CompileFault β} (h : Concur S x y) :
    D.Agree S (liftM x : Lower α) (liftM y : Lower β) := by
  intro v w hw
  match x, y, h with
  | .ok a, .ok b, h => exact ⟨h, hw⟩
  | .error e, .error _, h => exact h

/-- The same test on both sides, which refuses or warns. -/
theorem agree_guard {c : Prop} [Decidable c] {r : Lower PUnit} {k : PUnit → Lower γ} {k' : PUnit → Lower δ}
    (hr : D.Agree Eq r r) (hk : ∀ u, D.Agree T (k u) (k' u)) :
    D.Agree T (if c then r >>= k else k ⟨⟩) (if c then r >>= k' else k' ⟨⟩) := by
  split
  · exact hr.andThen hk
  · exact hk ⟨⟩

/-! ### Operators -/

variable {a a' b b' : CodeAt} {c : Code}

theorem MovedAt.after (h : D.MovedAt a b) (p n : Nat) : D.Agree Eq (a (p + n)) (b (p + D.distance + n)) := by
  rw [Nat.add_right_comm]
  exact h (p + n)

theorem onPair_moved (ha : D.MovedAt a a') (hb : D.MovedAt b b') : D.MovedAt (onPair c a b) (onPair c a' b') :=
  fun p => (ha p).andThen fun _ => (hb.after p 1).andThen fun _ => .pure rfl

theorem onDivisor_moved {operation : Bool → Code} {divisor : Option Cell} {position : Position}
    (ha : D.MovedAt a a') (hb : D.MovedAt b b') :
    D.MovedAt (onDivisor operation divisor position a b) (onDivisor operation divisor position a' b') :=
  fun p => agree_guard agree_fail fun _ => onPair_moved ha hb p

theorem binary_moved {op : BinaryOp} {divisor : Option Cell} {position : Position} (ha : D.MovedAt a a')
    (hb : D.MovedAt b b') : D.MovedAt (binary op divisor position a b) (binary op divisor position a' b') := by
  cases op with
  | and => exact fun p => (ha p).andThen fun _ => (hb.after p 2).andThen fun _ => .pure rfl
  | or => exact fun p => (ha p).andThen fun _ => (hb.after p 3).andThen fun _ => .pure rfl
  | divide | modulo => exact onDivisor_moved ha hb
  | _ => exact onPair_moved ha hb

theorem constant_moved {v : Cell} : D.MovedAt (constant v) (constant v) := fun _ => .pure rfl

theorem unary_moved {op : UnaryOp} (ha : D.MovedAt a a') : D.MovedAt (unary op a) (unary op a') := by
  cases op with
  | negate => exact onPair_moved constant_moved ha
  | not | complement => exact fun p => (ha p).andThen fun _ => .pure rfl

/-! ### Places -/

section Places

variable {ι : Type} {X : List (Selector (Index ι))} {f g : ι → CodeAt} {s s' : Scopes} {N : String → Prop}
  {name : String} {position : Position}

theorem term_moved {t : Term ι} (h : D.MovedAt (f t.code) (g t.code)) :
    D.MovedAt (term (t.map f)) (term (t.map g)) := by
  rw [term, term, show (t.map f).stride = t.stride from rfl, show (t.map g).stride = t.stride from rfl]
  split
  · exact h
  · exact onPair_moved h constant_moved

theorem sum_moved {ts : List (Term ι)} (ha : D.MovedAt a a') (h : ∀ t ∈ ts, D.MovedAt (f t.code) (g t.code)) :
    D.MovedAt (sum a (ts.map (Term.map f))) (sum a' (ts.map (Term.map g))) := by
  induction ts generalizing a a' with
  | nil => exact ha
  | cons t ts ih =>
    obtain ⟨ht, hts⟩ := List.forall_mem_cons.1 h
    exact ih (onPair_moved ha (term_moved ht)) hts

/-- The same place further on, with indices that have the same code there. -/
def MovedPlace (D : Displacement) (f g : ι → CodeAt) (p p' : Place CodeAt) : Prop :=
  ∃ q : Place ι, p = q.map f ∧ p' = (q.map g).moved D.distance ∧ ∀ t ∈ q.terms, D.MovedAt (f t.code) (g t.code)

variable (hs : s.FoundMoved D.distance N s') (hname : N name) (h : ∀ i ∈ indexed X, D.MovedAt (f i.code) (g i.code))

include hs hname h

theorem place_moved : D.Agree (D.MovedPlace f g) (place s name (X.map (Selector.map (Index.map f))) position)
    (place s' name (X.map (Selector.map (Index.map g))) position) := by
  rw [place, place, hs.lookup hname]
  have hlookup : D.Agree (fun v v' => v' = v.moved D.distance) (liftM (s.lookup name position) : Lower Variable)
      (liftM ((s.lookup name position).map (·.moved D.distance))) := by
    cases s.lookup name position with
    | error e => exact agree_liftM rfl
    | ok v => exact agree_liftM rfl
  refine hlookup.bind fun v _ hv => ?_
  subst hv
  rw [Place.ofPath_moved, Place.ofPath_map, Place.ofPath_map]
  have hplace : D.Agree (D.MovedPlace f g) (liftM ((Place.ofPath v position X).map (Place.map f)))
      (liftM (((Place.ofPath v position X).map (Place.map g)).map (Place.moved D.distance))) := by
    refine agree_liftM ?_
    cases hq : Place.ofPath v position X with
    | error e => exact rfl
    | ok q =>
      refine ⟨q, rfl, rfl, fun t ht => ?_⟩
      obtain ⟨i, hi, hcode⟩ := Place.code_of_mem_terms hq ht
      exact hcode ▸ h i hi
  refine hplace.bind ?_
  rintro _ _ ⟨q, rfl, rfl, hterms⟩
  have hempty : (q.map f).terms.isEmpty = q.terms.isEmpty := List.isEmpty_map
  have hempty' : ((q.map g).moved D.distance).terms.isEmpty = q.terms.isEmpty := List.isEmpty_map
  rw [hempty, hempty']
  exact agree_guard agree_warn fun _ => .pure ⟨q, rfl, rfl, hterms⟩

/-- An operation on a place that is a single cell. -/
theorem cell_moved {cause : SemanticCause} {k k' : Place CodeAt → Lower Code}
    (hk : ∀ p p', D.MovedPlace f g p p' → D.Agree Eq (k p) (k' p')) :
    D.Agree Eq
      (do
        let place ← place s name (X.map (Selector.map (Index.map f))) position
        if !place.shape.isCell then fail position cause
        k place)
      (do
        let place ← place s' name (X.map (Selector.map (Index.map g))) position
        if !place.shape.isCell then fail position cause
        k' place) := by
  refine (place_moved hs hname h).bind fun p p' hp => ?_
  have hshape : p'.shape = p.shape := by
    obtain ⟨q, rfl, rfl, -⟩ := hp
    rfl
  rw [hshape]
  exact agree_guard agree_fail fun _ => hk p p' hp

omit hs hname h in
/-- The distance to a place is the same from as far on. -/
theorem onPlace_moved {p p' : Place CodeAt} {work : Nat → Code} (h : D.MovedPlace f g p p') :
    D.MovedAt (onPlace p work) (onPlace p' work) := by
  obtain ⟨⟨base, terms, shape, stop⟩, rfl, rfl, hterms⟩ := h
  have hdistance (x : Nat) : x + D.distance - (base + D.distance) = x - base := Nat.add_sub_add_right ..
  cases terms with
  | nil => exact fun x => .pure (congrArg work (hdistance x).symm)
  | cons t ts =>
    obtain ⟨ht, hts⟩ := List.forall_mem_cons.1 hterms
    refine fun x => (sum_moved (term_moved ht) hts x).andThen fun _ => .pure ?_
    simp only [Place.moved, Place.map, Nat.add_right_comm x D.distance, hdistance]

theorem read_moved : D.MovedAt (read s name (X.map (Selector.map (Index.map f))) position)
    (read s' name (X.map (Selector.map (Index.map g))) position) :=
  fun x => cell_moved hs hname h fun _ _ hp => onPlace_moved hp x

theorem update_moved {op : UpdateOp} {before : Bool} :
    D.MovedAt (update s name (X.map (Selector.map (Index.map f))) position op before)
      (update s' name (X.map (Selector.map (Index.map g))) position op before) :=
  fun x => cell_moved hs hname h fun _ _ hp => onPlace_moved hp x

theorem assign_moved (ha : D.MovedAt a a') : D.MovedAt (assign s name (X.map (Selector.map (Index.map f))) position a)
    (assign s' name (X.map (Selector.map (Index.map g))) position a') := by
  refine fun x => cell_moved hs hname h fun _ _ hp => ?_
  obtain ⟨⟨base, terms, shape, stop⟩, rfl, rfl, hterms⟩ := hp
  have hdistance (x : Nat) : x + D.distance - (base + D.distance) = x - base := Nat.add_sub_add_right ..
  cases terms with
  | nil =>
    refine (ha x).andThen fun code => .pure ?_
    simp only [Place.moved, Place.map, hdistance]
  | cons t ts =>
    obtain ⟨ht, hts⟩ := List.forall_mem_cons.1 hterms
    refine (sum_moved (term_moved ht) hts x).andThen fun _ => (ha.after x 2).andThen fun _ => .pure ?_
    simp only [Place.moved, Place.map, Nat.add_right_comm x D.distance, hdistance]

end Places

/-! ### Contents -/

section Contents

variable {ε : Type} {leaf leaf' : ε → Leaf}

/-- Initializers see the same expression, which has the same code further on. -/
structure MovedLeaf (D : Displacement) (l l' : Leaf) : Prop where
  position : l.position = l'.position
  code : D.MovedAt l.code l'.code

theorem content_moved {c : Content ε} (h : ∀ e, c = .value e → D.MovedLeaf (leaf e) (leaf' e)) :
    D.MovedAt (Content.code (c.map leaf)) (Content.code (c.map leaf')) := by
  cases c with
  | byte v => exact constant_moved
  | value e => exact (h e rfl).code

theorem store_moved {cs : List (Content ε)} (h : ∀ e, .value e ∈ cs → D.MovedLeaf (leaf e) (leaf' e)) (base x : Nat) :
    D.Agree Eq (store base x (cs.map (Content.map leaf)))
      (store (base + D.distance) (x + D.distance) (cs.map (Content.map leaf'))) := by
  induction cs generalizing base with
  | nil => exact .pure rfl
  | cons c cs ih =>
    have hrest := ih (fun e he => h e (by simp [he])) (base + 1)
    rw [Nat.add_right_comm] at hrest
    simp only [List.map_cons, store, Nat.add_sub_add_right]
    exact (content_moved (fun e he => h e (by simp [he])) x).andThen fun _ => hrest.andThen fun _ => .pure rfl

/-- Contents are laid out in the same way. -/
theorem layOutContents_moved {i : Initializer ε} {name : String} {position : Position} {shape : Shape}
    (h : ∀ e ∈ i.leaves, D.MovedLeaf (leaf e) (leaf' e)) :
    D.Agree (fun x y => ∃ cs : List (Content ε), x = cs.map (Content.map leaf) ∧ y = cs.map (Content.map leaf') ∧
        ∀ e, .value e ∈ cs → D.MovedLeaf (leaf e) (leaf' e))
      (liftM (layOutContents Leaf.position name position shape (i.map leaf)))
      (liftM (layOutContents Leaf.position name position shape (i.map leaf'))) := by
  have hplace : layOutContents (Leaf.position ∘ leaf) name position shape i =
      layOutContents (Leaf.position ∘ leaf') name position shape i := layOutContents_congr fun e he => (h e he).position
  rw [layOutContents_map, layOutContents_map, hplace]
  exact agree_liftM (.map _ fun cs hcs => ⟨cs, rfl, rfl, fun e he => h e (mem_layOutContents hcs he)⟩)

/-- An operation that fills the cells of a place. -/
theorem fill_moved {ι : Type} {X : List (Selector (Index ι))} {f g : ι → CodeAt} {s s' : Scopes} {N : String → Prop}
    {name : String} {position : Position} {i : Initializer ε} (hs : s.FoundMoved D.distance N s') (hname : N name)
    (h : ∀ i ∈ indexed X, D.MovedAt (f i.code) (g i.code)) (hi : ∀ e ∈ i.leaves, D.MovedLeaf (leaf e) (leaf' e)) :
    D.MovedAt (fill s name (X.map (Selector.map (Index.map f))) position (i.map leaf))
      (fill s' name (X.map (Selector.map (Index.map g))) position (i.map leaf')) := by
  refine fun x => (place_moved hs hname h).bind fun _ _ hp => ?_
  obtain ⟨q, rfl, rfl, -⟩ := hp
  have hempty : (q.map f).terms.isEmpty = q.terms.isEmpty := List.isEmpty_map
  have hempty' : ((q.map g).moved D.distance).terms.isEmpty = q.terms.isEmpty := List.isEmpty_map
  rw [hempty, hempty']
  refine agree_guard agree_fail fun _ => (layOutContents_moved hi).bind fun _ _ hcs => ?_
  obtain ⟨cs, rfl, rfl, hcs⟩ := hcs
  exact (store_moved hcs q.base x).andThen fun _ => .pure rfl

end Contents

/-! ### Calls -/

variable {act act' : Activation} {name : String}

theorem arguments_moved {as bs : List CodeAt} (h : List.Forall₂ D.MovedAt as bs) (x : Nat) :
    D.Agree Eq (arguments x as) (arguments (x + D.distance) bs) := by
  induction h generalizing x with
  | nil => exact .pure rfl
  | cons h _ ih =>
    have hrest := ih (x + 1)
    rw [Nat.add_right_comm] at hrest
    exact (h x).andThen fun _ => hrest.andThen fun _ => .pure rfl

/-- The function of a name is expanded to the same code further on. -/
structure MovedCall (D : Displacement) (act act' : Activation) (name : String) : Prop where
  callable : act'.definitions.callable? name = act.definitions.callable? name
  inline : ∀ d, act.definitions.callable? name = some (.defined d) → ∀ position,
    D.MovedAt (act.inline d position) (act'.inline d position)

theorem call_moved {as bs : List CodeAt} {position : Position} (hcall : D.MovedCall act act' name)
    (h : List.Forall₂ D.MovedAt as bs) : D.MovedAt (call act name as position) (call act' name bs position) := by
  intro x
  have hargs := arguments_moved h (x + 1)
  rw [Nat.add_right_comm] at hargs
  rw [call, call, hcall.callable, ← h.length_eq]
  cases hd : act.definitions.callable? name with
  | none => exact agree_fail
  | some callable =>
    refine agree_guard agree_fail fun _ => hargs.andThen fun _ => ?_
    cases callable with
    | builtin b => exact .pure rfl
    | defined d => exact (hcall.inline d hd position x).andThen fun _ => .pure rfl

/-! ### Expressions -/

theorem notAssignable_moved {operation : String} {e : Expr} :
    D.MovedAt (notAssignable operation e) (notAssignable operation e) :=
  fun _ => agree_fail

/-- The expression names variables among `N` and calls functions that have the same code further on. -/
structure Known (D : Displacement) (act act' : Activation) (N : String → Prop) (e : Expr) : Prop where
  names : ∀ name path p, Expr.Has (.access name path p) e → N name
  calls : ∀ name args p, Expr.Has (.call name args p) e → D.MovedCall act act' name

variable {N : String → Prop} {s s' : Scopes} {e t : Expr}

theorem Known.part (h : D.Known act act' N e) (ht : t ∈ e.parts) : D.Known act act' N t :=
  ⟨fun name path p hhas => h.names name path p (.part ht hhas),
    fun name args p hhas => h.calls name args p (.part ht hhas)⟩

/-- An expression has the same code further on, if the variables that it names are as far on. -/
theorem expr_moved (hs : s.FoundMoved D.distance N s') (e : Expr) (h : D.Known act act' N e) :
    D.MovedAt (expr act s e) (expr act' s' e) := by
  induction e using Expr.induct with
  | number | char | bool => exact constant_moved
  | access name path p ih =>
    rw [expr, expr, indices_indexing_id, indices_indexing_id]
    exact read_moved hs (h.names name path p .self) fun i hi =>
      ih i.code (mem_indexed_indexing hi) (h.part (mem_indexed_indexing hi))
  | binary op a b p iha ihb => exact binary_moved (iha (h.part (by simp [Expr.parts]))) (ihb (h.part (by simp [Expr.parts])))
  | unary op e p ih => exact unary_moved (ih (h.part (by simp [Expr.parts])))
  | update op before target p _ ih =>
    have h := h.part (List.mem_singleton_self target)
    cases target with
    | access name path q =>
      rw [expr, expr, indices_indexing_id, indices_indexing_id]
      exact update_moved hs (h.names name path q .self) fun i hi =>
        ih i.code (mem_indexed_indexing hi) (h.part (mem_indexed_indexing hi))
    | _ => exact notAssignable_moved
  | assign target op value p iht ih ihv =>
    have iht := iht (h.part (by simp [Expr.parts]))
    have ihv := ihv (h.part (by simp [Expr.parts]))
    have h : D.Known act act' N target := h.part (by simp [Expr.parts])
    cases target with
    | access name path q =>
      have hpath : ∀ i ∈ indexed (indexing path), D.MovedAt (expr act s i.code) (expr act' s' i.code) :=
        fun i hi => ih i.code (mem_indexed_indexing hi) (h.part (mem_indexed_indexing hi))
      have hname := h.names name path q .self
      cases op with
      | none =>
        rw [expr, expr, indices_indexing_id, indices_indexing_id]
        exact assign_moved hs hname hpath ihv
      | some op =>
        rw [expr_assign_op, expr_assign_op, indices_indexing_id, indices_indexing_id]
        exact assign_moved hs hname hpath (binary_moved iht ihv)
    | _ => cases op <;> exact notAssignable_moved
  | fill target contents p _ ih ihc =>
    have hcontents : ∀ e ∈ contents.leaves, D.MovedLeaf ⟨e.position, expr act s e⟩ ⟨e.position, expr act' s' e⟩ :=
      fun e he => ⟨rfl, ihc e he (h.part (List.mem_cons_of_mem _ he))⟩
    have h := h.part (List.mem_cons_self : target ∈ target :: contents.leaves)
    cases target with
    | access name path q =>
      rw [expr, expr, indices_indexing_id, indices_indexing_id, leaves_eq, leaves_eq]
      exact fill_moved hs (h.names name path q .self) (fun i hi => ih i.code (mem_indexed_indexing hi)
        (h.part (mem_indexed_indexing hi))) hcontents
    | _ => exact notAssignable_moved
  | call name args p ih =>
    rw [expr, expr, exprs_eq, exprs_eq]
    refine call_moved (h.calls name args p .self) ?_
    rw [List.forall₂_map_left_iff, List.forall₂_map_right_iff, List.forall₂_same]
    exact fun e he => ih e he (h.part he)

end Displacement
end Lowering
end TapeC
