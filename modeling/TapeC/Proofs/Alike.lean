import TapeC.Lowering.Operation
import TapeC.Proofs.Comment
import TapeC.Proofs.Fault
import TapeC.Proofs.Path
import TapeC.Routine.Guard
import Mathlib.Data.List.Forall2

/-! Lowerings that are alike. They fail with the same fault, or they succeed with the same
warnings and with code that is related part by part. What is taken as related, and which
faults there may be, is left open: it may be that the code differs in its comments only, or
that nothing is said of the code and no fault is about recursion. The rules here are one for
each way to lower an operation. -/

namespace TapeC.Lowering

open Layout Program Tape Routine Code

/-- What is compared of two lowerings. -/
structure Likeness where
  /-- The faults that there may be. -/
  fault : CompileFault → Prop
  code : Code → Code → Prop
  ordinary : ∀ e, e.Ordinary → fault e
  refl : ∀ {c}, c.Noteless → code c c
  append : ∀ {a b c d}, code a b → code c d → code (a ++ c) (b ++ d)
  loop : ∀ {a b}, code a b → code (loop a) (loop b)

namespace Likeness

variable {L : Likeness} {α β γ δ : Type} {S : α → β → Prop} {T : γ → δ → Prop}

/-- The same fault, or related results and the same warnings. -/
def SameEnd (L : Likeness) (S : α → β → Prop) :
    Except CompileFault (α × List Warning) → Except CompileFault (β × List Warning) → Prop
  | .ok (a, v), .ok (b, w) => S a b ∧ v = w
  | .error e, .error f => e = f ∧ L.fault e
  | _, _ => False

def Alike (L : Likeness) (S : α → β → Prop) (x : Lower α) (y : Lower β) : Prop :=
  ∀ w, L.SameEnd S (x.run w) (y.run w)

/-- Alike at every cell. -/
def AlikeAt (L : Likeness) (a b : CodeAt) : Prop := ∀ p, L.Alike L.code (a p) (b p)

/-! ### Computations -/

theorem Alike.pure {a : α} {b : β} (h : S a b) : L.Alike S (pure a) (pure b) := fun _ => ⟨h, rfl⟩

theorem Alike.bind {x : Lower α} {y : Lower β} {f : α → Lower γ} {g : β → Lower δ} (h : L.Alike S x y)
    (hfg : ∀ a b, S a b → L.Alike T (f a) (g b)) : L.Alike T (x >>= f) (y >>= g) := by
  intro w
  have hw := h w
  rw [StateT.run_bind, StateT.run_bind]
  cases hx : x.run w with
  | error e =>
    cases hy : y.run w with
    | error f => rwa [hx, hy] at hw
    | ok b => rw [hx, hy] at hw; exact hw.elim
  | ok a =>
    cases hy : y.run w with
    | error f => rw [hx, hy] at hw; exact hw.elim
    | ok b =>
      rw [hx, hy] at hw
      obtain ⟨hab, hvw⟩ := hw
      obtain ⟨a, v⟩ := a
      obtain ⟨b, w'⟩ := b
      cases hvw
      exact hfg a b hab v

theorem alike_fail {position : Position} {cause : SemanticCause} (h : ∀ name, cause ≠ .recursion name) :
    L.Alike S (fail position cause) (fail position cause) :=
  fun _ => ⟨rfl, L.ordinary _ fun _ name hfault => h name (by cases hfault; rfl)⟩

theorem alike_throw {fault : CompileFault} (h : fault.Ordinary) :
    L.Alike S (throw fault) (throw fault) :=
  fun _ => ⟨rfl, L.ordinary _ h⟩

theorem alike_warn {position : Position} {cause : WarningCause} :
    L.Alike Eq (warn position cause) (warn position cause) :=
  fun _ => ⟨rfl, rfl⟩

/-- A computation of the layout, the result of which is used in different ways. -/
theorem alike_lift {x : Except CompileFault γ} {f : γ → α} {g : γ → β} (hx : FailsOrdinarily x)
    (h : ∀ c, x = .ok c → S (f c) (g c)) :
    L.Alike S (liftM (x.map f) : Lower α) (liftM (x.map g) : Lower β) := by
  intro w
  cases x with
  | error e => exact ⟨rfl, L.ordinary _ (hx e rfl)⟩
  | ok c => exact ⟨h c rfl, rfl⟩

theorem alike_liftM {x : Except CompileFault α} (hx : FailsOrdinarily x) :
    L.Alike Eq (liftM x : Lower α) (liftM x : Lower α) := by
  intro w
  cases x with
  | error e => exact ⟨rfl, L.ordinary _ (hx e rfl)⟩
  | ok c => exact ⟨rfl, rfl⟩

/-- The same test on both sides, which refuses or warns. -/
theorem alike_guard {c : Prop} [Decidable c] {r : Lower PUnit} {k : PUnit → Lower γ} {k' : PUnit → Lower δ}
    (hr : L.Alike Eq r r) (hk : ∀ u, L.Alike T (k u) (k' u)) :
    L.Alike T (if c then r >>= k else k ⟨⟩) (if c then r >>= k' else k' ⟨⟩) := by
  split
  · exact hr.bind fun u _ h => h ▸ hk u
  · exact hk ⟨⟩

/-! ### Operators -/

variable {a a' b b' : CodeAt} {c : Code}

theorem onPair_alike (hc : c.Noteless) (ha : L.AlikeAt a a') (hb : L.AlikeAt b b') :
    L.AlikeAt (onPair c a b) (onPair c a' b') :=
  fun p => (ha p).bind fun _ _ h => (hb (p + 1)).bind fun _ _ h' =>
    .pure (L.append (L.append (L.append h h') (L.refl rfl)) (L.refl hc))

theorem onDivisor_alike {operation : Bool → Code} {divisor : Option Cell} {position : Position}
    (hc : ∀ check, (operation check).Noteless) (ha : L.AlikeAt a a') (hb : L.AlikeAt b b') :
    L.AlikeAt (onDivisor operation divisor position a b) (onDivisor operation divisor position a' b') :=
  fun p => alike_guard (alike_fail (by nofun)) fun _ => onPair_alike (hc _) ha hb p

theorem andThen_alike {x x' y y' : Code} (hx : L.code x x') (hy : L.code y y') :
    L.code (andThen x y) (andThen x' y') := by
  repeat' first | assumption | exact L.refl rfl | apply L.append | apply L.loop

theorem orElse_alike {x x' y y' : Code} (hx : L.code x x') (hy : L.code y y') :
    L.code (orElse x y) (orElse x' y') := by
  repeat' first | assumption | exact L.refl rfl | apply L.append | apply L.loop

theorem binary_alike {op : BinaryOp} {divisor : Option Cell} {position : Position} (ha : L.AlikeAt a a')
    (hb : L.AlikeAt b b') : L.AlikeAt (binary op divisor position a b) (binary op divisor position a' b') := by
  cases op with
  | and => exact fun p => (ha p).bind fun _ _ h => (hb (p + 2)).bind fun _ _ h' => .pure (andThen_alike h h')
  | or => exact fun p => (ha p).bind fun _ _ h => (hb (p + 3)).bind fun _ _ h' => .pure (orElse_alike h h')
  | divide => exact onDivisor_alike (fun _ => divide_noteless) ha hb
  | modulo => exact onDivisor_alike (fun _ => modulo_noteless) ha hb
  | bitAnd | bitOr | bitXor => exact onPair_alike bitwise_noteless ha hb
  | _ => exact onPair_alike rfl ha hb

theorem constant_alike {v : Cell} : L.AlikeAt (constant v) (constant v) :=
  fun _ => .pure (L.refl literal_noteless)

theorem unary_alike {op : UnaryOp} (ha : L.AlikeAt a a') : L.AlikeAt (unary op a) (unary op a') := by
  cases op with
  | negate => exact onPair_alike rfl constant_alike ha
  | not | complement => exact fun p => (ha p).bind fun _ _ h => .pure (L.append (L.append h (L.refl rfl)) (L.refl rfl))

/-! ### Places -/

section Places

variable {ι : Type} {X : List (Selector (Index ι))} {f g : ι → CodeAt} {scopes : Scopes} {name : String}
  {position : Position}

theorem term_alike {t : Term ι} (h : L.AlikeAt (f t.code) (g t.code)) :
    L.AlikeAt (term (t.map f)) (term (t.map g)) := by
  rw [term, term, show (t.map f).stride = t.stride from rfl, show (t.map g).stride = t.stride from rfl]
  split
  · exact h
  · exact onPair_alike rfl h constant_alike

theorem sum_alike {ts : List (Term ι)} (ha : L.AlikeAt a a') (h : ∀ t ∈ ts, L.AlikeAt (f t.code) (g t.code)) :
    L.AlikeAt (sum a (ts.map (Term.map f))) (sum a' (ts.map (Term.map g))) := by
  induction ts generalizing a a' with
  | nil => exact ha
  | cons t ts ih =>
    obtain ⟨ht, hts⟩ := List.forall_mem_cons.1 h
    exact ih (onPair_alike rfl ha (term_alike ht)) hts

/-- The same place, with indices that are alike. -/
def AlikePlace (L : Likeness) (f g : ι → CodeAt) (p p' : Place CodeAt) : Prop :=
  ∃ q : Place ι, p = q.map f ∧ p' = q.map g ∧ ∀ t ∈ q.terms, L.AlikeAt (f t.code) (g t.code)

theorem place_alike (h : ∀ i ∈ indexed X, L.AlikeAt (f i.code) (g i.code)) :
    L.Alike (L.AlikePlace f g) (place scopes name (X.map (Selector.map (Index.map f))) position)
      (place scopes name (X.map (Selector.map (Index.map g))) position) := by
  refine (alike_liftM lookup_failsOrdinarily).bind fun v _ hv => ?_
  subst hv
  rw [Place.ofPath_map, Place.ofPath_map]
  have hplace : L.Alike (L.AlikePlace f g) (liftM ((Place.ofPath v position X).map (Place.map f)))
      (liftM ((Place.ofPath v position X).map (Place.map g))) :=
    alike_lift Place.ofPath_failsOrdinarily fun q hq => ⟨q, rfl, rfl, fun t ht => by
      obtain ⟨i, hi, hcode⟩ := Place.code_of_mem_terms hq ht
      exact hcode ▸ h i hi⟩
  refine hplace.bind fun _ _ ⟨q, hq, hq', hterms⟩ => ?_
  subst hq hq'
  have hempty (k : ι → CodeAt) : (q.map k).terms.isEmpty = q.terms.isEmpty := List.isEmpty_map
  rw [hempty f, hempty g]
  exact alike_guard alike_warn fun _ => .pure ⟨q, rfl, rfl, hterms⟩

theorem onPlace_alike {p p' : Place CodeAt} {work : Nat → Code} (hwork : ∀ n, (work n).Noteless)
    (h : L.AlikePlace f g p p') :
    L.AlikeAt (onPlace p work) (onPlace p' work) := by
  obtain ⟨q, rfl, rfl, hterms⟩ := h
  obtain ⟨base, terms, shape, stop⟩ := q
  cases terms with
  | nil => exact fun _ => .pure (L.refl (hwork _))
  | cons t ts =>
    obtain ⟨ht, hts⟩ := List.forall_mem_cons.1 hterms
    refine fun p => (sum_alike (term_alike ht) hts p).bind fun _ _ h => .pure ?_
    repeat' first | assumption | exact L.refl (hwork _) | exact L.refl rfl | apply L.append

variable (h : ∀ i ∈ indexed X, L.AlikeAt (f i.code) (g i.code))

include h

/-- An operation on a place that is a single cell. -/
theorem cell_alike {cause : SemanticCause} {k k' : Place CodeAt → Lower Code} (hcause : ∀ name, cause ≠ .recursion name)
    (hk : ∀ p p', L.AlikePlace f g p p' → L.Alike L.code (k p) (k' p')) :
    L.Alike L.code
      (do
        let place ← place scopes name (X.map (Selector.map (Index.map f))) position
        if !place.shape.isCell then fail position cause
        k place)
      (do
        let place ← place scopes name (X.map (Selector.map (Index.map g))) position
        if !place.shape.isCell then fail position cause
        k' place) := by
  refine (place_alike h).bind fun p p' hp => ?_
  obtain ⟨q, rfl, rfl, hterms⟩ := hp
  rw [show (q.map f).shape = q.shape from rfl, show (q.map g).shape = q.shape from rfl]
  exact alike_guard (alike_fail hcause) fun _ => hk _ _ ⟨q, rfl, rfl, hterms⟩

theorem read_alike : L.AlikeAt (read scopes name (X.map (Selector.map (Index.map f))) position)
    (read scopes name (X.map (Selector.map (Index.map g))) position) :=
  fun p => cell_alike h nofun fun _ _ hp => onPlace_alike (fun _ => copyFrom_noteless) hp p

theorem update_alike {op : UpdateOp} {before : Bool} :
    L.AlikeAt (update scopes name (X.map (Selector.map (Index.map f))) position op before)
      (update scopes name (X.map (Selector.map (Index.map g))) position op before) :=
  fun p => cell_alike h nofun fun _ _ hp => onPlace_alike (fun _ => by
    split
    · exact updateThenRead_noteless
    · exact readThenUpdate_noteless) hp p

theorem assign_alike (ha : L.AlikeAt a a') :
    L.AlikeAt (assign scopes name (X.map (Selector.map (Index.map f))) position a)
      (assign scopes name (X.map (Selector.map (Index.map g))) position a') := by
  refine fun p => cell_alike h nofun fun _ _ hp => ?_
  obtain ⟨⟨base, terms, shape, stop⟩, rfl, rfl, hterms⟩ := hp
  cases terms with
  | nil =>
    refine (ha p).bind fun _ _ h => .pure ?_
    repeat' first | assumption | exact L.refl rfl | apply L.append
  | cons t ts =>
    obtain ⟨ht, hts⟩ := List.forall_mem_cons.1 hterms
    refine (sum_alike (term_alike ht) hts p).bind fun _ _ h => (ha (p + 2)).bind fun _ _ h' => .pure ?_
    repeat' first | assumption | exact L.refl rfl | apply L.append

end Places

/-! ### Contents -/

section Contents

variable {ε : Type} {leaf leaf' : ε → Leaf}

/-- Initializers see the same expression. -/
structure AlikeLeaf (L : Likeness) (l l' : Leaf) : Prop where
  position : l.position = l'.position
  code : L.AlikeAt l.code l'.code

theorem content_alike {c : Content ε} (h : ∀ e, c = .value e → L.AlikeLeaf (leaf e) (leaf' e)) :
    L.AlikeAt (Content.code (c.map leaf)) (Content.code (c.map leaf')) := by
  cases c with
  | byte v => exact constant_alike
  | value e => exact (h e rfl).code

theorem store_alike {cs : List (Content ε)} (h : ∀ e, .value e ∈ cs → L.AlikeLeaf (leaf e) (leaf' e))
    (base p : Nat) :
    L.Alike L.code (store base p (cs.map (Content.map leaf))) (store base p (cs.map (Content.map leaf'))) := by
  induction cs generalizing base with
  | nil => exact .pure (L.refl rfl)
  | cons c cs ih =>
    refine (content_alike (fun e he => h e (by simp [he])) p).bind fun _ _ hc => ?_
    refine (ih (fun e he => h e (by simp [he])) (base + 1)).bind fun _ _ hcs => .pure ?_
    exact L.append (L.append (L.append hc (L.refl rfl)) (L.refl rfl)) hcs

/-- Contents are laid out in the same way. -/
theorem layOutContents_alike {i : Initializer ε} {name : String} {position : Position} {shape : Shape}
    (h : ∀ e ∈ i.leaves, L.AlikeLeaf (leaf e) (leaf' e)) :
    L.Alike (fun x y => ∃ cs : List (Content ε), x = cs.map (Content.map leaf) ∧ y = cs.map (Content.map leaf') ∧
        ∀ e, .value e ∈ cs → L.AlikeLeaf (leaf e) (leaf' e))
      (liftM (layOutContents Leaf.position name position shape (i.map leaf)))
      (liftM (layOutContents Leaf.position name position shape (i.map leaf'))) := by
  have hplace : layOutContents (Leaf.position ∘ leaf) name position shape i =
      layOutContents (Leaf.position ∘ leaf') name position shape i := layOutContents_congr fun e he => (h e he).position
  rw [layOutContents_map, layOutContents_map, hplace]
  exact alike_lift layOutContents_failsOrdinarily fun cs hcs =>
    ⟨cs, rfl, rfl, fun e he => h e (mem_layOutContents hcs he)⟩

/-- An operation that fills the cells of a place. -/
theorem fill_alike {ι : Type} {X : List (Selector (Index ι))} {f g : ι → CodeAt} {scopes : Scopes} {name : String}
    {position : Position} {i : Initializer ε} (h : ∀ i ∈ indexed X, L.AlikeAt (f i.code) (g i.code))
    (hi : ∀ e ∈ i.leaves, L.AlikeLeaf (leaf e) (leaf' e)) :
    L.AlikeAt (fill scopes name (X.map (Selector.map (Index.map f))) position (i.map leaf))
      (fill scopes name (X.map (Selector.map (Index.map g))) position (i.map leaf')) := by
  refine fun p => (place_alike h).bind fun _ _ hp => ?_
  obtain ⟨q, rfl, rfl, -⟩ := hp
  have hempty (k : ι → CodeAt) : (q.map k).terms.isEmpty = q.terms.isEmpty := List.isEmpty_map
  rw [hempty f, hempty g]
  refine alike_guard (alike_fail (by nofun)) fun _ => (layOutContents_alike hi).bind fun _ _ hcs => ?_
  obtain ⟨cs, rfl, rfl, hcs⟩ := hcs
  exact (store_alike hcs q.base p).bind fun _ _ h => .pure (L.append (L.append h (L.refl rfl)) (L.refl rfl))

end Contents

/-! ### Calls -/

theorem arguments_alike {as bs : List CodeAt} (h : List.Forall₂ L.AlikeAt as bs) (p : Nat) :
    L.Alike L.code (arguments p as) (arguments p bs) := by
  induction h generalizing p with
  | nil => exact .pure (L.refl rfl)
  | cons h _ ih => exact (h p).bind fun _ _ h => (ih (p + 1)).bind fun _ _ h' => .pure (L.append h h')

/-- The same function is called, and expanded to code that is alike. -/
structure AlikeCall (L : Likeness) (act act' : Activation) (name : String) : Prop where
  callable : (act.definitions.callable? name = none ∧ act'.definitions.callable? name = none) ∨
    (∃ b, act.definitions.callable? name = some (.builtin b) ∧
      act'.definitions.callable? name = some (.builtin b)) ∨
    ∃ d d', act.definitions.callable? name = some (.defined d) ∧
      act'.definitions.callable? name = some (.defined d') ∧ d.params.length = d'.params.length ∧
      ∀ position p, L.Alike L.code (act.inline d position p) (act'.inline d' position p)

theorem call_alike {act act' : Activation} {name : String} {as bs : List CodeAt} {position : Position}
    (hcall : L.AlikeCall act act' name) (h : List.Forall₂ L.AlikeAt as bs) :
    L.AlikeAt (call act name as position) (call act' name bs position) := by
  intro p
  have hlen : as.length = bs.length := h.length_eq
  rcases hcall.callable with ⟨hn, hn'⟩ | ⟨b, hb, hb'⟩ | ⟨d, d', hd, hd', hparams, hinline⟩
  · simp only [call, hn, hn']
    exact alike_fail nofun
  · simp only [call, hb, hb', hlen]
    refine alike_guard (alike_fail (by nofun)) fun _ => (arguments_alike h (p + 1)).bind fun _ _ h => ?_
    refine .pure ?_
    repeat' first | assumption | exact L.refl Builtin.body_noteless | exact L.refl rfl | apply L.append
  · simp only [call, hd, hd', hlen, Callable.arity, hparams]
    refine alike_guard (alike_fail (by nofun)) fun _ => (arguments_alike h (p + 1)).bind fun _ _ h => ?_
    refine (hinline position p).bind fun _ _ h' => .pure ?_
    repeat' first | assumption | exact L.refl rfl | apply L.append

end Likeness
end TapeC.Lowering
