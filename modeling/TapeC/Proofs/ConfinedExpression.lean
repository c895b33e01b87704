import TapeC.Proofs.Confined
import TapeC.Proofs.Effect

/-! The code of an expression keeps to its cells. Of the cells left of where it starts it changes
those of variables that it assigns, and what functions change that it calls; in between the head
may be anywhere, but it comes back. -/

namespace TapeC.Lowering

open Layout Program Tape Routine Code Config

variable {bounded : Bool} {V W : Nat → Prop} {o p q : Nat} {a b : CodeAt} {c : Code}

/-- From `o` on the code moves on by one cell, and of those left of where it starts it changes
none but those in `V`. -/
def ConfinedFrom (bounded : Bool) (V : Nat → Prop) (o : Nat) (a : CodeAt) : Prop :=
  ∀ p, o ≤ p → ∀ c, Lowers (a p) c → Confined bounded V p p (p + 1) c

theorem ConfinedFrom.mono (h : ConfinedFrom bounded V o a) (hV : ∀ x, V x → W x) : ConfinedFrom bounded W o a :=
  fun p hp c hc => (h p hp c hc).mono (Nat.le_refl _) fun x _ => hV x

/-! ### Operators -/

theorem constant_confined {v : Cell} : ConfinedFrom bounded V o (constant v) := by
  intro p hp c hc
  cases lowers_pure.1 hc
  exact Confined.track p (i := 0) track_literal

theorem onPair_confined {operation : Code} (ho : operation.track 0 = some 1) (ha : ConfinedFrom bounded V o a)
    (hb : ConfinedFrom bounded V o b) : ConfinedFrom bounded V o (onPair operation a b) := by
  intro p hp c hc
  obtain ⟨c₁, c₂, h₁, h₂, rfl⟩ := lowers_onPair hc
  have hpair : Confined bounded V p p (p + 2) (c₁ ++ c₂) :=
    (ha p hp c₁ h₁).append ((hb (p + 1) (by omega) c₂ h₂).narrow (Nat.le_succ p))
  exact (hpair.follow (j := 0) rfl (Nat.le_refl p)).follow ho (Nat.le_refl p)

theorem onDivisor_confined {operation : Bool → Code} {divisor : Option Cell} {position : Position}
    (ho : ∀ check, (operation check).track 0 = some 1) (ha : ConfinedFrom bounded V o a)
    (hb : ConfinedFrom bounded V o b) : ConfinedFrom bounded V o (onDivisor operation divisor position a b) :=
  fun p hp c hc => onPair_confined (ho _) ha hb p hp c (lowers_onDivisor hc).2

theorem binary_confined {op : BinaryOp} {divisor : Option Cell} {position : Position}
    (ha : ConfinedFrom bounded V o a) (hb : ConfinedFrom bounded V o b) :
    ConfinedFrom bounded V o (binary op divisor position a b) := by
  cases op with
  | and =>
    intro p hp c hc
    obtain ⟨c₁, h₁, hc⟩ := hc.bind
    obtain ⟨c₂, h₂, hc⟩ := hc.bind
    cases lowers_pure.1 hc
    exact andThen_confined (Nat.le_refl p) (ha p hp c₁ h₁)
      ((hb (p + 2) (by omega) c₂ h₂).narrow (Nat.le_add_right p 2))
  | or =>
    intro p hp c hc
    obtain ⟨c₁, h₁, hc⟩ := hc.bind
    obtain ⟨c₂, h₂, hc⟩ := hc.bind
    cases lowers_pure.1 hc
    exact orElse_confined (Nat.le_refl p) (ha p hp c₁ h₁)
      ((hb (p + 3) (by omega) c₂ h₂).narrow (Nat.le_add_right p 3))
  | divide => exact onDivisor_confined (fun _ => track_divide) ha hb
  | modulo => exact onDivisor_confined (fun _ => track_modulo) ha hb
  | add | subtract | multiply | equal | notEqual | less | lessOrEqual | greater | greaterOrEqual | bitAnd | bitOr
  | bitXor | shiftLeft | shiftRight => exact onPair_confined rfl ha hb

theorem unary_confined {op : UnaryOp} (ha : ConfinedFrom bounded V o a) : ConfinedFrom bounded V o (unary op a) := by
  have hone {operation : Code} (ho : operation.track 0 = some 1) :
      ConfinedFrom bounded V o fun p => return (← a p) ++ left 1 ++ operation := by
    intro p hp c hc
    obtain ⟨c₁, h₁, hc⟩ := hc.bind
    cases lowers_pure.1 hc
    exact ((ha p hp c₁ h₁).follow (j := 0) rfl (Nat.le_refl p)).follow ho (Nat.le_refl p)
  cases op with
  | negate => exact onPair_confined rfl constant_confined ha
  | not | complement => exact hone rfl

/-! ### Places -/

theorem term_confined {t : Term CodeAt} (h : ConfinedFrom bounded V o t.code) :
    ConfinedFrom bounded V o (term t) := by
  rw [term]
  split
  · exact h
  · exact onPair_confined rfl h constant_confined

theorem sum_confined {ts : List (Term CodeAt)} (ha : ConfinedFrom bounded V o a)
    (h : ∀ t ∈ ts, ConfinedFrom bounded V o t.code) : ConfinedFrom bounded V o (sum a ts) := by
  induction ts generalizing a with
  | nil => exact ha
  | cons t ts ih =>
    obtain ⟨ht, hts⟩ := List.forall_mem_cons.1 h
    exact ih (onPair_confined rfl ha (term_confined ht)) hts

variable {scopes : Scopes} {name : String} {position : Position} {P : List (Selector (Index CodeAt))} {v : Variable}
  {place : Place CodeAt} {f g : Cell → Cell}

/-- A cell among those of a variable that is left of `o`. -/
structure Selects (o : Nat) (v : Variable) (place : Place CodeAt) : Prop where
  start : v.cell ≤ place.base
  stop : place.stop = v.stop
  left : v.stop ≤ o
  fixed : place.terms = [] → place.base < v.stop

theorem selects_of_lowers (h : Lowers (Lowering.place scopes name P position) place)
    (hcell : place.shape.isCell = true) (hbelow : ∀ name v, scopes.find? name = some v → v.stop ≤ o)
    (htypes : ∀ name v, scopes.find? name = some v → v.shape.type.Sound) :
    ∃ v, scopes.find? name = some v ∧ Selects o v place ∧ ∀ t ∈ place.terms, ∃ i ∈ indexed P, i.code = t.code := by
  obtain ⟨v, hv, hp⟩ := lowers_place h
  refine ⟨v, hv, ⟨Place.ofPath_le hp, Place.ofPath_stop hp, hbelow name v hv, fun ht => ?_⟩,
    fun t => Place.code_of_mem_terms hp⟩
  have hle := Place.ofPath_inside hp (.inl ht) (htypes name v hv)
  rw [isCell_size hcell] at hle
  exact hle

/-- An access changes no cell but its own, and not that either if it keeps its value. -/
theorem Accesses.unchanged {x : Nat} {w : Cell} {s t : Config} (h : Accesses p x f w s t) (hV : V x ∨ f = id) :
    ∀ y < p, ¬ V y → t.cells y = s.cells y := by
  intro y hy hVy
  rw [h.below y hy]
  split
  next hyx =>
    rcases hV with hVx | rfl
    · exact absurd (hyx ▸ hVx) hVy
    · rw [hyx, id]
  next => rfl

theorem onPlace_confined {work : Nat → Code} (hplace : Selects o v place)
    (hterms : ∀ t ∈ place.terms, ConfinedFrom bounded V o t.code) (hw : ∀ n, 0 < n → Work 0 n (work n) f g)
    (hpromise : ∀ n, (work n).promiseless = true) (hV : ∀ x, v.Covers x → V x ∨ f = id) :
    ConfinedFrom bounded V o (onPlace place work) := by
  intro p hp c hc
  have hstop := hplace.left
  rw [onPlace] at hc
  split at hc
  next ht =>
    cases lowers_pure.1 hc
    have hbase := hplace.fixed ht
    refine .of_runs (hpromise _) fun s hs => ?_
    obtain ⟨t, ht, ha⟩ := (hw (p - place.base) (by omega)).accesses (s := s) (by omega)
    rw [hs, show p - (p - place.base) = place.base by omega] at ha
    exact ⟨t, ht, ha.head, Accesses.unchanged ha (hV _ ⟨hplace.start, hbase⟩)⟩
  next t ts ht =>
    obtain ⟨d, hd, hc⟩ := hc.bind
    cases lowers_pure.1 hc
    rw [ht] at hterms
    obtain ⟨hfirst, hrest⟩ := List.forall_mem_cons.1 hterms
    have hdistance := sum_confined (term_confined hfirst) hrest p hp d hd
    intro s hs
    simp only [Code.checked_append, bind_assoc]
    refine (hdistance s hs).bind fun _ hu => within_ensures.bind ?_
    obtain ⟨hu, hsu⟩ := hu
    rintro u ⟨rfl, hpos, hlt⟩
    rw [hplace.stop] at hpos hlt
    rw [hu, Nat.add_sub_cancel] at hlt
    obtain ⟨t', ht', ha⟩ := walk_accesses (Nat.zero_le place.base) (p := p) (by omega) hu
      (hw (p + 2 - place.base) (by omega))
    have hcode : (walkRight ++ work (p + 2 - place.base) ++ left 1 ++ bringBack).promiseless = true := by
      simp only [promiseless_append, hpromise, Bool.and_true]
      rfl
    have hchecked := ht'.checked hcode bounded
    simp only [Code.checked_append, bind_assoc] at hchecked
    refine .of_ends hchecked ⟨ha.head, fun hbounded x hx hVx => ?_⟩
    have := hlt hbounded
    have hin : v.Covers (place.base + (u.cells p).toNat) :=
      ⟨Nat.le_trans hplace.start (Nat.le_add_right _ _), by omega⟩
    rw [Accesses.unchanged ha (hV _ hin) x hx hVx, hsu hbounded x hx hVx]

/-- What is known of the places of a name, where `V` has the cells of its variable. -/
structure Reaches (bounded : Bool) (V : Nat → Prop) (o : Nat) (scopes : Scopes) (P : List (Selector (Index CodeAt))) :
    Prop where
  below : ∀ name v, scopes.find? name = some v → v.stop ≤ o
  types : ∀ name v, scopes.find? name = some v → v.shape.type.Sound
  indices : ∀ i ∈ indexed P, ConfinedFrom bounded V o i.code

theorem Reaches.selects (h : Reaches bounded V o scopes P)
    (hplace : Lowers (Lowering.place scopes name P position) place)
    (hcell : place.shape.isCell = true) : ∃ v, scopes.find? name = some v ∧ Selects o v place ∧
      ∀ t ∈ place.terms, ConfinedFrom bounded V o t.code := by
  obtain ⟨v, hv, hselects, hterms⟩ := selects_of_lowers hplace hcell h.below h.types
  refine ⟨v, hv, hselects, fun t ht => ?_⟩
  obtain ⟨i, hi, hcode⟩ := hterms t ht
  exact hcode ▸ h.indices i hi

theorem read_confined (h : Reaches bounded V o scopes P) :
    ConfinedFrom bounded V o (Lowering.read scopes name P position) := by
  intro p hp c hc
  obtain ⟨place, hplace, hc⟩ := hc.bind
  obtain ⟨hcell, hc⟩ := Lowers.of_guard hc fun _ => not_lowers_fail
  obtain ⟨v, -, hselects, hterms⟩ := h.selects hplace (by simpa using hcell)
  exact onPlace_confined hselects hterms (fun _ => copyFrom_work) (fun _ => rfl) (fun _ _ => .inr rfl) p hp c hc

theorem update_confined {op : UpdateOp} {before : Bool} (h : Reaches bounded V o scopes P)
    (hV : ∀ v, scopes.find? name = some v → ∀ x, v.Covers x → V x) :
    ConfinedFrom bounded V o (Lowering.update scopes name P position op before) := by
  intro p hp c hc
  obtain ⟨place, hplace, hc⟩ := hc.bind
  obtain ⟨hcell, hc⟩ := Lowers.of_guard hc fun _ => not_lowers_fail
  obtain ⟨v, hv, hselects, hterms⟩ := h.selects hplace (by simpa using hcell)
  have hin (x : Nat) (hx : v.Covers x) : V x ∨ (Lowering.change op).apply = id := .inl (hV v hv x hx)
  cases before with
  | true =>
    exact onPlace_confined hselects hterms (fun _ => updateThenRead_work _) (fun _ => by cases op <;> rfl) hin p hp c hc
  | false =>
    exact onPlace_confined hselects hterms (fun _ => readThenUpdate_work _) (fun _ => by cases op <;> rfl) hin p hp c hc

/-- An index and a value, with an empty cell between them. -/
theorem indexed_value_ensures {n : Nat} {d e : Code} {s : Config} (hd : Confined bounded V p p (p + 1) d)
    (he : Confined bounded V (p + 2) (p + 2) (p + 3) e) (hV : ∀ x, V x → x < p) (hs : s.head = p) :
    ((d ++ within n ++ clear ++ right 1 ++ e).checked bounded s).Ensures (Breach.Expected bounded) fun t =>
      t.head = p + 3 ∧ 0 < n ∧ (bounded = true → (t.cells p).toNat < n ∧ t.cells (p + 1) = 0 ∧
        ∀ x < p, ¬ V x → t.cells x = s.cells x) := by
  simp only [Code.checked_append, bind_assoc]
  refine (hd s hs).bind fun _ ⟨hu, hsu⟩ => within_ensures.bind ?_
  rintro u ⟨rfl, hpos, hlt⟩
  rw [hu, Nat.add_sub_cancel] at hlt
  have hclear : Runs 0 (clear ++ right 1) u ((u.put (p + 1) 0).goto (p + 2)) :=
    (runs_clear.2 rfl).append (runs_right.2 (by simp [store_def, hu]))
  have hchecked := hclear.checked rfl bounded
  have hrest := (Comp.Ensures.of_ends (E := Breach.Expected bounded) hchecked rfl).bind
    (Q := fun t => t.head = p + 3 ∧ 0 < n ∧ (bounded = true → (t.cells p).toNat < n ∧ t.cells (p + 1) = 0 ∧
        ∀ x < p, ¬ V x → t.cells x = s.cells x)) (f := e.checked bounded) ?_
  · simpa only [Code.checked_append, bind_assoc] using hrest
  rintro t rfl
  refine (he _ rfl).mono fun t ⟨ht, hut⟩ => ⟨ht, hpos, fun hbounded => ?_⟩
  have hcell (x : Nat) (hx : x < p + 2) (hVx : ¬ V x) : t.cells x = if x = p + 1 then 0 else u.cells x := by
    rw [hut hbounded x hx hVx, cells_goto, cells_put]
  refine ⟨?_, ?_, fun x hx hVx => ?_⟩
  · rw [hcell p (by omega) fun h => absurd (hV p h) (by omega), if_neg (by omega)]
    exact hlt hbounded
  · rw [hcell (p + 1) (by omega) fun h => absurd (hV _ h) (by omega), if_pos rfl]
  · rw [hcell x (by omega) hVx, if_neg (by omega), hsu hbounded x hx hVx]

/-- A value is carried to its place if the cell left of it is empty. -/
theorem carried_ensures {base : Nat} {s : Config} (hb : base < p) (hs : s.head = p + 3)
    (h0 : bounded = true → s.cells (p + 1) = 0) :
    ((walkRightCarrying ++ copyTo (p + 2 - base) ++ bringBack).checked bounded s).Ensures (Breach.Expected bounded)
      fun t => ∃ f v, Accesses p (base + (s.cells p).toNat) f v s t := by
  have hcell : s.head - 2 = p + 1 := by omega
  simp only [walkRightCarrying, Code.checked_append, bind_assoc]
  refine (vacant_ensures (by rwa [hcell])).bind ?_
  rintro u ⟨rfl, hvacant⟩
  rw [hcell] at hvacant
  obtain ⟨t, ht, ha⟩ := walk_stores (Nat.zero_le base) hb hs hvacant
  have hruns : Runs 0 (left 3 ++ loop (right 3 ++ clear ++ left 1 ++ pourRight 1 1 ++ left 1 ++ inc 1 ++
      pourRight 1 1 ++ left 1 ++ dec 1 ++ pourRight 1 1 ++ right 1) ++ right 2 ++ copyTo (p + 2 - base) ++ bringBack)
      u t := by
    simpa only [walkRightCarrying, runs_append, runs_vacant, exists_eq_left] using ht
  have hchecked := hruns.checked rfl bounded
  simp only [Code.checked_append, bind_assoc] at hchecked ⊢
  exact .of_ends hchecked ⟨_, _, ha⟩

theorem assign_confined {value : CodeAt} (h : Reaches bounded V o scopes P) (hvalue : ConfinedFrom bounded V o value)
    (hV : ∀ v, scopes.find? name = some v → ∀ x, v.Covers x → V x) (hVo : ∀ x, V x → x < o) :
    ConfinedFrom bounded V o (Lowering.assign scopes name P position value) := by
  intro p hp c hc
  obtain ⟨place, hplace, hc⟩ := hc.bind
  obtain ⟨hcell, hc⟩ := Lowers.of_guard hc fun _ => not_lowers_fail
  obtain ⟨v, hv, hselects, hterms⟩ := h.selects hplace (by simpa using hcell)
  have hstop := hselects.left
  split at hc
  next ht =>
    obtain ⟨d, hd, hc⟩ := hc.bind
    cases lowers_pure.1 hc
    have hbase := hselects.fixed ht
    have hcopy : Confined bounded V p (p + 0) (p + 0) (copyTo (p - place.base)) := by
      refine .of_runs rfl fun s hs => ⟨_, (runs_copyTo (by omega) (by omega)).2 rfl, hs, fun x hx hVx => ?_⟩
      rw [cells_put_of_ne (by omega), cells_put_of_ne]
      rintro rfl
      exact hVx (hV v hv _ ⟨by have := hselects.start; omega, by omega⟩)
    exact (((hvalue p hp d hd).follow rfl (Nat.le_refl p)).append hcopy).follow rfl (Nat.le_refl p)
  next t ts ht =>
    obtain ⟨d, hd, hc⟩ := hc.bind
    obtain ⟨e, he, hc⟩ := hc.bind
    cases lowers_pure.1 hc
    rw [ht] at hterms
    obtain ⟨hfirst, hrest⟩ := List.forall_mem_cons.1 hterms
    have hdistance := sum_confined (term_confined hfirst) hrest p hp d hd
    intro s hs
    have hstart := indexed_value_ensures (n := place.stop - place.base) hdistance (hvalue (p + 2) (by omega) e he)
      (fun x hx => Nat.lt_of_lt_of_le (hVo x hx) hp) hs
    have hall := hstart.bind (f := fun u =>
      (walkRightCarrying ++ copyTo (p + 2 - place.base) ++ bringBack).checked bounded u)
      (Q := fun t => t.head = p + 1 ∧ (bounded = true → ∀ x < p, ¬ V x → t.cells x = s.cells x)) ?_
    · simpa only [Code.checked_append, bind_assoc] using hall
    rintro u ⟨hu, hpos, hin⟩
    rw [hselects.stop] at hpos hin
    refine (carried_ensures (by omega) hu fun hbounded => (hin hbounded).2.1).mono ?_
    rintro t ⟨f, w, ha⟩
    refine ⟨ha.head, fun hbounded x hx hVx => ?_⟩
    obtain ⟨hlt, -, hsu⟩ := hin hbounded
    rw [ha.below x hx, if_neg, hsu x hx hVx]
    rintro rfl
    exact hVx (hV v hv _ ⟨Nat.le_trans hselects.start (Nat.le_add_right _ _), by omega⟩)

/-! ### Contents -/

theorem content_confined {cell : Content Leaf} (h : ∀ e, cell = .value e → ConfinedFrom bounded V o e.code) :
    ConfinedFrom bounded V o (Content.code cell) := by
  cases cell with
  | byte v => exact constant_confined
  | value e => exact h e rfl

theorem store_confined {cells : List (Content Leaf)} {base : Nat}
    (h : ∀ e, .value e ∈ cells → ConfinedFrom bounded V o e.code) (hp : o ≤ p) (hb : base + cells.length ≤ p)
    (hV : ∀ x, base ≤ x → x < base + cells.length → V x) (hc : Lowers (Lowering.store base p cells) c) :
    Confined bounded V p p p c := by
  induction cells generalizing base c with
  | nil =>
    cases lowers_pure.1 hc
    exact Confined.track p (i := 0) (j := 0) rfl
  | cons cell cells ih =>
    obtain ⟨c₁, h₁, hc⟩ := hc.bind
    obtain ⟨c₂, h₂, hc⟩ := hc.bind
    cases lowers_pure.1 hc
    rw [List.length_cons] at hb hV
    have hcell := content_confined (fun e he => h e (he ▸ List.mem_cons_self)) p hp c₁ h₁
    have hmove : Confined bounded V p (p + 0) (p + 0) (moveTo (p - base)) := by
      refine .of_runs rfl fun s hs => ⟨_, (runs_moveTo (by omega) (by omega)).2 rfl, hs, fun x hx hVx => ?_⟩
      rw [cells_put_of_ne (by omega), cells_put_of_ne]
      rintro rfl
      exact hVx (hV _ (by omega) (by omega))
    exact ((hcell.follow rfl (Nat.le_refl p)).append hmove).append
      (ih (fun e he => h e (List.mem_cons_of_mem _ he)) (by omega) (fun x hx hlt => hV x (by omega) (by omega)) h₂)

theorem fill_confined {i : Initializer Leaf} (h : Reaches bounded V o scopes P)
    (hi : ∀ e ∈ i.leaves, ConfinedFrom bounded V o e.code)
    (hV : ∀ v, scopes.find? name = some v → ∀ x, v.Covers x → V x) :
    ConfinedFrom bounded V o (Lowering.fill scopes name P position i) := by
  intro p hp c hc
  obtain ⟨place, hplace, hc⟩ := hc.bind
  obtain ⟨hterms, hc⟩ := Lowers.of_guard hc fun _ => not_lowers_fail
  obtain ⟨cells, hcells, hc⟩ := hc.bind
  obtain ⟨c₁, h₁, hc⟩ := hc.bind
  cases lowers_pure.1 hc
  obtain ⟨v, hv, hpath⟩ := lowers_place hplace
  have hcells := lowers_lift.1 hcells
  have hinside := Place.ofPath_inside hpath (.inl (by simpa using hterms)) (h.types name v hv)
  have hstart := Place.ofPath_le hpath
  have hstop := h.below name v hv
  have hlength := length_layOutContents hcells
  have hstore := store_confined (fun e he => hi e (mem_layOutContents hcells he)) hp (by omega)
    (fun x hx hlt => hV v hv x ⟨by omega, by omega⟩) h₁
  exact (hstore.follow (i := 0) rfl (Nat.le_refl p)).follow rfl (Nat.le_refl p)

/-! ### Calls -/

variable {act : Activation}

theorem arguments_confined {as : List CodeAt} (h : ∀ a ∈ as, ConfinedFrom bounded V o a) (hp : o ≤ p)
    (hc : Lowers (Lowering.arguments p as) c) : Confined bounded V p p (p + as.length) c := by
  induction as generalizing p c with
  | nil =>
    cases lowers_pure.1 hc
    exact Confined.track p (i := 0) (j := 0) rfl
  | cons a as ih =>
    obtain ⟨c₁, h₁, hc⟩ := hc.bind
    obtain ⟨c₂, h₂, hc⟩ := hc.bind
    cases lowers_pure.1 hc
    obtain ⟨ha, has⟩ := List.forall_mem_cons.1 h
    rw [List.length_cons, Nat.add_comm as.length, ← Nat.add_assoc]
    exact (ha p hp c₁ h₁).append ((ih has (by omega) h₂).narrow (Nat.le_succ p))

theorem builtin_confined (b : Builtin) : Confined bounded V p p p b.body := by
  cases b with
  | printInt =>
    refine .of_runs (by decide) fun s hs => ?_
    have hs' : s = s.window s.head [s.cell, s.cells (s.head + 1), s.cells (s.head + 2),
        s.cells (s.head + 3), s.cells (s.head + 4), s.cells (s.head + 5), s.cells (s.head + 6),
        s.cells (s.head + 7), s.cells (s.head + 8), s.cells (s.head + 9)] 0 := eq_window s 10
    have hruns : Runs 0 Builtin.printInt.body s ((s.emit (Builtin.digits (s.cells (s.head + 1)))).window s.head
        [s.cell, 0, 0, 0, 0, 0, 0, 0, 0, 0] 0) := by
      conv => arg 3; rw [hs']
      exact (Builtin.runs_printInt (Nat.zero_le _)).2 rfl
    exact ⟨_, hruns, hs, fun x hx _ => by rw [cells_window_of_lt (by omega), cells_emit]⟩
  | readInt | readChar | printChar => exact Confined.track p (i := 0) (j := 0) rfl

/-- Called functions change nothing left of where they are expanded but global variables. -/
def Contained (bounded : Bool) (act : Activation) : Prop :=
  ∀ d position q c, Prepared act.definitions q → Lowers (act.inline d position q) c →
    Confined bounded (act.definitions.Touches d) q q q c

theorem call_confined {args : List CodeAt} (hact : Contained bounded act) (hprepared : Prepared act.definitions o)
    (hargs : ∀ a ∈ args, ConfinedFrom bounded V o a)
    (hV : ∀ d, act.definitions.callable? name = some (.defined d) → ∀ x, act.definitions.Touches d x → V x) :
    ConfinedFrom bounded V o (Lowering.call act name args position) := by
  intro p hp c hc
  rw [call] at hc
  split at hc
  next callable hcallable =>
    obtain ⟨-, hc⟩ := Lowers.of_guard hc fun _ => not_lowers_fail
    obtain ⟨args', hargs', hc⟩ := hc.bind
    -- the code around that of the function
    suffices h : ∃ body, c = clear ++ right 1 ++ args' ++ left (args.length + 1) ++ body ++ right 1 ∧
        Confined bounded V p p p body by
      obtain ⟨body, rfl, hbody⟩ := h
      have hstart : Confined bounded V p p (p + (1 + args.length)) (clear ++ right 1 ++ args') := by
        rw [← Nat.add_assoc]
        exact (Confined.track p (i := 0) rfl).append
          ((arguments_confined hargs (by omega) hargs').narrow (Nat.le_succ p))
      have hback : (left (args.length + 1)).track (1 + args.length) = some 0 := by
        rw [track_left (by omega), Nat.add_comm, Nat.sub_self]
      exact ((hstart.follow hback (Nat.le_refl p)).append hbody).follow (i := 0) rfl (Nat.le_refl p)
    cases callable with
    | builtin b => exact ⟨b.body, lowers_pure.1 hc, builtin_confined b⟩
    | defined d =>
      obtain ⟨body, hbody, hc⟩ := hc.bind
      have hbody := hact d position p body (hprepared.mono hp) hbody
      exact ⟨body, lowers_pure.1 hc, hbody.mono (Nat.le_refl p) fun x _ => hV d hcallable x⟩
  next => exact absurd hc not_lowers_fail

/-! ### Expressions -/

theorem indices_confined {path : List (Selector Expr)}
    (h : ∀ e ∈ indexed path, ConfinedFrom bounded V o (expr act scopes e)) :
    ∀ i ∈ indexed (indices act scopes path), ConfinedFrom bounded V o i.code := by
  rw [indexed_indices]
  exact List.forall_mem_map.2 h

/-- What a part of an expression may change the expression may. -/
theorem ConfinedFrom.of_part {e t : Expr} (ht : t ∈ e.parts) (h : ConfinedFrom bounded (Writable act scopes t.Does) o a) :
    ConfinedFrom bounded (Writable act scopes e.Does) o a :=
  h.mono fun _ hx => hx.mono fun _ hdoes => hdoes.of_part ht

/-- The indices of a target. -/
theorem reaches_of_target {e : Expr} {name : String} {path : List (Selector Expr)} {position : Position}
    (hs : Settled act scopes) (ht : .access name path position ∈ e.parts) (ih : ∀ t ∈ indexed path,
      ConfinedFrom bounded (Writable act scopes t.Does) scopes.offset (expr act scopes t)) :
    Reaches bounded (Writable act scopes e.Does) scopes.offset scopes (indices act scopes path) :=
  ⟨hs.below, hs.types, indices_confined fun t hmem =>
    ((ih t hmem).of_part (e := .access name path position) hmem).of_part ht⟩

theorem writable_of_assigns {e : Expr} {name : String} (he : e.effect? = some (.assigns name)) :
    ∀ v, scopes.find? name = some v → ∀ x, v.Covers x → Writable act scopes e.Does x :=
  fun v hv _ hx => ⟨_, .of_effect? he, v, hv, hx⟩

theorem notAssignable_confined {operation : String} {e : Expr} : ConfinedFrom bounded V o (notAssignable operation e) :=
  fun _ _ _ hc => absurd hc not_lowers_fail

/-- Code for an expression changes, left of where it starts, only what the expression may. -/
theorem expr_confined (hs : Settled act scopes) (hact : Contained bounded act) (e : Expr) :
    ConfinedFrom bounded (Writable act scopes e.Does) scopes.offset (expr act scopes e) := by
  induction e using Expr.induct with
  | number n _ => exact constant_confined
  | char c _ => exact constant_confined
  | bool b _ => exact constant_confined
  | access name path _ ih =>
    exact read_confined ⟨hs.below, hs.types, indices_confined fun t ht => (ih t ht).of_part ht⟩
  | binary op a b _ iha ihb =>
    exact binary_confined (iha.of_part List.mem_cons_self) (ihb.of_part (List.mem_cons_of_mem _ List.mem_cons_self))
  | unary op e _ ih => exact unary_confined (ih.of_part List.mem_cons_self)
  | update op before target _ _ ih =>
    cases target with
    | access name path position =>
      exact update_confined (reaches_of_target hs List.mem_cons_self ih) (writable_of_assigns rfl)
    | _ => exact notAssignable_confined
  | assign target op value position iht ih ihv =>
    have hvalue := ihv.of_part (e := .assign target op value position) (List.mem_cons_of_mem _ List.mem_cons_self)
    cases target with
    | access name path start =>
      have hplace := reaches_of_target (e := .assign (.access name path start) op value position) hs List.mem_cons_self ih
      cases op with
      | none => exact assign_confined hplace hvalue (writable_of_assigns rfl) fun x hx => hs.writable_lt hx
      | some op =>
        exact assign_confined hplace (binary_confined (iht.of_part List.mem_cons_self) hvalue) (writable_of_assigns rfl)
          fun x hx => hs.writable_lt hx
    | _ => cases op <;> exact notAssignable_confined
  | fill target contents _ _ ih ihc =>
    cases target with
    | access name path position =>
      rw [expr, leaves_eq]
      refine fill_confined (reaches_of_target hs List.mem_cons_self ih) (fun e he => ?_) (writable_of_assigns rfl)
      rw [Initializer.leaves_map] at he
      obtain ⟨t, ht, rfl⟩ := List.mem_map.1 he
      exact (ihc t ht).of_part (List.mem_cons_of_mem _ ht)
    | _ => exact notAssignable_confined
  | call name args _ ih =>
    rw [expr, exprs_eq]
    refine call_confined hact hs.prepared (fun a ha => ?_) fun d hd x hx => ⟨_, .of_effect? rfl, d, hd, hx⟩
    obtain ⟨t, ht, rfl⟩ := List.mem_map.1 ha
    exact (ih t ht).of_part ht

end TapeC.Lowering
