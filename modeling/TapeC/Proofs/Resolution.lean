import TapeC.Proofs.Access
import TapeC.Proofs.Assertion
import TapeC.Proofs.Route

/-! The element that an access path selects in a declared variable. Fields and constant indices are
added up when the path is lowered, and the other indices make a sum that the code computes in a cell;
the sum is not too large for a cell if the variable is not. A number that is an index is taken modulo
the number of cell values before it is compared with the length of its dimension. -/

namespace TapeC

open Layout Program Tape Routine Lowering

/-! ### Terms and legs -/

namespace Layout

variable {κ μ : Type} {value : κ → Nat} {P : List (Selector (Index κ))} {ways : List (Leg (Index κ))}
  {v : Variable} {t : Shape} {p : Place κ} {position : Position}

theorem weighted_map {f : κ → μ} {ts : List (Term κ)} {vs : List Cell} :
    weighted (ts.map (Term.map f)) vs = weighted ts vs := by
  induction ts generalizing vs with
  | nil => rfl
  | cons t ts ih =>
    cases vs with
    | nil => rfl
    | cons v vs => rw [List.map_cons, weighted, weighted, ih, Term.map]

theorem isSome_term? (leg : Leg (Index κ)) : leg.term?.isSome = leg.isOpen := by
  match leg with
  | .field _ | .index ⟨none, _, _⟩ _ _ | .index ⟨some _, _, _⟩ _ _ => rfl

theorem terms_eq_nil : ways.filterMap Leg.term? = [] ↔ ways.filter Leg.isOpen = [] := by
  simp [← isSome_term?]

/-- A cell holds the sum of the legs that are not known, but for its carries. -/
theorem weighted_legs : weighted (ways.filterMap Leg.term?)
    ((ways.filterMap Leg.term?).map fun t => .ofNat (value t.code)) =
      .ofNat (passed (fun i => value i.code) (ways.filter Leg.isOpen)) := by
  induction ways with
  | nil => rfl
  | cons leg ways ih =>
    match leg with
    | .field offset =>
      rw [List.filterMap_cons_none rfl, List.filter_cons_of_neg (by simp [Leg.isOpen]), ih]
    | .index ⟨some n, q, code⟩ length stride =>
      rw [List.filterMap_cons_none rfl, List.filter_cons_of_neg (by simp [Leg.isOpen]), ih]
    | .index ⟨none, q, code⟩ length stride =>
      have hterm : Leg.term? (.index ⟨none, q, code⟩ length stride : Leg (Index κ)) = some ⟨code, stride⟩ := rfl
      rw [List.filterMap_cons_some hterm, List.filter_cons_of_pos (by simp [Leg.isOpen]), List.map_cons, weighted, ih,
        passed_cons, Leg.cells, UInt8.ofNat_add, UInt8.ofNat_mul, cell_ofInt_natCast]

/-- A place is reached by the terms with their values, and what is selected there lies inside the
variable. -/
theorem Place.ofPath_reaches (value : κ → Nat) (hway : Leads v.shape P ways t) (hpacked : v.shape.type.Packed)
    (hp : Place.ofPath v position P = .ok p)
    (hknown : ∀ i length stride, .index i length stride ∈ ways → ∀ n, i.constant = some n → value i.code = n.toNat)
    (hopen : ∀ i length stride, .index i length stride ∈ ways → i.constant = none → value i.code < length)
    (hsize : v.size ≤ Cell.modulus ∨ runtime P = []) :
    p.base + (weighted p.terms ((runtime P).map fun code => .ofNat (value code))).toNat =
        v.cell + passed (fun i => value i.code) ways ∧
      v.cell + passed (fun i => value i.code) ways + t.size ≤ v.stop := by
  have hterms := Place.ofPath_terms hp
  rw [Place.ofPath_of_leads hway hpacked] at hp
  split at hp
  · cases hp
  next hfault =>
    cases hp
    have hinside : ∀ leg ∈ ways, leg.Inside fun i => value i.code := by
      intro leg hleg
      match leg with
      | .field offset => trivial
      | .index i length stride =>
        cases hi : i.constant with
        | none => exact hopen i length stride hleg hi
        | some n =>
          have hlt := Leg.fault?_eq_none.1 (List.findSome?_eq_none_iff.1 hfault _ hleg) n hi
          rw [Leg.Inside, hknown i length stride hleg n hi]
          exact hlt
    have hend := hway.inside hinside
    have hsplit := passed_known hknown
    -- each open leg counts in steps of the element that it leads to, so all of them end before the variable does
    have hsmall : passed (fun i => value i.code) (ways.filter Leg.isOpen) < Cell.modulus := by
      rcases hsize with hsize | hnone
      · have hsum := hway.passed_filter_lt Leg.isOpen (fun _ => rfl) hinside
        have hmodulus : 0 < Cell.modulus := by decide
        have hshape : v.size = v.shape.size := rfl
        omega
      · have hnil : ways.filterMap Leg.term? = [] := List.map_eq_nil_iff.1 (hterms.trans hnone)
        rw [terms_eq_nil.1 hnil]
        exact Nat.two_pow_pos 8
    have hvalues : (runtime P).map (fun code => UInt8.ofNat (value code)) =
        (ways.filterMap Leg.term?).map fun t => .ofNat (value t.code) := by
      rw [← hterms, List.map_map]
      rfl
    rw [hvalues, weighted_legs, UInt8.toNat_ofNat_of_lt' hsmall]
    constructor
    · rw [hsplit, Nat.add_assoc]
    · rw [Variable.stop, Variable.size]
      omega

end Layout

namespace Lowering

variable {act : Activation} {scopes : Scopes} {name : String} {v : Variable} {path : List (Selector Expr)}
  {legs : List (Leg Expr)} {t : Shape} {position : Position} {warnings warnings' : List Warning}
  {selected : Place CodeAt}

/-! ### Places of paths -/

/-- An index with its code. -/
def index (act : Activation) (scopes : Scopes) (e : Expr) : Index CodeAt :=
  ⟨e.constant?, e.position, expr act scopes e⟩

/-- A walk to an index that is only known when the program runs is warned of if the variable is long. -/
def walkWarnings (name : String) (position : Position) (v : Variable) (terms : List (Term CodeAt)) : List Warning :=
  if !terms.isEmpty && walkReach < v.size then [⟨position, .longWalk name v.size⟩] else []

theorem place_run (hv : scopes.find? name = some v) (P : List (Selector (Index CodeAt))) :
    (place scopes name P position).run warnings =
      (Place.ofPath v position P).map fun p => (p, walkWarnings name position v p.terms ++ warnings) := by
  have hlookup : scopes.lookup name position = .ok v := by rw [Scopes.lookup, hv]
  rw [place, hlookup]
  change (do
    let p ← liftM (Place.ofPath v position P)
    if !p.terms.isEmpty && walkReach < v.size then warn position (.longWalk name v.size)
    return p : Lower (Place CodeAt)).run warnings = _
  cases Place.ofPath v position P with
  | error fault => rfl
  | ok p =>
    rw [Except.map, walkWarnings]
    change (if _ then _ else _ : Lower (Place CodeAt)).run warnings = _
    split <;> rfl

theorem name_of_find? (hv : scopes.find? name = some v) : v.name = name := by
  rw [Scopes.find?_eq] at hv
  simpa using List.find?_some hv

/-! ### Selected elements -/

/-- The value of an index, if it is known before the program runs: of a number the number itself, of any
other constant that of its cell. -/
def indexValue? : Expr → Option Nat
  | .number (.ofNat n) _ => some n
  | e => e.constant?.map UInt8.toNat

/-- An index beside its value. -/
def valuedIndex (x : Expr × Nat) : Index (Expr × Nat) := ⟨x.1.constant?, x.1.position, x⟩

/-- The values of the indices that are computed when the program runs. -/
def runtimeValues (chosen : List (Selector (Expr × Nat))) : List Cell :=
  ((indexed chosen).filter fun x => x.1.constant?.isNone).map fun x => .ofNat x.2

theorem indexValue?_of_constant {e : Expr} {c : Cell} (hnumber : ∀ (n : Nat) q, e = .number n q → n < Cell.modulus)
    (hc : e.constant? = some c) : indexValue? e = some c.toNat := by
  match e with
  | .number (.ofNat n) q =>
    cases hc
    have hn : n < UInt8.size := hnumber n q rfl
    have hcell : (Cell.ofInt n).toNat = n := by
      rw [cell_ofInt_natCast, UInt8.toNat_ofNat_of_lt' hn]
    exact congrArg some hcell.symm
  | .number (.negSucc n) q | .char _ _ | .bool _ _ | .unary _ _ _ | .binary _ _ _ _ | .access _ _ _
  | .update _ _ _ _ | .assign _ _ _ _ | .fill _ _ _ | .call _ _ _ =>
    rw [indexValue?, hc]
    · rfl
    · nofun

theorem indices_chosen {chosen : List (Selector (Expr × Nat))} (hchosen : chosen.map (Selector.map Prod.fst) = path) :
    indices act scopes path =
      (chosen.map (Selector.map valuedIndex)).map (Selector.map (Index.map fun x => expr act scopes x.1)) := by
  rw [indices_eq, ← hchosen, List.map_map, List.map_map]
  refine List.map_congr_left fun s _ => ?_
  cases s <;> rfl

theorem runtime_chosen (chosen : List (Selector (Expr × Nat))) :
    runtime (chosen.map (Selector.map valuedIndex)) = (indexed chosen).filter fun x => x.1.constant?.isNone := by
  rw [runtime_indexed, indexed_map, List.filter_map, List.map_map]
  exact List.map_id _

theorem runtime_ne_nil {e : Expr} (he : e ∈ indexed path) (hopen : e.constant? = none) :
    runtime (indices act scopes path) ≠ [] := by
  rw [runtime_indexed, indexed_indices]
  refine List.ne_nil_of_mem (List.mem_map_of_mem (List.mem_filter.2 ⟨List.mem_map_of_mem he, ?_⟩))
  exact Option.isNone_iff_eq_none.2 hopen

/-- A path with values has the place of the path with the code of its indices. -/
theorem ofPath_chosen {p : Place CodeAt} {chosen : List (Selector (Expr × Nat))}
    (hp : Place.ofPath v position (indices act scopes path) = .ok p)
    (hchosen : chosen.map (Selector.map Prod.fst) = path) :
    ∃ p', Place.ofPath v position (chosen.map (Selector.map valuedIndex)) = .ok p' ∧
      p'.map (fun x => expr act scopes x.1) = p := by
  rw [indices_chosen hchosen, Place.ofPath_map] at hp
  cases hp' : Place.ofPath v position (chosen.map (Selector.map valuedIndex)) with
  | error fault =>
    rw [hp'] at hp
    cases hp
  | ok p' =>
    rw [hp'] at hp
    cases hp
    exact ⟨p', rfl, rfl⟩

theorem exists_leads_chosen {p : Place CodeAt} {chosen : List (Selector (Expr × Nat))}
    (hp : Place.ofPath v position (indices act scopes path) = .ok p)
    (hchosen : chosen.map (Selector.map Prod.fst) = path) : ∃ legs, Leads v.shape chosen legs p.shape := by
  obtain ⟨p', hp', rfl⟩ := ofPath_chosen hp hchosen
  obtain ⟨ways, hways⟩ := Place.leads_of_ofPath hp'
  have hlegs := hways.map Index.code
  have hcodes : (chosen.map (Selector.map valuedIndex)).map (Selector.map Index.code) = chosen := by
    rw [List.map_map]
    exact List.map_id'' (fun s => by cases s <;> rfl) chosen
  rw [hcodes] at hlegs
  exact ⟨_, hlegs⟩

theorem ofPath_reaches_chosen {p : Place CodeAt} {chosen : List (Selector (Expr × Nat))}
    {legs : List (Leg (Expr × Nat))} (hpacked : v.shape.type.Packed)
    (hnumbers : ∀ (n : Nat) q, .number n q ∈ indexed path → n < Cell.modulus)
    (hp : Place.ofPath v position (indices act scopes path) = .ok p)
    (hchosen : chosen.map (Selector.map Prod.fst) = path)
    (hvalues : ∀ x ∈ indexed chosen, ∀ n, indexValue? x.1 = some n → x.2 = n)
    (hlegs : Leads v.shape chosen legs p.shape)
    (hopen : ∀ x length stride, .index x length stride ∈ legs → x.1.constant? = none → x.2 < length)
    (hsize : v.size ≤ Cell.modulus ∨ ∀ e ∈ indexed path, e.constant? ≠ none) :
    p.base + (weighted p.terms (runtimeValues chosen)).toNat = v.cell + passed Prod.snd legs ∧
      v.cell + passed Prod.snd legs + p.shape.size ≤ v.stop := by
  obtain ⟨p', hp', rfl⟩ := ofPath_chosen hp hchosen
  have hpath {x : Expr × Nat} (hx : x ∈ indexed chosen) : x.1 ∈ indexed path := by
    rw [← hchosen, indexed_map]
    exact List.mem_map_of_mem hx
  have hreach := Place.ofPath_reaches Prod.snd (hlegs.map valuedIndex) hpacked hp'
    (fun i length stride hi n hn => ?_) (fun i length stride hi hnone => ?_) (hsize.imp_right fun hall => ?_)
  · have hruntime : (runtime (chosen.map (Selector.map valuedIndex))).map (fun x => UInt8.ofNat x.2) =
        runtimeValues chosen := by rw [runtime_chosen, runtimeValues]
    rw [passed_map, hruntime] at hreach
    rw [Place.map, weighted_map]
    exact hreach
  · -- a number that fits a cell is the value of the cell
    obtain ⟨x, hx, rfl⟩ := mem_map_index.1 hi
    have hmem := hlegs.mem_indexed hx
    refine hvalues x hmem _ (indexValue?_of_constant (fun n q hnumber => hnumbers n q ?_) hn)
    exact hnumber ▸ hpath hmem
  · obtain ⟨x, hx, rfl⟩ := mem_map_index.1 hi
    exact hopen x length stride hx hnone
  · rw [runtime_chosen, List.filter_eq_nil_iff]
    exact fun x hx hnone => hall x.1 (hpath hx) (Option.isNone_iff_eq_none.1 hnone)

/-- The place that is found for an access path in a declared variable is the element at the end of the
way that the path leads: the sum that its code computes in a cell, added to the known part, gives the
cell there, for all values of the indices inside their dimensions, unless there are such indices and the
variable is longer than a walk, which is warned of. -/
theorem access_selects_element {defs : List StructDef} {structs : List StructLayout} {declared : Position}
    {type : TypeName} (hstructs : defs.foldlM Definitions.addStruct [] = .ok structs)
    (htype : resolveType structs declared type = .ok v.shape.type) (hv : scopes.find? name = some v)
    (hnumbers : ∀ (n : Nat) q, .number n q ∈ indexed path → n < Cell.modulus)
    (hplace : (place scopes name (indices act scopes path) position).run warnings = .ok (selected, warnings')) :
    selected.terms.map Term.code = runtime (indices act scopes path) ∧
    (∀ t ts, selected.terms = t :: ts → ∀ floor M p ys, floor ≤ p → M.Below p →
      TermsEvaluate floor M p (t :: ts) ys →
        EvaluatesAt floor M p (sum (term t) ts) (weighted (t :: ts) <$> Evaluation.arguments ys)) ∧
    (∀ chosen : List (Selector (Expr × Nat)), chosen.map (Selector.map Prod.fst) = path →
      (∀ x ∈ indexed chosen, ∀ n, indexValue? x.1 = some n → x.2 = n) →
      (∃ legs, Leads v.shape chosen legs selected.shape) ∧ ∀ legs, Leads v.shape chosen legs selected.shape →
        (∀ x length stride, .index x length stride ∈ legs → x.1.constant? = none → x.2 < length) →
        (v.size ≤ Cell.modulus ∨ ∀ e ∈ indexed path, e.constant? ≠ none) →
          selected.base + (weighted selected.terms (runtimeValues chosen)).toNat = v.cell + passed Prod.snd legs ∧
            v.cell + passed Prod.snd legs + selected.shape.size ≤ v.stop) ∧
    ((∃ e ∈ indexed path, e.constant? = none) → Cell.modulus < v.size →
      ⟨position, .longWalk name v.size⟩ ∈ warnings') := by
  rw [place_run hv] at hplace
  cases hp : Place.ofPath v position (indices act scopes path) with
  | error fault =>
    rw [hp] at hplace
    cases hplace
  | ok p =>
    rw [hp] at hplace
    cases hplace
    have hcodes := Place.ofPath_terms hp
    have hpacked := packed_of_declared hstructs htype
    refine ⟨hcodes, fun t ts _ floor M p ys hf hM h => distance_evaluatesAt hf hM h,
      fun chosen hchosen hvalues => ⟨exists_leads_chosen hp hchosen, fun legs hlegs hopen hsize =>
        ofPath_reaches_chosen hpacked hnumbers hp hchosen hvalues hlegs hopen hsize⟩,
      fun ⟨e, he, hopen⟩ hlong => ?_⟩
    have hterms : selected.terms ≠ [] := by
      intro hnil
      rw [hnil] at hcodes
      exact runtime_ne_nil he hopen hcodes.symm
    have hwarned : (!selected.terms.isEmpty && decide (walkReach < v.size)) = true := by
      rw [Bool.and_eq_true, decide_eq_true_iff]
      exact ⟨by simpa using hterms, hlong⟩
    rw [walkWarnings, if_pos hwarned]
    exact List.mem_cons_self

/-- `struct Buf { int len; int data[4]; }; struct Pair { struct Buf left; struct Buf right; };` -/
def pairStructs : List StructDef :=
  [⟨"Buf", [⟨.int, "len", [], .start⟩, ⟨.int, "data", [4], .start⟩], .start⟩,
    ⟨"Pair", [⟨.struct "Buf", "left", [], .start⟩, ⟨.struct "Buf", "right", [], .start⟩], .start⟩]

/-- The element `pairs[1].right.data[i]` of `struct Pair pairs[2];` behind `int i;`, where `i` is three. -/
theorem access_selects_element_of_pairs :
    let buf : ElementType := .struct "Buf" [⟨"len", .int, [], 0⟩, ⟨"data", .int, [4], 1⟩]
    let pair : ElementType := .struct "Pair" [⟨"left", buf, [], 0⟩, ⟨"right", buf, [], 5⟩]
    let scopes : Scopes := ⟨⟨0, 21, [⟨"pairs", ⟨pair, [2]⟩, 1⟩, ⟨"i", ⟨.int, []⟩, 0⟩]⟩, []⟩
    let act : Activation := ⟨{}, false, .void, 0, fun _ _ => constant 0⟩
    let i : Expr := .access "i" [] .start
    let path : List (Selector Expr) := [.index (.number 1 .start), .field "right", .field "data", .index i]
    let selected : Place CodeAt := ⟨17, [⟨expr act scopes i, 1⟩], ⟨.int, []⟩, 21⟩
    (place scopes "pairs" (indices act scopes path) .start).run [] = .ok (selected, []) ∧
      17 + (weighted selected.terms [3]).toNat = 1 + (1 * 10 + (5 + (1 + 3 * 1))) ∧
        1 + (1 * 10 + (5 + (1 + 3 * 1))) + 1 ≤ 21 := by
  intro buf pair scopes act i path selected
  let buffers : List StructLayout :=
    [⟨"Buf", [⟨"len", .int, [], 0⟩, ⟨"data", .int, [4], 1⟩]⟩,
      ⟨"Pair", [⟨"left", buf, [], 0⟩, ⟨"right", buf, [], 5⟩]⟩]
  let chosen : List (Selector (Expr × Nat)) :=
    [.index (.number 1 .start, 1), .field "right", .field "data", .index (i, 3)]
  have hstructs : pairStructs.foldlM Definitions.addStruct [] = .ok buffers := rfl
  have htype : resolveType buffers .start (.struct "Pair") = .ok pair := rfl
  have hplace : (place scopes "pairs" (indices act scopes path) .start).run [] = .ok (selected, []) := rfl
  have hnumbers : ∀ (n : Nat) q, .number n q ∈ indexed path → n < Cell.modulus := by
    intro n q hn
    rcases List.mem_cons.1 hn with hn | hn
    · cases n with
      | zero => cases hn
      | succ n =>
        cases hn
        decide
    · cases (List.mem_singleton.1 hn : Expr.number n q = .access "i" [] .start)
  obtain ⟨-, -, hselects, -⟩ := access_selects_element hstructs htype rfl hnumbers hplace
  have hvalues : ∀ x ∈ indexed chosen, ∀ n, indexValue? x.1 = some n → x.2 = n := by
    intro x hx n hn
    rcases List.mem_cons.1 hx with rfl | hx
    · cases hn
      rfl
    · cases List.mem_singleton.1 hx
      cases hn
  have hdata : Leads ⟨.int, [4]⟩ [.index (i, 3)] [.index (i, 3) 4 1] ⟨.int, []⟩ :=
    @Leads.rows _ .int [4] [(i, 3)] [] [] _ (by simp) rfl .here
  have hright : Leads ⟨buf, []⟩ [.field "data", .index (i, 3)] [.field 1, .index (i, 3) 4 1] ⟨.int, []⟩ :=
    @Leads.field _ "Buf" [⟨"len", .int, [], 0⟩] [] ⟨"data", .int, [4], 1⟩ _ _ _ (by simp) hdata
  have hpair : Leads ⟨pair, []⟩ (chosen.drop 1) [.field 5, .field 1, .index (i, 3) 4 1] ⟨.int, []⟩ :=
    @Leads.field _ "Pair" [⟨"left", buf, [], 0⟩] [] ⟨"right", buf, [], 5⟩ _ _ _ (by simp) hright
  have hway : Leads ⟨pair, [2]⟩ chosen
      [.index (.number 1 .start, 1) 2 10, .field 5, .field 1, .index (i, 3) 4 1] ⟨.int, []⟩ :=
    @Leads.rows _ pair [2] [(Expr.number 1 .start, 1)] _ _ _ (by simp) rfl hpair
  have hinside : ∀ (x : Expr × Nat) length stride, Leg.index x length stride ∈
      [.index (.number 1 .start, 1) 2 10, .field 5, .field 1, .index (i, 3) 4 1] →
        x.1.constant? = none → x.2 < length := by
    simp only [List.mem_cons, Leg.index.injEq, reduceCtorEq, false_or, List.not_mem_nil, or_false]
    rintro x length stride (⟨rfl, rfl, -⟩ | ⟨rfl, rfl, -⟩) hx
    · cases hx
    · decide
  exact ⟨hplace, (hselects chosen rfl hvalues).2 _ hway hinside (.inl (by decide))⟩

/-! ### Numbers as indices -/

/-- An expression that works on the place of a path. -/
inductive Uses (name : String) (path : List (Selector Expr)) (position : Position) : Expr → Prop where
  | read : Uses name path position (.access name path position)
  | update {op : UpdateOp} {before : Bool} {p : Position} :
      Uses name path position (.update op before (.access name path position) p)
  | assign {op : Option BinaryOp} {value : Expr} {p : Position} :
      Uses name path position (.assign (.access name path position) op value p)
  | fill {contents : Initializer Expr} {p : Position} :
      Uses name path position (.fill (.access name path position) contents p)

theorem bind_run_of_error {α β : Type} {x : Lower α} {f : α → Lower β} {fault : CompileFault}
    (h : x.run warnings = .error fault) : (x >>= f).run warnings = .error fault := by
  rw [StateT.run_bind, h]
  rfl

/-- Nothing is lowered of an expression on a path without a place. -/
theorem Uses.refused {e : Expr} {fault : CompileFault} (h : Uses name path position e)
    (hplace : (place scopes name (indices act scopes path) position).run warnings = .error fault) (p : Nat) :
    (expr act scopes e p).run warnings = .error fault := by
  cases h with
  | read => exact bind_run_of_error hplace
  | update => exact bind_run_of_error hplace
  | @assign op => cases op <;> exact bind_run_of_error hplace
  | fill => exact bind_run_of_error hplace

/-- The value of a constant index. -/
def constantIndex (e : Expr) : Nat := (e.constant?.map UInt8.toNat).getD 0

/-- What is found at the end of the way of a path. -/
theorem place_of_leads (act : Activation) (position : Position) (warnings : List Warning)
    (hpacked : v.shape.type.Packed) (hv : scopes.find? name = some v) (hway : Leads v.shape path legs t) :
    let ways := legs.map (Leg.map (index act scopes))
    (place scopes name (indices act scopes path) position).run warnings =
      match ways.findSome? (Leg.fault? name) with
      | some fault => .error fault
      | none => .ok (⟨v.cell + passed constantIndex legs, ways.filterMap Leg.term?, t, v.stop⟩,
          walkWarnings name position v (ways.filterMap Leg.term?) ++ warnings) := by
  intro ways
  have hpath : path.map (Selector.map (index act scopes)) = indices act scopes path := (indices_eq path).symm
  have hplace : Place.ofPath v position (indices act scopes path) = _ :=
    hpath ▸ Place.ofPath_of_leads (hway.map (index act scopes)) hpacked
  have hknown : passed Index.known ways = passed constantIndex legs := passed_map
  rw [place_run hv, hplace, name_of_find? hv, hknown]
  cases ways.findSome? (Leg.fault? name) <;> rfl

theorem toNat_ofInt (n : Nat) : (Cell.ofInt n).toNat = n % Cell.modulus := by
  rw [cell_ofInt_natCast, UInt8.toNat_ofNat']
  rfl

theorem fault?_number {n length stride : Nat} {q : Position} :
    Leg.fault? name (.map (index act scopes) (.index (.number n q) length stride)) =
      if length ≤ n % Cell.modulus then some (.semantic q (.outOfBounds (n % Cell.modulus) name length))
      else none := by
  rw [← toNat_ofInt]
  rfl

theorem faults_eq_none
    (h : ∀ e length stride, .index e length stride ∈ legs → ∀ c, e.constant? = some c → c.toNat < length) :
    (legs.map (Leg.map (index act scopes))).findSome? (Leg.fault? name) = none := by
  rw [List.findSome?_eq_none_iff]
  intro leg hleg
  cases leg with
  | field offset => rfl
  | index i length stride =>
    obtain ⟨e, he, rfl⟩ := mem_map_index.1 hleg
    exact Leg.fault?_eq_none.2 (h e length stride he)

/-- `int a[4]; a[256] = 1;` -/
def indexesOutside : Program :=
  { functions := [⟨.void, "main", [],
      [.declare ⟨.int, "a", [4], none, .start⟩,
        .expr (.assign (.access "a" [.index (.number 256 .start)] .start) none (.number 1 .start) .start)], .start⟩] }

end Lowering
end TapeC
