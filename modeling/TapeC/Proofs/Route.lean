import TapeC.Proofs.Path

/-! The way that an access path leads through a variable, leg by leg. A field lies behind the fields
before it; an index passes its value times the cells of one step in its dimension, or, where it is the
only one of an array of several dimensions, times the cells of an element. A way whose indices are
inside their dimensions ends inside the variable. Finding the place of a path follows its legs. -/

namespace TapeC.Layout

open Program

variable {ι κ : Type}

/-! ### Packed structs -/

/-- The fields of a struct lie one after another. -/
inductive ElementType.Packed : ElementType → Prop where
  | int : Packed .int
  | struct {name : String} {fields : List (Field ElementType)}
      (offsets : ∀ before f after, fields = before ++ f :: after → f.offset = fieldsSize before)
      (types : ∀ f ∈ fields, Packed f.type) : Packed (.struct name fields)

theorem packed_append {fields : List (Field ElementType)} {f : FieldDef} {type : ElementType}
    (hf : ∀ name, (ElementType.struct name fields).Packed) (ht : type.Packed) (name : String) :
    (ElementType.struct name (fields ++ [⟨f.name, type, f.dims, fieldsSize fields⟩])).Packed := by
  cases hf name with
  | struct offsets types =>
    refine .struct (fun before g after hg => ?_) fun g hg => ?_
    · rcases List.eq_nil_or_concat after with rfl | ⟨after, last, rfl⟩
      · obtain ⟨rfl, hlast⟩ := List.append_inj' hg rfl
        cases hlast
        rfl
      · rw [List.concat_eq_append, ← List.cons_append, ← List.append_assoc] at hg
        exact offsets before g after (List.append_inj' hg rfl).1
    · rcases List.mem_append.1 hg with hg | hg
      · exact types g hg
      · exact List.mem_singleton.1 hg ▸ ht

/-- The type of a declared variable is packed. -/
theorem packed_of_declared {defs : List StructDef} {structs : List StructLayout} {position : Position}
    {name : TypeName} {type : ElementType} (hstructs : defs.foldlM Definitions.addStruct [] = .ok structs)
    (htype : resolveType structs position name = .ok type) : type.Packed := by
  refine resolveType_keeps .int ?_ htype
  refine foldlM_keeps (P := fun structs => ∀ s ∈ structs, s.type.Packed) (fun _ _ _ _ hs h => ?_) nofun hstructs
  exact addStruct_keeps .int (fun _ => .struct (by simp) (by simp)) (fun _ _ _ _ => packed_append) hs h

/-! ### Legs -/

/-- One part of the way through a variable. -/
inductive Leg (ι : Type) where
  /-- To a field, past the fields before it. -/
  | field (offset : Nat)
  /-- Along a dimension by an index, `stride` cells with each step. -/
  | index (i : ι) (length stride : Nat)

namespace Leg

def map (f : ι → κ) : Leg ι → Leg κ
  | field offset => field offset
  | index i length stride => index (f i) length stride

/-- The cells that a leg passes if its index has this value. -/
def cells (value : ι → Nat) : Leg ι → Nat
  | field offset => offset
  | index i _ stride => value i * stride

/-- The index is inside its dimension. -/
def Inside (value : ι → Nat) : Leg ι → Prop
  | field _ => True
  | index i length _ => value i < length

end Leg

/-- The cells that legs pass. -/
def passed (value : ι → Nat) (legs : List (Leg ι)) : Nat := (legs.map (Leg.cells value)).sum

/-- The legs of an index for each dimension, the last of which runs fastest. -/
def rowLegs (size : Nat) : List Nat → List ι → List (Leg ι)
  | n :: dims, i :: is => .index i n (elements dims * size) :: rowLegs size dims is
  | _, _ => []

/-- A path leads on these legs from a value of one shape to a part of it of another shape. -/
inductive Leads : Shape → List (Selector ι) → List (Leg ι) → Shape → Prop where
  | here {s : Shape} : Leads s [] [] s
  | field {struct : String} {before after : List (Field ElementType)} {f : Field ElementType}
      {path : List (Selector ι)} {legs : List (Leg ι)} {t : Shape} (first : ∀ g ∈ before, g.name ≠ f.name)
      (rest : Leads f.shape path legs t) :
      Leads ⟨.struct struct (before ++ f :: after), []⟩ (.field f.name :: path)
        (.field (fieldsSize before) :: legs) t
  /-- An index for each dimension of an array selects an element. -/
  | rows {type : ElementType} {dims : List Nat} {is : List ι} {path : List (Selector ι)} {legs : List (Leg ι)}
      {t : Shape} (array : dims ≠ []) (all : is.length = dims.length) (rest : Leads ⟨type, []⟩ path legs t) :
      Leads ⟨type, dims⟩ (is.map .index ++ path) (rowLegs type.size dims is ++ legs) t
  /-- So does a single index, which runs through all elements. -/
  | flat {type : ElementType} {dims : List Nat} {i : ι} {path : List (Selector ι)} {legs : List (Leg ι)}
      {t : Shape} (several : 1 < dims.length) (rest : Leads ⟨type, []⟩ path legs t) :
      Leads ⟨type, dims⟩ (.index i :: path) (.index i (elements dims) type.size :: legs) t

variable {s t : Shape} {path : List (Selector ι)} {legs more : List (Leg ι)} {size : Nat} {dims : List Nat}
  {is : List ι} {value : ι → Nat}

@[simp] theorem passed_nil : passed value [] = 0 := rfl

@[simp] theorem passed_cons {leg : Leg ι} : passed value (leg :: legs) = leg.cells value + passed value legs :=
  List.sum_cons

@[simp] theorem passed_append : passed value (legs ++ more) = passed value legs + passed value more := by
  simp [passed]

theorem passed_map {f : ι → κ} {value : κ → Nat} : passed value (legs.map (Leg.map f)) = passed (value ∘ f) legs := by
  rw [passed, passed, List.map_map]
  congr 2
  funext leg
  cases leg <;> rfl

theorem mem_map_index {f : ι → κ} {i : κ} {n stride : Nat} :
    .index i n stride ∈ legs.map (Leg.map f) ↔ ∃ j, .index j n stride ∈ legs ∧ f j = i := by
  rw [List.mem_map]
  constructor
  · rintro ⟨leg, hleg, h⟩
    cases leg with
    | field offset => cases h
    | index j m stride' =>
      cases h
      exact ⟨j, hleg, rfl⟩
  · rintro ⟨j, hj, rfl⟩
    exact ⟨_, hj, rfl⟩

theorem passed_filter_le (value : ι → Nat) (keep : Leg ι → Bool) (legs : List (Leg ι)) :
    passed value (legs.filter keep) ≤ passed value legs := by
  induction legs with
  | nil => exact Nat.le_refl _
  | cons leg legs ih =>
    rw [List.filter_cons]
    split <;> simp only [passed_cons] <;> omega

theorem rowLegs_map {f : ι → κ} : rowLegs size dims (is.map f) = (rowLegs size dims is).map (Leg.map f) := by
  induction dims generalizing is with
  | nil => cases is <;> rfl
  | cons n dims ih =>
    cases is with
    | nil => rfl
    | cons i is => rw [List.map_cons, rowLegs, ih, rowLegs, List.map_cons, Leg.map]

/-- The way of a path does not depend on what its indices are. -/
theorem Leads.map (f : ι → κ) (h : Leads s path legs t) :
    Leads s (path.map (Selector.map f)) (legs.map (Leg.map f)) t := by
  induction h with
  | here => exact .here
  | field first _ ih => exact .field first ih
  | @rows _ _ is path _ _ array all _ ih =>
    rw [List.map_append, List.map_append, ← rowLegs_map, List.map_map]
    have hpath : List.map (Selector.map f ∘ .index) is = (is.map f).map Selector.index := by
      rw [List.map_map]
      rfl
    rw [hpath]
    exact .rows array ((List.length_map ..).trans all) ih
  | flat several _ ih => exact .flat several ih

theorem indexed_map_index : indexed (is.map Selector.index) = is := by
  induction is with
  | nil => rfl
  | cons i is ih => rw [List.map_cons, indexed, ih]

theorem mem_rowLegs {i : ι} {n stride : Nat} (h : .index i n stride ∈ rowLegs size dims is) : i ∈ is := by
  induction dims generalizing is with
  | nil => cases is <;> cases h
  | cons m dims ih =>
    cases is with
    | nil => cases h
    | cons j is =>
      rcases List.mem_cons.1 h with h | h
      · cases h
        exact List.mem_cons_self
      · exact List.mem_cons_of_mem _ (ih h)

/-- The legs have the indices of the path. -/
theorem Leads.mem_indexed {i : ι} {n stride : Nat} (h : Leads s path legs t) (hi : .index i n stride ∈ legs) :
    i ∈ indexed path := by
  induction h with
  | here => cases hi
  | field _ _ ih =>
    rcases List.mem_cons.1 hi with hi | hi
    · cases hi
    · exact ih hi
  | rows _ _ _ ih =>
    rw [indexed_append, indexed_map_index]
    exact List.mem_append.2 ((List.mem_append.1 hi).imp mem_rowLegs ih)
  | flat _ _ ih =>
    rcases List.mem_cons.1 hi with hi | hi
    · cases hi
      exact List.mem_cons_self
    · exact List.mem_cons_of_mem _ (ih hi)

/-- A single value is not indexed. -/
theorem Leads.not_index {type : ElementType} {i : ι} : ¬ Leads ⟨type, []⟩ (.index i :: path) legs t := by
  intro h
  generalize hs : (⟨type, []⟩ : Shape) = s, hp : (Selector.index i :: path) = p at h
  cases h with
  | here => cases hp
  | field => cases hp
  | rows array => cases hs; exact array rfl
  | flat several => cases hs; exact absurd several (Nat.not_lt_zero _)

/-! ### Bounds -/

theorem rowLegs_inside (h : is.length = dims.length) (hin : ∀ leg ∈ rowLegs size dims is, leg.Inside value) :
    passed value (rowLegs size dims is) + size ≤ elements dims * size := by
  induction dims generalizing is with
  | nil => simp [rowLegs, elements]
  | cons n dims ih =>
    cases is with
    | nil => cases h
    | cons i is =>
      obtain ⟨hi, his⟩ := List.forall_mem_cons.1 hin
      have hrest := ih (Nat.succ.inj h) his
      have hfirst := Place.elements_cons_le size dims hi
      rw [rowLegs, passed_cons, Leg.cells]
      omega

theorem rowLegs_of_empty : passed value (rowLegs 0 dims is) = 0 := by
  induction dims generalizing is with
  | nil => rfl
  | cons n dims ih =>
    cases is with
    | nil => rfl
    | cons i is => simp [rowLegs, Leg.cells, ih]

theorem size_array (type : ElementType) : Shape.size ⟨type, dims⟩ = elements dims * type.size := rfl

theorem size_element {type : ElementType} : Shape.size ⟨type, []⟩ = type.size := by
  rw [size_array, elements, Nat.one_mul]

theorem size_field_le (struct : String) (before after : List (Field ElementType)) (f : Field ElementType) :
    fieldsSize before + f.shape.size ≤ Shape.size ⟨.struct struct (before ++ f :: after), []⟩ := by
  have hfield : fieldsSize (f :: after) = f.shape.size + fieldsSize after := rfl
  rw [size_element, ElementType.size, fieldsSize_append, hfield]
  omega

theorem flat_inside (size : Nat) {i n : Nat} (h : i < n) : i * size + size ≤ n * size := by
  rw [← Nat.succ_mul]
  exact Nat.mul_le_mul_right size h

/-- A way whose indices are inside their dimensions ends inside the value. -/
theorem Leads.inside (h : Leads s path legs t) (hin : ∀ leg ∈ legs, leg.Inside value) :
    passed value legs + t.size ≤ s.size := by
  induction h with
  | here => simp
  | @field struct before after f _ _ _ _ _ ih =>
    have hrest := ih (List.forall_mem_cons.1 hin).2
    have hfield := size_field_le struct before after f
    rw [passed_cons, Leg.cells]
    omega
  | @rows type dims _ _ _ _ _ all _ ih =>
    obtain ⟨hrow, hin⟩ := List.forall_mem_append.1 hin
    have hrest := ih hin
    have hfirst := rowLegs_inside all hrow
    rw [size_element] at hrest
    rw [passed_append, size_array type]
    omega
  | @flat type dims _ _ _ _ _ _ ih =>
    obtain ⟨hfirst, hin⟩ := List.forall_mem_cons.1 hin
    have hrest := ih hin
    have hfirst := flat_inside type.size hfirst
    rw [size_element] at hrest
    rw [passed_cons, Leg.cells, size_array type]
    omega

/-- Some of the indices pass fewer cells than there are, if they pass any. -/
theorem Leads.passed_filter_lt (keep : Leg ι → Bool) (hkeep : ∀ offset, keep (.field offset) = false)
    (h : Leads s path legs t) (hin : ∀ leg ∈ legs, leg.Inside value) :
    passed value (legs.filter keep) = 0 ∨ passed value (legs.filter keep) < s.size := by
  -- legs that lead to an element of an array, and the legs inside it
  have harray (first : List (Leg ι)) {rest : List (Leg ι)} {size total : Nat}
      (hle : passed value first + size ≤ total) (hzero : size = 0 → passed value first = 0)
      (hrest : passed value (rest.filter keep) = 0 ∨ passed value (rest.filter keep) < size) :
      passed value ((first ++ rest).filter keep) = 0 ∨ passed value ((first ++ rest).filter keep) < total := by
    have hkept := passed_filter_le value keep first
    rw [List.filter_append, passed_append]
    omega
  induction h with
  | here => exact .inl rfl
  | @field struct before after f _ _ _ _ _ ih =>
    have hfield := size_field_le struct before after f
    rw [List.filter_cons_of_neg (by simp [hkeep])]
    exact (ih (List.forall_mem_cons.1 hin).2).imp_right fun h => by omega
  | rows _ all _ ih =>
    obtain ⟨hrow, hin⟩ := List.forall_mem_append.1 hin
    have hrest := ih hin
    rw [size_element] at hrest
    exact harray _ (rowLegs_inside all hrow) (fun h => by rw [h, rowLegs_of_empty]) hrest
  | @flat type dims i _ legs _ _ _ ih =>
    obtain ⟨hfirst, hin⟩ := List.forall_mem_cons.1 hin
    have hrest := ih hin
    rw [size_element] at hrest
    refine harray [.index i (elements dims) type.size] ?_ (fun h => ?_) hrest
    · simpa [Leg.cells, size_array] using flat_inside type.size hfirst
    · simp [Leg.cells, h]

/-! ### Places at the end of a way -/

/-- The part of the value of an index that is known before the program runs. -/
def Index.known (i : Index κ) : Nat := (i.constant.map UInt8.toNat).getD 0

namespace Leg

/-- Whether the index of a leg is only known when the program runs. -/
def isOpen : Leg (Index κ) → Bool
  | field _ => false
  | index i _ _ => i.constant.isNone

/-- The term of a leg whose index is computed when the program runs. -/
def term? : Leg (Index κ) → Option (Term κ)
  | field _ => none
  | index ⟨none, _, code⟩ _ stride => some ⟨code, stride⟩
  | index ⟨some _, _, _⟩ _ _ => none

/-- The fault of a leg whose index is constant and not inside its dimension. -/
def fault? (name : String) : Leg (Index κ) → Option CompileFault
  | index ⟨some n, position, _⟩ length _ =>
    if length ≤ n.toNat then some (.semantic position (.outOfBounds n.toNat name length)) else none
  | index ⟨none, _, _⟩ _ _ => none
  | field _ => none

/-- Follows a leg from a place on. -/
def follow (name : String) (p : Place κ) : Leg (Index κ) → Except CompileFault (Place κ)
  | field offset => .ok { p with base := p.base + offset }
  | index i length stride => p.advance name i length stride

end Leg

/-- Legs that can be followed have constant indices inside their dimensions only. -/
theorem Leg.fault?_eq_none {name : String} {i : Index κ} {length stride : Nat} :
    Leg.fault? name (.index i length stride) = none ↔ ∀ n, i.constant = some n → n.toNat < length := by
  obtain ⟨constant, q, code⟩ := i
  cases constant with
  | none => simp [Leg.fault?]
  | some n => simp [Leg.fault?]

theorem Leg.fault?_eq_some {name : String} {leg : Leg (Index κ)} {fault : CompileFault}
    (h : leg.fault? name = some fault) : ∃ q i length, fault = .semantic q (.outOfBounds i name length) := by
  match leg with
  | .field _ | .index ⟨none, _, _⟩ _ _ => cases h
  | .index ⟨some n, q, _⟩ length _ =>
    rw [Leg.fault?] at h
    split at h
    · cases h
      exact ⟨q, n.toNat, length, rfl⟩
    · cases h

/-- What legs pass is known before the program runs, but for the legs whose indices are not. -/
theorem passed_known {value : Index κ → Nat} {ways : List (Leg (Index κ))}
    (h : ∀ i length stride, .index i length stride ∈ ways → ∀ n, i.constant = some n → value i = n.toNat) :
    passed value ways = passed Index.known ways + passed value (ways.filter Leg.isOpen) := by
  induction ways with
  | nil => rfl
  | cons leg ways ih =>
    have hrest := ih fun i length stride hi => h i length stride (List.mem_cons_of_mem _ hi)
    match leg with
    | .field offset =>
      rw [List.filter_cons_of_neg (by simp [Leg.isOpen]), passed_cons, passed_cons, hrest, Leg.cells, Leg.cells]
      omega
    | .index ⟨none, q, code⟩ length stride =>
      rw [List.filter_cons_of_pos (by simp [Leg.isOpen]), passed_cons, passed_cons, passed_cons, hrest]
      simp only [Leg.cells, Index.known, Option.map_none, Option.getD_none]
      omega
    | .index ⟨some n, q, code⟩ length stride =>
      have hn := h _ _ _ List.mem_cons_self n rfl
      rw [List.filter_cons_of_neg (by simp [Leg.isOpen]), passed_cons, passed_cons, hrest]
      simp only [Leg.cells, hn, Index.known, Option.map_some, Option.getD_some]
      omega

namespace Place

variable {P : List (Selector (Index κ))} {ways : List (Leg (Index κ))} {p p' : Place κ} {name : String}
  {position : Position} {js : List (Index κ)}

/-- The place that known indices and fields lead to, with a term for each other index. -/
theorem foldlM_leg : ways.foldlM (Leg.follow name) p =
    match ways.findSome? (Leg.fault? name) with
    | some fault => .error fault
    | none => .ok ⟨p.base + passed Index.known ways, p.terms ++ ways.filterMap Leg.term?, p.shape, p.stop⟩ := by
  induction ways generalizing p with
  | nil => simp [pure, Except.pure]
  | cons leg ways ih =>
    rw [List.foldlM_cons, List.findSome?_cons]
    match leg with
    | .field offset =>
      change ways.foldlM (Leg.follow name) _ = _
      rw [ih]
      simp [Leg.fault?, Leg.cells, Leg.term?, List.filterMap_cons, Nat.add_assoc]
    | .index ⟨none, q, code⟩ length stride =>
      change ways.foldlM (Leg.follow name) _ = _
      rw [ih]
      simp [Leg.fault?, Leg.cells, Index.known, Leg.term?]
    | .index ⟨some n, q, code⟩ length stride =>
      simp only [Leg.follow, advance, Leg.fault?]
      by_cases h : length ≤ n.toNat
      · rw [if_pos h, if_pos h]
        rfl
      · rw [if_neg h, if_neg h]
        change ways.foldlM (Leg.follow name) _ = _
        rw [ih]
        simp [Leg.cells, Index.known, Leg.term?, List.filterMap_cons, Nat.add_assoc]

theorem foldlM_rowLegs (h : js.length = dims.length) :
    (js.zip (strides size dims)).foldlM (fun q (j, n, stride) => q.advance name j n stride) p =
      (rowLegs size dims js).foldlM (Leg.follow name) p := by
  induction dims generalizing js p with
  | nil =>
    rw [List.eq_nil_of_length_eq_zero h]
    rfl
  | cons n dims ih =>
    match js with
    | j :: js =>
      rw [strides, List.zip_cons_cons, List.foldlM_cons, rowLegs, List.foldlM_cons]
      exact bind_congr fun q => ih (Nat.succ.inj h)

theorem steps_indices (js : List (Index κ)) (hne : js ≠ []) (h : ∀ j rest, P ≠ .index j :: rest) :
    steps (js.map .index ++ P) = .indices js :: steps P := by
  induction js with
  | nil => exact absurd rfl hne
  | cons j js ih =>
    rw [List.map_cons, List.cons_append, steps]
    cases js with
    | nil =>
      cases P with
      | nil => rfl
      | cons a rest =>
        cases a with
        | field f => rfl
        | index i => exact absurd rfl (h i rest)
    | cons i js => rw [ih (List.cons_ne_nil _ _)]

/-- The place, which has another shape. -/
def reshape (shape : Shape) (p : Place κ) : Place κ := { p with shape }

theorem foldlM_leg_reshape {shape : Shape} : ways.foldlM (Leg.follow name) (p.reshape shape) =
    (ways.foldlM (Leg.follow name) p).map (reshape shape) := by
  rw [foldlM_leg, foldlM_leg]
  cases ways.findSome? (Leg.fault? name) <;> rfl

theorem map_reshape_map {shape shape' : Shape} {x : Except CompileFault (Place κ)} :
    (x.map (reshape shape)).map (reshape shape') = x.map (reshape shape') := by
  cases x <;> rfl

/-- The rest of a way, once its first legs have been followed to a single value. -/
theorem follow_rest (first : List (Leg (Index κ))) {rest : List (Leg (Index κ))} {S : List (PathStep κ)}
    {type : ElementType} (h : ∀ p : Place κ, p.shape = ⟨type, []⟩ → S.foldlM (follow name position) p =
      (rest.foldlM (Leg.follow name) p).map (reshape t)) :
    (first.foldlM (Leg.follow name) (p.reshape ⟨type, []⟩) >>= fun q => S.foldlM (follow name position) q) =
      ((first ++ rest).foldlM (Leg.follow name) p).map (reshape t) := by
  rw [List.foldlM_append, foldlM_leg_reshape]
  cases first.foldlM (Leg.follow name) p with
  | error fault => rfl
  | ok q =>
    change S.foldlM (follow name position) (q.reshape ⟨type, []⟩) = _
    rw [h _ rfl, foldlM_leg_reshape, map_reshape_map]
    rfl

/-- The steps of a path follow the legs of its way. -/
theorem follow_of_leads (h : Leads s P ways t) (hs : s.type.Packed) (hp : p.shape = s) :
    (steps P).foldlM (follow name position) p = (ways.foldlM (Leg.follow name) p).map (reshape t) := by
  induction h generalizing p with
  | here =>
    subst hp
    rfl
  | @field struct before after f path legs t first rest ih =>
    obtain ⟨base, terms, _, stop⟩ := p
    cases hp
    cases hs with
    | struct offsets types =>
      have hfind : findField? (before ++ f :: after) f.name = some f := by
        rw [findField?, List.find?_append, List.find?_eq_none.2 (by simpa using first), Option.none_or]
        simp
      have htype : f.shape.type.Packed := types f (by simp)
      let q : Place κ := ⟨base + fieldsSize before, terms, ⟨.struct struct (before ++ f :: after), []⟩, stop⟩
      have hselect : follow name position ⟨base, terms, ⟨.struct struct (before ++ f :: after), []⟩, stop⟩
          (.field f.name) = .ok (q.reshape f.shape) := by
        simp only [follow, select, hfind, offsets before f after rfl]
        rfl
      rw [steps, List.foldlM_cons, List.foldlM_cons, hselect]
      change (steps path).foldlM (follow name position) (q.reshape f.shape) =
        (legs.foldlM (Leg.follow name) q).map (reshape t)
      rw [ih htype rfl, foldlM_leg_reshape, map_reshape_map]
  | @rows type dims js path legs t array all rest ih =>
    have hne : js ≠ [] := fun h => array (List.eq_nil_of_length_eq_zero (by rw [← all, h]; rfl))
    have hfollow : follow name position p (.indices js) =
        (rowLegs type.size dims js).foldlM (Leg.follow name) (p.reshape ⟨type, []⟩) := by
      rw [← foldlM_rowLegs all]
      simp [follow, element, hp, array, all, reshape]
    -- no further index follows these, as a single value is not indexed
    rw [steps_indices js hne (fun j more h => Leads.not_index (h ▸ rest)), List.foldlM_cons, hfollow]
    exact follow_rest _ fun q hq => ih hs hq
  | @flat type dims i path legs t several rest ih =>
    have hfollow : follow name position p (.indices [i]) =
        [Leg.index i (elements dims) type.size].foldlM (Leg.follow name) (p.reshape ⟨type, []⟩) := by
      have hdims : dims ≠ [] := by
        rintro rfl
        cases several
      simp [follow, element, hp, hdims, Nat.ne_of_lt several, reshape, Leg.follow]
    have hsteps : steps (.index i :: path) = .indices [i] :: steps path :=
      steps_indices [i] (by simp) (fun j more h => Leads.not_index (h ▸ rest))
    rw [hsteps, List.foldlM_cons, hfollow]
    exact follow_rest [_] fun q hq => ih hs hq

/-- The place of a path at the end of its way. -/
theorem ofPath_of_leads {v : Variable} (h : Leads v.shape P ways t) (hv : v.shape.type.Packed) :
    ofPath v position P =
      match ways.findSome? (Leg.fault? v.name) with
      | some fault => .error fault
      | none => .ok ⟨v.cell + passed Index.known ways, ways.filterMap Leg.term?, t, v.stop⟩ := by
  rw [ofPath_eq, follow_of_leads h hv rfl, foldlM_leg]
  cases ways.findSome? (Leg.fault? v.name) <;> rfl

/-! ### Paths that have a place -/

/-- The selectors of a step. -/
def PathStep.selectors : PathStep κ → List (Selector (Index κ))
  | .field f => [.field f]
  | .indices is => is.map .index

theorem flatMap_selectors : (steps P).flatMap PathStep.selectors = P := by
  induction P with
  | nil => rfl
  | cons a P ih =>
    match a with
    | .field f => rw [steps, List.flatMap_cons, ih, PathStep.selectors, List.singleton_append]
    | .index i =>
      rw [steps]
      split <;> simp_all [PathStep.selectors]

theorem advance_shape {i : Index κ} {length stride : Nat} (h : p.advance name i length stride = .ok p') :
    p'.shape = p.shape := by
  rw [advance] at h
  split at h
  · split at h
    · cases h
    · cases h
      rfl
  · cases h
    rfl

/-- Indices are accepted if there is one for each dimension or a single one. -/
theorem element_cases {is : List (Index κ)} (h : p.element name position is = .ok p') :
    p'.shape = ⟨p.shape.type, []⟩ ∧ p.shape.dims ≠ [] ∧
      (is.length = p.shape.dims.length ∨ 1 < p.shape.dims.length ∧ ∃ i, is = [i]) := by
  simp only [element] at h
  split at h
  · cases h
  next hd =>
    have hdims : p.shape.dims ≠ [] := by simpa using hd
    have hpos : 0 < p.shape.dims.length := List.length_pos_iff.2 hdims
    split at h
    next hlen =>
      refine ⟨?_, hdims, .inl hlen⟩
      exact foldlM_keeps (P := fun q => q.shape = ⟨p.shape.type, []⟩)
        (fun _ _ _ _ hq h => (advance_shape h).trans hq) rfl h
    next hlen =>
      rcases is with _ | ⟨i, _ | ⟨j, is⟩⟩
      · cases h
      · have hlen : ¬ 1 = p.shape.dims.length := hlen
        exact ⟨advance_shape h, hdims, .inr ⟨by omega, i, rfl⟩⟩
      · cases h

theorem leads_of_steps {S : List (PathStep κ)} (h : S.foldlM (follow name position) p = .ok p') :
    ∃ ways, Leads p.shape (S.flatMap PathStep.selectors) ways p'.shape := by
  induction S generalizing p with
  | nil =>
    cases h
    exact ⟨[], .here⟩
  | cons step S ih =>
    rw [List.foldlM_cons] at h
    obtain ⟨q, hq, h⟩ := bind_eq_ok.1 h
    obtain ⟨ways, hways⟩ := ih h
    cases step with
    | field name =>
      obtain ⟨base, terms, ⟨type, dims⟩, stop⟩ := p
      match type, dims with
      | .int, _ => cases hq
      | .struct _ _, _ :: _ => cases hq
      | .struct struct fields, [] =>
        simp only [follow, select] at hq
        cases hf : findField? fields name with
        | none => rw [hf] at hq; cases hq
        | some f =>
          rw [hf] at hq
          cases hq
          obtain ⟨hname, before, after, rfl, hbefore⟩ := List.find?_eq_some_iff_append.1 hf
          obtain rfl : f.name = name := by simpa using hname
          exact ⟨_, .field (by simpa using hbefore) hways⟩
    | indices is =>
      obtain ⟨hshape, hdims, his⟩ := element_cases hq
      rw [hshape] at hways
      rcases his with hlen | ⟨hlen, i, rfl⟩
      · exact ⟨_, .rows hdims hlen hways⟩
      · exact ⟨_, .flat hlen hways⟩

/-- A path that has a place leads to it. -/
theorem leads_of_ofPath {v : Variable} (h : ofPath v position P = .ok p) : ∃ ways, Leads v.shape P ways p.shape := by
  rw [ofPath_eq] at h
  have hways := leads_of_steps h
  rwa [flatMap_selectors] at hways

end Place
end TapeC.Layout
