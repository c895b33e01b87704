import Mathlib.Algebra.GroupWithZero.Nat
import TapeC.Layout.Definitions
import TapeC.Layout.Place

/-! The cell that a path selects at run time. A path with the values of its indices filled
in selects a cell at a fixed distance; the path itself selects the same cell once its terms,
each with its value, are added to its base. A cell that is selected lies inside the variable. -/

namespace TapeC.Layout

open Program

variable {κ : Type}

theorem bind_eq_ok {α β ε : Type} {x : Except ε α} {f : α → Except ε β} {b : β} :
    x >>= f = .ok b ↔ ∃ a, x = .ok a ∧ f a = .ok b := by
  cases x with
  | error e => simp [bind, Except.bind]
  | ok a => simp [bind, Except.bind]

/-! ### Sound shapes -/

/-- The fields of a struct lie inside it. -/
inductive ElementType.Sound : ElementType → Prop where
  | int : Sound .int
  | struct {name : String} {fields : List (Field ElementType)}
      (inside : ∀ f ∈ fields, f.offset + f.shape.size ≤ fieldsSize fields)
      (types : ∀ f ∈ fields, Sound f.type) : Sound (.struct name fields)

theorem fieldsSize_append {fields more : List (Field ElementType)} :
    fieldsSize (fields ++ more) = fieldsSize fields + fieldsSize more := by
  induction fields with
  | nil => simp [fieldsSize]
  | cons f fields ih =>
    obtain ⟨name, type, dims, offset⟩ := f
    rw [List.cons_append, fieldsSize, fieldsSize, ih, Nat.add_assoc]

/-- What a fold keeps in each step it has kept at its end. -/
theorem foldlM_keeps {α β ε : Type} {f : β → α → Except ε β} {P : β → Prop} {as : List α} {b b' : β}
    (hf : ∀ b a b', a ∈ as → P b → f b a = .ok b' → P b') (hb : P b) (h : as.foldlM f b = .ok b') :
    P b' := by
  induction as generalizing b with
  | nil => cases h; exact hb
  | cons a as ih =>
    rw [List.foldlM_cons] at h
    obtain ⟨c, hc, h⟩ := bind_eq_ok.1 h
    exact ih (fun b a' b' ha' => hf b a' b' (List.mem_cons_of_mem _ ha'))
      (hf b a c List.mem_cons_self hb hc) h

/-! ### Types of declared structs -/

section Declared

variable {structs structs' : List StructLayout} {position : Position} {P : ElementType → Prop}

/-- What holds of single cells and of all structs holds of a type that is found among them. -/
theorem resolveType_keeps {name : TypeName} {type : ElementType} (int : P .int) (hs : ∀ s ∈ structs, P s.type)
    (h : resolveType structs position name = .ok type) : P type := by
  cases name with
  | int => cases h; exact int
  | struct name =>
    rw [resolveType] at h
    split at h
    next s hfind => cases h; exact hs s (List.mem_of_find?_eq_some hfind)
    next => cases h

/-- What holds of single cells and of a struct without fields, and still holds once a field is added,
holds of all structs. -/
theorem addStruct_keeps {d : StructDef} (int : P .int) (empty : ∀ name, P (.struct name []))
    (field : ∀ f ∈ d.fields, ∀ fields type, (∀ name, P (.struct name fields)) → P type →
      ∀ name, P (.struct name (fields ++ [⟨f.name, type, f.dims, fieldsSize fields⟩])))
    (hs : ∀ s ∈ structs, P s.type) (h : Definitions.addStruct structs d = .ok structs') :
    ∀ s ∈ structs', P s.type := by
  have hfield (fields fields' : List (Field ElementType)) (f : FieldDef) (hf : f ∈ d.fields)
      (hfields : ∀ name, P (.struct name fields)) (h : addField structs d.name fields f = .ok fields') :
      ∀ name, P (.struct name fields') := by
    rw [addField] at h
    split at h
    · cases h
    · split at h
      · cases h
      · obtain ⟨type, ht, h⟩ := bind_eq_ok.1 h
        cases h
        exact field f hf fields type hfields (resolveType_keeps int hs ht)
  rw [Definitions.addStruct] at h
  split at h
  · cases h
  · obtain ⟨layout, hl, h⟩ := bind_eq_ok.1 h
    cases h
    obtain ⟨fields, hfields, hl⟩ := bind_eq_ok.1 hl
    cases hl
    intro s hmem
    rcases List.mem_append.1 hmem with hmem | hmem
    · exact hs s hmem
    · rw [List.mem_singleton.1 hmem]
      exact foldlM_keeps (P := fun fields => ∀ name, P (.struct name fields))
        (fun fields f fields' hf hb h => hfield fields fields' f hf hb h) empty hfields d.name

theorem resolveType_sound {name : TypeName} {type : ElementType} (hs : ∀ s ∈ structs, s.type.Sound)
    (h : resolveType structs position name = .ok type) : type.Sound :=
  resolveType_keeps .int hs h

theorem sound_append {fields : List (Field ElementType)} {f : FieldDef} {type : ElementType}
    (hf : ∀ name, (ElementType.struct name fields).Sound) (ht : type.Sound) (name : String) :
    (ElementType.struct name (fields ++ [⟨f.name, type, f.dims, fieldsSize fields⟩])).Sound := by
  have hsize : fieldsSize (fields ++ [⟨f.name, type, f.dims, fieldsSize fields⟩]) =
      fieldsSize fields + elements f.dims * type.size := by
    rw [fieldsSize_append, fieldsSize, fieldsSize, Nat.add_zero]
  cases hf name with
  | struct inside types =>
    refine .struct (fun g hg => ?_) fun g hg => ?_
    · rw [hsize]
      rcases List.mem_append.1 hg with hg | hg
      · have := inside g hg
        omega
      · rw [List.mem_singleton.1 hg]
        exact Nat.le_refl _
    · rcases List.mem_append.1 hg with hg | hg
      · exact types g hg
      · rw [List.mem_singleton.1 hg]
        exact ht

theorem addStruct_sound {d : StructDef} (hs : ∀ s ∈ structs, s.type.Sound)
    (h : Definitions.addStruct structs d = .ok structs') : ∀ s ∈ structs', s.type.Sound :=
  addStruct_keeps .int (fun _ => .struct (by simp) (by simp)) (fun _ _ _ _ => sound_append) hs h

/-- No array in an element has length zero. -/
inductive ElementType.Solid : ElementType → Prop where
  | int : Solid .int
  | struct {name : String} {fields : List (Field ElementType)} (dims : ∀ f ∈ fields, ∀ n ∈ f.dims, 0 < n)
      (types : ∀ f ∈ fields, Solid f.type) : Solid (.struct name fields)

structure Shape.Solid (s : Shape) : Prop where
  dims : ∀ n ∈ s.dims, 0 < n
  type : s.type.Solid

theorem resolveType_solid {name : TypeName} {type : ElementType} (hs : ∀ s ∈ structs, s.type.Solid)
    (h : resolveType structs position name = .ok type) : type.Solid :=
  resolveType_keeps .int hs h

theorem solid_append {fields : List (Field ElementType)} {f : FieldDef} {type : ElementType}
    (hdims : ∀ n ∈ f.dims, 0 < n) (hf : ∀ name, (ElementType.struct name fields).Solid) (ht : type.Solid)
    (name : String) :
    (ElementType.struct name (fields ++ [⟨f.name, type, f.dims, fieldsSize fields⟩])).Solid := by
  cases hf name with
  | struct dims types =>
    refine .struct (fun g hg => ?_) fun g hg => ?_
    · rcases List.mem_append.1 hg with hg | hg
      · exact dims g hg
      · exact List.mem_singleton.1 hg ▸ hdims
    · rcases List.mem_append.1 hg with hg | hg
      · exact types g hg
      · exact List.mem_singleton.1 hg ▸ ht

theorem addStruct_solid {d : StructDef} (hs : ∀ s ∈ structs, s.type.Solid)
    (hd : ∀ f ∈ d.fields, ∀ n ∈ f.dims, 0 < n) (h : Definitions.addStruct structs d = .ok structs') :
    ∀ s ∈ structs', s.type.Solid :=
  addStruct_keeps .int (fun _ => .struct (by simp) (by simp)) (fun f hf _ _ => solid_append (hd f hf)) hs h

end Declared

/-! ### Paths with values -/

/-- The indices that are not constant. -/
def runtime : List (Selector (Index κ)) → List κ
  | [] => []
  | .field _ :: rest => runtime rest
  | .index ⟨some _, _, _⟩ :: rest => runtime rest
  | .index ⟨none, _, code⟩ :: rest => code :: runtime rest

/-- A path in which the indices that are not constant have the given values. -/
def filled : List (Selector (Index κ)) → List Cell → List (Selector (Index Cell))
  | [], _ => []
  | .field f :: rest, vs => .field f :: filled rest vs
  | .index ⟨some n, p, _⟩ :: rest, vs => .index ⟨some n, p, n⟩ :: filled rest vs
  | .index ⟨none, p, _⟩ :: rest, vs => .index ⟨some (vs.headD 0), p, vs.headD 0⟩ :: filled rest vs.tail

/-- A path beside the same one with values, and the indices that got one. -/
inductive Filling : List (Selector (Index κ)) → List (Selector (Index Cell)) → List (κ × Cell) →
    Prop where
  | nil : Filling [] [] []
  | field {P Q l f} (rest : Filling P Q l) : Filling (.field f :: P) (.field f :: Q) l
  | constant {P Q l n p c} (rest : Filling P Q l) :
      Filling (.index ⟨some n, p, c⟩ :: P) (.index ⟨some n, p, n⟩ :: Q) l
  | value {P Q l v p c} (rest : Filling P Q l) :
      Filling (.index ⟨none, p, c⟩ :: P) (.index ⟨some v, p, v⟩ :: Q) ((c, v) :: l)

theorem filling_filled {P : List (Selector (Index κ))} {vs : List Cell}
    (h : vs.length = (runtime P).length) : Filling P (filled P vs) ((runtime P).zip vs) := by
  induction P generalizing vs with
  | nil => exact .nil
  | cons s rest ih =>
    match s, vs with
    | .field f, vs => exact .field (ih h)
    | .index ⟨some n, p, c⟩, vs => exact .constant (ih h)
    | .index ⟨none, p, c⟩, [] => cases h
    | .index ⟨none, p, c⟩, v :: vs => exact .value (ih (by simpa [runtime] using h))

theorem filled_replicate {P : List (Selector (Index κ))} {n : Nat} :
    filled P (List.replicate n 0) = filled P [] := by
  induction P generalizing n with
  | nil => rfl
  | cons a P ih =>
    rcases a with ⟨_ | _, p, c⟩ | f
    · cases n <;> simp [filled, List.replicate_succ, ih]
    · simp only [filled, ih]
    · simp only [filled, ih]

namespace Place

/-- Adjacent indices beside the same ones with values. -/
inductive IndexFilling : List (Index κ) → List (Index Cell) → List (κ × Cell) → Prop where
  | nil : IndexFilling [] [] []
  | constant {is js l n p c} (rest : IndexFilling is js l) :
      IndexFilling (⟨some n, p, c⟩ :: is) (⟨some n, p, n⟩ :: js) l
  | value {is js l v p c} (rest : IndexFilling is js l) :
      IndexFilling (⟨none, p, c⟩ :: is) (⟨some v, p, v⟩ :: js) ((c, v) :: l)

inductive StepFilling : List (PathStep κ) → List (PathStep Cell) → List (κ × Cell) → Prop where
  | nil : StepFilling [] [] []
  | field {S T l f} (rest : StepFilling S T l) : StepFilling (.field f :: S) (.field f :: T) l
  | indices {S T l m is js} (first : IndexFilling is js l) (rest : StepFilling S T m) :
      StepFilling (.indices is :: S) (.indices js :: T) (l ++ m)

theorem steps_filling {P : List (Selector (Index κ))} {Q : List (Selector (Index Cell))}
    {l : List (κ × Cell)} (h : Filling P Q l) : StepFilling (steps P) (steps Q) l := by
  induction h with
  | nil => exact .nil
  | field _ ih => exact .field ih
  | @constant P Q l n p c _ ih =>
    rw [steps, steps]
    generalize steps P = S, steps Q = T at ih
    cases ih with
    | nil => exact .indices (.constant .nil) .nil
    | field ih => exact .indices (.constant .nil) (.field ih)
    | indices is ih => exact .indices (.constant is) ih
  | @value P Q l v p c _ ih =>
    rw [steps, steps]
    generalize steps P = S, steps Q = T at ih
    cases ih with
    | nil => exact .indices (l := [(c, v)]) (.value .nil) .nil
    | field ih => exact .indices (l := [(c, v)]) (.value .nil) (.field ih)
    | @indices _ _ l' _ _ _ is ih => exact .indices (l := (c, v) :: l') (.value is) ih

/-- The cells that terms with these values pass. -/
def distance (ts : List (Term κ × Cell)) : Nat := (ts.map fun t => t.2.toNat * t.1.stride).sum

theorem distance_of_zero {ts : List (Term κ × Cell)} (h : ∀ t ∈ ts, t.2 = 0) : distance ts = 0 := by
  induction ts with
  | nil => rfl
  | cons t ts ih =>
    have := ih fun u hu => h u (List.mem_cons_of_mem _ hu)
    simp only [distance, List.map_cons, List.sum_cons] at this ⊢
    rw [this, h t List.mem_cons_self]
    exact Nat.zero_mul _

/-- From `p` to `p'` a path adds terms, and with values, from `q` to `q'`, their distance. -/
structure Along (p p' : Place κ) (q q' : Place Cell) (ts : List (Term κ × Cell))
    (l : List (κ × Cell)) : Prop where
  terms : p'.terms = p.terms ++ ts.map Prod.fst
  codes : ts.map (fun t => (t.1.code, t.2)) = l
  base : q'.base + p.base = p'.base + q.base + distance ts
  shape : q'.shape = p'.shape

variable {p p' p'' : Place κ} {q q' q'' : Place Cell} {l m : List (κ × Cell)} {name : String}
  {position : Position} {ts us : List (Term κ × Cell)}

theorem Along.refl (h : q.shape = p.shape) : Along p p q q ([] : List (Term κ × Cell)) [] :=
  ⟨by simp, rfl, by simp [distance, Nat.add_comm], h⟩

theorem Along.trans (h : Along p p' q q' ts l) (h' : Along p' p'' q' q'' us m) :
    Along p p'' q q'' (ts ++ us) (l ++ m) := by
  refine ⟨?_, ?_, ?_, h'.shape⟩
  · rw [h'.terms, h.terms, List.map_append, List.append_assoc]
  · rw [List.map_append, h.codes, h'.codes]
  · have h₁ := h.base
    have h₂ := h'.base
    have hd : distance (ts ++ us) = distance ts + distance us := by
      rw [distance, List.map_append, List.sum_append, distance, distance]
    omega

/-- Two steps, each of which adds terms. -/
theorem Along.bind {x : Except CompileFault (Place κ)} {y : Except CompileFault (Place Cell)}
    {f : Place κ → Except CompileFault (Place κ)} {g : Place Cell → Except CompileFault (Place Cell)}
    (hx : ∀ r s, x = .ok r → y = .ok s → ∃ ts, Along p r q s ts l)
    (hf : ∀ r s, s.shape = r.shape → f r = .ok p' → g s = .ok q' → ∃ us, Along r p' s q' us m)
    (hp : x >>= f = .ok p') (hq : y >>= g = .ok q') : ∃ ts, Along p p' q q' ts (l ++ m) := by
  obtain ⟨r, hr, hp⟩ := bind_eq_ok.1 hp
  obtain ⟨s, hs, hq⟩ := bind_eq_ok.1 hq
  obtain ⟨ts, hts⟩ := hx r s hr hs
  obtain ⟨us, hus⟩ := hf r s hts.shape hp hq
  exact ⟨ts ++ us, hts.trans hus⟩

theorem advance_along {i : Index κ} {j : Index Cell} {length stride : Nat}
    (h : IndexFilling [i] [j] l) (hs : q.shape = p.shape)
    (hp : p.advance name i length stride = .ok p') (hq : q.advance name j length stride = .ok q') :
    ∃ ts, Along p p' q q' ts l := by
  cases h with
  | constant h =>
    cases h
    simp only [advance] at hp hq
    split at hp
    · cases hp
    · split at hq
      · cases hq
      · cases hp
        cases hq
        exact ⟨[], by simp, rfl, by simp [distance]; omega, hs⟩
  | @value _ _ _ v _ c h =>
    cases h
    simp only [advance] at hp hq
    split at hq
    · cases hq
    · cases hp
      cases hq
      exact ⟨[(⟨c, stride⟩, v)], by simp, rfl, by simp [distance]; omega, hs⟩

theorem advanceAll_along {is : List (Index κ)} {js : List (Index Cell)} {ns : List (Nat × Nat)}
    (h : IndexFilling is js l) (hlen : is.length = ns.length) (hs : q.shape = p.shape)
    (hp : (is.zip ns).foldlM (fun p (i, n, stride) => p.advance name i n stride) p = .ok p')
    (hq : (js.zip ns).foldlM (fun p (i, n, stride) => p.advance name i n stride) q = .ok q') :
    ∃ ts, Along p p' q q' ts l := by
  induction h generalizing ns p q with
  | nil =>
    cases hp
    cases hq
    exact ⟨[], .refl hs⟩
  | constant _ ih =>
    match ns with
    | (n, stride) :: ns =>
      rw [List.zip_cons_cons, List.foldlM_cons] at hp hq
      exact Along.bind (fun _ _ => advance_along (.constant .nil) hs) (fun _ _ => ih (Nat.succ.inj hlen)) hp hq
  | value _ ih =>
    match ns with
    | (n, stride) :: ns =>
      rw [List.zip_cons_cons, List.foldlM_cons] at hp hq
      exact Along.bind (fun _ _ => advance_along (.value .nil) hs) (fun _ _ => ih (Nat.succ.inj hlen)) hp hq

theorem length_strides {size : Nat} {dims : List Nat} : (strides size dims).length = dims.length := by
  induction dims with
  | nil => rfl
  | cons n dims ih => rw [strides, List.length_cons, List.length_cons, ih]

theorem IndexFilling.length_eq {is : List (Index κ)} {js : List (Index Cell)}
    (h : IndexFilling is js l) :
    js.length = is.length := by
  induction h with
  | nil => rfl
  | constant _ ih | value _ ih => rw [List.length_cons, List.length_cons, ih]

theorem element_along {is : List (Index κ)} {js : List (Index Cell)} (h : IndexFilling is js l)
    (hs : q.shape = p.shape) (hp : p.element name position is = .ok p')
    (hq : q.element name position js = .ok q') : ∃ ts, Along p p' q q' ts l := by
  have lift {ts : List (Term κ × Cell)}
      (h : Along { p with shape := ⟨p.shape.type, []⟩ } p' { q with shape := ⟨p.shape.type, []⟩ } q'
        ts l) :
      Along p p' q q' ts l := ⟨h.terms, h.codes, h.base, h.shape⟩
  simp only [element, hs, h.length_eq] at hp hq
  split at hp
  · cases hp
  · rename_i hd
    rw [if_neg hd] at hq
    split at hp
    · rename_i hlen
      rw [if_pos hlen] at hq
      obtain ⟨ts, hts⟩ := advanceAll_along h (by rw [hlen, length_strides]) rfl hp hq
      exact ⟨ts, lift hts⟩
    · rename_i hlen
      rw [if_neg hlen] at hq
      match is, js, h with
      | [i], [j], h =>
        obtain ⟨ts, hts⟩ := advance_along h rfl hp hq
        exact ⟨ts, lift hts⟩
      | [], _, _ => cases hp
      | _ :: _ :: _, _, _ => cases hp

theorem select_along {f : String} (hs : q.shape = p.shape) (hp : p.select name position f = .ok p')
    (hq : q.select name position f = .ok q') : Along p p' q q' ([] : List (Term κ × Cell)) [] := by
  obtain ⟨base, terms, ⟨type, dims⟩, stop⟩ := p
  obtain ⟨base', terms', shape, stop'⟩ := q
  cases hs
  match type, dims with
  | .int, _ => cases hp
  | .struct _ _, _ :: _ => cases hp
  | .struct struct fields, [] =>
    simp only [select] at hp hq
    cases hf : findField? fields f with
    | none => rw [hf] at hp; cases hp
    | some g =>
      rw [hf] at hp hq
      cases hp
      cases hq
      exact ⟨by simp, rfl, by simp [distance]; omega, rfl⟩

/-- Takes one step of a path. -/
def follow (name : String) (position : Position) (p : Place κ) : PathStep κ → Except CompileFault
    (Place κ)
  | .field field => p.select name position field
  | .indices is => p.element name position is

theorem ofPath_eq {v : Variable} {P : List (Selector (Index κ))} :
    ofPath v position P = (steps P).foldlM (follow v.name position)
        { base := v.cell, shape := v.shape, stop := v.stop } := by
  refine congrArg (fun f => List.foldlM f _ _) (funext fun p => funext fun step => ?_)
  cases step <;> rfl

theorem follow_along {S : List (PathStep κ)} {T : List (PathStep Cell)} (h : StepFilling S T l)
    (hs : q.shape = p.shape) (hp : S.foldlM (follow name position) p = .ok p')
    (hq : T.foldlM (follow name position) q = .ok q') : ∃ ts, Along p p' q q' ts l := by
  induction h generalizing p q with
  | nil =>
    cases hp
    cases hq
    exact ⟨[], .refl hs⟩
  | field _ ih =>
    rw [List.foldlM_cons] at hp hq
    exact Along.bind (fun _ _ hr hs' => ⟨[], select_along hs hr hs'⟩) (fun _ _ => ih) hp hq
  | indices is _ ih =>
    rw [List.foldlM_cons] at hp hq
    exact Along.bind (fun _ _ => element_along is hs) (fun _ _ => ih) hp hq

/-- A path with values selects the cell that the path itself selects with the terms' values. -/
theorem ofPath_along {v : Variable} {P : List (Selector (Index κ))} {Q : List (Selector (Index Cell))}
    (h : Filling P Q l) (hp : ofPath v position P = .ok p)
    (hq : ofPath ⟨v.name, v.shape, 0⟩ position Q = .ok q) :
    ∃ ts : List (Term κ × Cell), p.terms = ts.map Prod.fst ∧ ts.map (fun t => (t.1.code, t.2)) = l ∧
      v.cell + q.base = p.base + distance ts ∧ q.shape = p.shape := by
  rw [ofPath_eq] at hp hq
  obtain ⟨ts, hts⟩ := follow_along (steps_filling h) (by rfl) hp hq
  refine ⟨ts, hts.terms, hts.codes, ?_, hts.shape⟩
  have := hts.base
  simp only at this
  omega

/-! ### Terms -/

/-- The indices of a step that are not constant. -/
def PathStep.runtime : PathStep κ → List κ
  | .field _ => []
  | .indices is => is.flatMap fun i => if i.constant.isNone then [i.code] else []

theorem runtime_eq {P : List (Selector (Index κ))} : runtime P = (steps P).flatMap PathStep.runtime := by
  have hcons {i : Index κ} {rest : List (Selector (Index κ))} :
      (steps (.index i :: rest)).flatMap PathStep.runtime =
        (if i.constant.isNone then [i.code] else []) ++ (steps rest).flatMap PathStep.runtime := by
    rw [steps]
    split <;> simp [PathStep.runtime, *]
  induction P with
  | nil => rfl
  | cons a rest ih =>
    match a with
    | .field f => exact ih
    | .index ⟨some n, position, c⟩ => rw [hcons, runtime, ih]; rfl
    | .index ⟨none, position, c⟩ => rw [hcons, runtime, ih]; rfl

theorem advance_terms {i : Index κ} {length stride : Nat}
    (h : p.advance name i length stride = .ok p') :
    p'.terms.map Term.code = p.terms.map Term.code ++ if i.constant.isNone then [i.code] else [] := by
  obtain ⟨k, position, code⟩ := i
  cases k with
  | none =>
    cases h
    simp
  | some n =>
    simp only [advance] at h
    split at h
    · cases h
    · cases h
      simp

theorem advanceAll_terms {is : List (Index κ)} {ns : List (Nat × Nat)} (hlen : is.length = ns.length)
    (h : (is.zip ns).foldlM (fun p (i, n, stride) => p.advance name i n stride) p = .ok p') :
    p'.terms.map Term.code = p.terms.map Term.code ++ (PathStep.indices is).runtime := by
  induction is generalizing ns p with
  | nil =>
    cases h
    simp [PathStep.runtime]
  | cons i is ih =>
    match ns with
    | (n, stride) :: ns =>
      rw [List.zip_cons_cons, List.foldlM_cons] at h
      obtain ⟨p₁, h₁, h⟩ := bind_eq_ok.1 h
      rw [ih (Nat.succ.inj hlen) h, advance_terms h₁]
      simp [PathStep.runtime]

theorem follow_terms {step : PathStep κ} (h : p.follow name position step = .ok p') :
    p'.terms.map Term.code = p.terms.map Term.code ++ step.runtime := by
  cases step with
  | field f =>
    simp only [follow, select] at h
    split at h
    · split at h
      · cases h
        simp [PathStep.runtime]
      · cases h
    · cases h
    · cases h
  | indices is =>
    simp only [follow, element] at h
    split at h
    · cases h
    · split at h
      next hlen =>
        have hlen' : is.length = (strides p.shape.type.size p.shape.dims).length := by
          rw [hlen, length_strides]
        -- the shape is no part of what is shown
        exact advanceAll_terms (p := { p with shape := ⟨p.shape.type, []⟩ }) hlen' h
      next =>
        split at h
        · rw [advance_terms h]
          simp [PathStep.runtime]
        · cases h

/-- The terms of a place are the indices that are not constant. -/
theorem ofPath_terms {v : Variable} {P : List (Selector (Index κ))} (h : ofPath v position P = .ok p) :
    p.terms.map Term.code = runtime P := by
  have hfold {S : List (PathStep κ)} : ∀ {p p' : Place κ}, S.foldlM (follow v.name position) p = .ok p' →
      p'.terms.map Term.code = p.terms.map Term.code ++ S.flatMap PathStep.runtime := by
    induction S with
    | nil =>
      intro p p' h
      cases h
      simp
    | cons step S ih =>
      intro p p' h
      rw [List.foldlM_cons] at h
      obtain ⟨p₁, h₁, h⟩ := bind_eq_ok.1 h
      rw [ih h, follow_terms h₁, List.flatMap_cons, List.append_assoc]
  rw [ofPath_eq] at h
  rw [runtime_eq, hfold h]
  rfl

/-! ### Bounds -/

/-- What a place selects lies in a region of `n` cells. -/
def Within (n : Nat) (p : Place κ) : Prop := p.base + p.shape.size ≤ n ∧ p.shape.type.Sound

theorem elements_cons_le {k n : Nat} (size : Nat) (dims : List Nat) (h : k < n) :
    k * (elements dims * size) + elements dims * size ≤ elements (n :: dims) * size := by
  rw [elements, Nat.mul_assoc]
  exact Nat.succ_mul k (elements dims * size) ▸ Nat.mul_le_mul_right _ h

theorem advance_base {q q' : Place κ} {j : Index κ} {length stride : Nat} (hj : j.constant ≠ none ∨ 0 < length)
    (h : q.advance name j length stride = .ok q') :
    ∃ k < length, q'.base = q.base + k * stride ∧ q'.shape = q.shape := by
  rw [advance] at h
  cases hc : j.constant with
  | none =>
    rw [hc] at h
    cases h
    exact ⟨0, hj.resolve_left (· hc), by simp, rfl⟩
  | some v =>
    simp only [hc] at h
    split at h
    · cases h
    · cases h
      exact ⟨v.toNat, by omega, rfl, rfl⟩

theorem advanceAll_base {q q' : Place κ} {js : List (Index κ)} {dims : List Nat} {size n : Nat}
    (hj : (∀ j ∈ js, j.constant ≠ none) ∨ ∀ d ∈ dims, 0 < d) (hlen : js.length = dims.length)
    (h : (js.zip (strides size dims)).foldlM (fun p (i, n, stride) => p.advance name i n stride) q =
      .ok q')
    (hq : q.base + elements dims * size ≤ n) : q'.base + size ≤ n ∧ q'.shape = q.shape := by
  induction js generalizing dims q with
  | nil =>
    match dims with
    | [] =>
      cases h
      simpa [elements] using hq
  | cons j js ih =>
    match dims with
    | d :: dims =>
      rw [strides, List.zip_cons_cons, List.foldlM_cons] at h
      obtain ⟨q₁, hq₁, h⟩ := bind_eq_ok.1 h
      obtain ⟨k, hk, hbase, hshape⟩ :=
        advance_base (hj.imp (· j List.mem_cons_self) (· d List.mem_cons_self)) hq₁
      have hle := elements_cons_le size dims hk
      have hrest := hj.imp (fun hj j hmem => hj j (List.mem_cons_of_mem _ hmem))
        fun hd d hmem => hd d (List.mem_cons_of_mem _ hmem)
      exact hshape ▸ ih hrest (Nat.succ.inj hlen) h (by omega)

theorem elements_pos {dims : List Nat} (h : ∀ d ∈ dims, 0 < d) : 0 < elements dims := by
  induction dims with
  | nil => exact Nat.one_pos
  | cons d dims ih =>
    obtain ⟨hd, hdims⟩ := List.forall_mem_cons.1 h
    exact Nat.mul_pos hd (ih hdims)

theorem element_within {q q' : Place κ} {js : List (Index κ)} {n : Nat}
    (hj : (∀ j ∈ js, j.constant ≠ none) ∨ q.shape.Solid) (h : q.element name position js = .ok q')
    (hq : q.Within n) : q'.Within n ∧ q'.shape = ⟨q.shape.type, []⟩ := by
  obtain ⟨hbase, hsound⟩ := hq
  rw [Shape.size] at hbase
  simp only [element] at h
  split at h
  · cases h
  · split at h
    next hlen =>
      obtain ⟨hle, hshape⟩ := advanceAll_base (hj.imp_right Shape.Solid.dims) hlen h hbase
      exact ⟨⟨by rw [hshape]; simpa [Shape.size, elements] using hle, by rw [hshape]; exact hsound⟩, hshape⟩
    next =>
      match js with
      | [j] =>
        obtain ⟨k, hk, hbase', hshape⟩ :=
          advance_base (hj.imp (· j List.mem_cons_self) fun h => elements_pos h.dims) h
        have hle := Nat.mul_le_mul_right q.shape.type.size hk
        rw [Nat.succ_mul] at hle
        refine ⟨⟨?_, by rw [hshape]; exact hsound⟩, hshape⟩
        rw [hshape]
        simp only [Shape.size, elements, Nat.one_mul]
        simp only at hbase'
        omega
      | [] => cases h
      | _ :: _ :: _ => cases h

theorem select_within {f : String} {n : Nat} (h : p.select name position f = .ok p')
    (hp : p.Within n) : p'.Within n ∧ (p.shape.Solid → p'.shape.Solid) := by
  obtain ⟨base, terms, ⟨type, dims⟩, stop⟩ := p
  obtain ⟨hbase, hsound⟩ := hp
  match type, dims with
  | .int, _ => cases h
  | .struct _ _, _ :: _ => cases h
  | .struct struct fields, [] =>
    simp only [select] at h
    cases hf : findField? fields f with
    | none => rw [hf] at h; cases h
    | some g =>
      rw [hf] at h
      cases h
      have hmem : g ∈ fields := List.mem_of_find?_eq_some hf
      cases hsound with
      | struct inside types =>
        have := inside g hmem
        simp only [Shape.size, elements, ElementType.size, Nat.one_mul] at hbase
        refine ⟨⟨by show base + g.offset + g.shape.size ≤ n; omega, types g hmem⟩, fun hsolid => ?_⟩
        cases hsolid.type with
        | struct dims types => exact ⟨dims g hmem, types g hmem⟩

/-- Each step of a path moves to the right inside the variable. -/
theorem ofPath_of_moves {motive : Place κ → Prop} {v : Variable} {P : List (Selector (Index κ))}
    (start : motive { base := v.cell, shape := v.shape, stop := v.stop })
    (move : ∀ p base terms shape, motive p → p.base ≤ base → motive ⟨base, terms, shape, p.stop⟩)
    (h : ofPath v position P = .ok p) : motive p := by
  have hadvance {p p' : Place κ} {i : Index κ} {length stride : Nat} (hp : motive p)
      (h : p.advance v.name i length stride = .ok p') : motive p' := by
    rw [advance] at h
    split at h
    · split at h
      · cases h
      · cases h
        exact move p _ _ _ hp (Nat.le_add_right _ _)
    · cases h
      exact move p _ _ _ hp (Nat.le_refl _)
  have hshape {p : Place κ} {shape : Shape} (hp : motive p) : motive { p with shape } :=
    move p _ _ _ hp (Nat.le_refl _)
  rw [ofPath_eq] at h
  refine foldlM_keeps (P := motive) (fun p step p' _ hp hstep => ?_) start h
  cases step with
  | field f =>
    simp only [follow, select] at hstep
    split at hstep
    · split at hstep
      · cases hstep
        exact move p _ _ _ hp (Nat.le_add_right _ _)
      · cases hstep
    · cases hstep
    · cases hstep
  | indices is =>
    simp only [follow, element] at hstep
    split at hstep
    · cases hstep
    · split at hstep
      · exact foldlM_keeps (P := motive) (fun _ _ _ _ hb h => hadvance hb h) (hshape hp) hstep
      · split at hstep
        · exact hadvance (hshape hp) hstep
        · cases hstep

/-- A path only leads to the right. -/
theorem ofPath_le {v : Variable} {P : List (Selector (Index κ))} (h : ofPath v position P = .ok p) :
    v.cell ≤ p.base :=
  ofPath_of_moves (motive := fun p => v.cell ≤ p.base) (Nat.le_refl _)
    (fun _ _ _ _ hp hbase => Nat.le_trans hp hbase) h

theorem ofPath_stop {v : Variable} {P : List (Selector (Index κ))} (h : ofPath v position P = .ok p) :
    p.stop = v.stop :=
  ofPath_of_moves (motive := fun p => p.stop = v.stop) rfl (fun _ _ _ _ hp _ => hp) h

/-- Every index of a path with values is constant. -/
theorem StepFilling.constant {S : List (PathStep κ)} {T : List (PathStep Cell)}
    (h : StepFilling S T l) :
    ∀ js, .indices js ∈ T → ∀ j ∈ js, j.constant ≠ none := by
  have hindex {is : List (Index κ)} {js : List (Index Cell)} {l : List (κ × Cell)}
      (h : IndexFilling is js l) : ∀ j ∈ js, j.constant ≠ none := by
    induction h with
    | nil => simp
    | constant _ ih | value _ ih => simpa using ih
  induction h with
  | nil => simp
  | field _ ih => simpa using ih
  | indices first _ ih =>
    intro js hjs
    rcases List.mem_cons.1 hjs with h | hjs
    · cases h
      exact hindex first
    · exact ih js hjs

/-- Fields and constant indices lead to a part of what there was, and so does any index if no
array has length zero. -/
theorem follow_within {S : List (PathStep κ)} {n : Nat}
    (hS : (∀ is, .indices is ∈ S → ∀ i ∈ is, i.constant ≠ none) ∨ p.shape.Solid) (hp : p.Within n)
    (h : S.foldlM (follow name position) p = .ok p') : p'.Within n := by
  let motive (p : Place κ) : Prop :=
    p.Within n ∧ ((∀ is, .indices is ∈ S → ∀ i ∈ is, i.constant ≠ none) ∨ p.shape.Solid)
  suffices hmotive : motive p' from hmotive.1
  refine foldlM_keeps (P := motive) (fun p step p' hmem ⟨hp, hS⟩ hstep => ?_) ⟨hp, hS⟩ h
  cases step with
  | field f =>
    obtain ⟨hp', hsolid⟩ := select_within hstep hp
    exact ⟨hp', hS.imp_right hsolid⟩
  | indices is =>
    obtain ⟨hp', hshape⟩ := element_within (hS.imp_left fun hS => hS is hmem) hstep hp
    exact ⟨hp', hS.imp_right fun hsolid => hshape ▸ ⟨nofun, hsolid.type⟩⟩

/-- What a path with values selects lies inside the variable. -/
theorem ofPath_within {v : Variable} {P : List (Selector (Index κ))} {Q : List (Selector (Index Cell))}
    (h : Filling P Q l) (hv : v.shape.type.Sound)
      (hq : ofPath ⟨v.name, v.shape, 0⟩ position Q = .ok q) :
    q.base + q.shape.size ≤ v.size := by
  rw [ofPath_eq] at hq
  exact (follow_within (n := v.size) (.inl (steps_filling h).constant) ⟨by simp [Variable.size], hv⟩ hq).1

/-- What a path without runtime indices selects lies inside the variable. So does what any path
selects, but for the terms, if no array has length zero. -/
theorem ofPath_inside {v : Variable} {P : List (Selector (Index κ))} (h : ofPath v position P = .ok p)
    (hterms : p.terms = [] ∨ v.shape.Solid) (hv : v.shape.type.Sound) : p.base + p.shape.size ≤ v.stop := by
  have hconstant (hterms : p.terms = []) (is : List (Index κ)) (his : .indices is ∈ steps P) :
      ∀ i ∈ is, i.constant ≠ none := by
    have hruntime : (steps P).flatMap PathStep.runtime = [] := by
      rw [← runtime_eq, ← ofPath_terms h, hterms]
      rfl
    intro i hi hnone
    have hstep := List.flatMap_eq_nil_iff.1 (List.flatMap_eq_nil_iff.1 hruntime _ his) i hi
    rw [hnone] at hstep
    cases hstep
  rw [ofPath_eq] at h
  exact (follow_within (hterms.imp_left hconstant) ⟨Nat.le_refl _, hv⟩ h).1

end Place
end TapeC.Layout
