import TapeC.Proofs.Place
import TapeC.Proofs.Syntax

/-! Paths whose indices are replaced. What a path selects depends on the constant values and
the positions of its indices; their code is only handed on. -/

namespace TapeC.Layout

open Program

variable {ι κ : Type} {f : ι → κ}

def Index.map (f : ι → κ) (i : Index ι) : Index κ := ⟨i.constant, i.position, f i.code⟩

def Term.map (f : ι → κ) (t : Term ι) : Term κ := ⟨f t.code, t.stride⟩

/-- A fold on both sides of a function. -/
theorem foldlM_natural {α β α' β' ε : Type} {g : α → α'} {k : β → β'} {step : β → α → Except ε β}
    {step' : β' → α' → Except ε β'} (h : ∀ b a, step' (k b) (g a) = (step b a).map k) (as : List α) (b : β) :
    (as.map g).foldlM step' (k b) = (as.foldlM step b).map k := by
  induction as generalizing b with
  | nil => rfl
  | cons a as ih =>
    rw [List.map_cons, List.foldlM_cons, List.foldlM_cons, h]
    cases step b a with
    | error fault => rfl
    | ok next => exact ih next

namespace Place

def map (f : ι → κ) (p : Place ι) : Place κ := ⟨p.base, p.terms.map (Term.map f), p.shape, p.stop⟩

def PathStep.map (f : ι → κ) : PathStep ι → PathStep κ
  | .field name => .field name
  | .indices is => .indices (is.map (Index.map f))

theorem steps_map (P : List (Selector (Index ι))) :
    steps (P.map (Selector.map (Index.map f))) = (steps P).map (PathStep.map f) := by
  induction P with
  | nil => rfl
  | cons s P ih =>
    cases s with
    | field name => rw [List.map_cons, Selector.map, steps, steps, ih, List.map_cons, PathStep.map]
    | index i =>
      rw [List.map_cons, Selector.map, steps, steps, ih]
      cases steps P with
      | nil => rfl
      | cons step more => cases step <;> rfl

variable {p : Place ι} {name : String} {position : Position}

theorem advance_map {i : Index ι} {length stride : Nat} :
    (p.map f).advance name (i.map f) length stride = (p.advance name i length stride).map (map f) := by
  obtain ⟨constant, q, code⟩ := i
  cases constant with
  | none => simp [advance, Index.map, map, Term.map, Except.map]
  | some n =>
    simp only [advance, Index.map]
    split <;> rfl

theorem advanceAll_map {is : List (Index ι)} {ns : List (Nat × Nat)} :
    ((is.map (Index.map f)).zip ns).foldlM (fun q ((i, n, stride) : Index κ × Nat × Nat) =>
        Place.advance name q i n stride) (p.map f) =
      ((is.zip ns).foldlM (fun q ((i, n, stride) : Index ι × Nat × Nat) =>
        Place.advance name q i n stride) p).map (map f) := by
  rw [List.zip_map_left]
  exact foldlM_natural (k := map f) (fun _ (_, _, _) => advance_map) (is.zip ns) p

theorem element_map {is : List (Index ι)} :
    (p.map f).element name position (is.map (Index.map f)) = (p.element name position is).map (map f) := by
  have hshape : (p.map f).shape = p.shape := rfl
  let q : Place ι := { p with shape := ⟨p.shape.type, []⟩ }
  by_cases hempty : p.shape.dims.isEmpty = true
  · simp only [element, hshape, hempty, if_true]
    rfl
  by_cases hlen : is.length = p.shape.dims.length
  · simp only [element, hshape, hempty, List.length_map, hlen, if_true]
    exact advanceAll_map (p := q)
  · simp only [element, hshape, hempty, List.length_map, hlen, if_false]
    rcases is with _ | ⟨i, _ | ⟨j, is⟩⟩
    · rfl
    · exact advance_map (p := q)
    · rfl

theorem select_map {field : String} :
    (p.map f).select name position field = (p.select name position field).map (map f) := by
  rw [select, select, show (p.map f).shape = p.shape from rfl]
  split
  · split <;> rfl
  · rfl
  · rfl

/-- A path with other indices selects the same place with other indices. -/
theorem ofPath_map {v : Variable} {P : List (Selector (Index ι))} :
    ofPath v position (P.map (Selector.map (Index.map f))) = (ofPath v position P).map (map f) := by
  rw [ofPath_eq, ofPath_eq, steps_map]
  refine foldlM_natural (k := map f) (fun p step => ?_) (steps P) { base := v.cell, shape := v.shape, stop := v.stop }
  cases step with
  | field name => exact select_map
  | indices is => exact element_map

end Place

theorem runtime_indexed (P : List (Selector (Index κ))) :
    runtime P = ((indexed P).filter (·.constant.isNone)).map Index.code := by
  induction P with
  | nil => rfl
  | cons s P ih =>
    match s with
    | .field name => exact ih
    | .index ⟨some n, q, code⟩ => exact ih
    | .index ⟨none, q, code⟩ => exact congrArg (code :: ·) ih

theorem mem_runtime {P : List (Selector (Index κ))} {c : κ} (h : c ∈ runtime P) :
    ∃ i ∈ indexed P, i.code = c := by
  rw [runtime_indexed] at h
  obtain ⟨i, hi, rfl⟩ := List.mem_map.1 h
  exact ⟨i, (List.mem_filter.1 hi).1, rfl⟩

/-- The terms of a place are indices of its path. -/
theorem Place.code_of_mem_terms {v : Variable} {position : Position} {P : List (Selector (Index κ))}
    {p : Place κ} (h : ofPath v position P = .ok p) {t : Term κ} (ht : t ∈ p.terms) :
    ∃ i ∈ indexed P, i.code = t.code :=
  mem_runtime (ofPath_terms h ▸ List.mem_map_of_mem ht)

end TapeC.Layout
