import TapeC.Layout.Contents
import TapeC.Program.Folding
import TapeC.Proofs.Place

/-! Laying out an initializer does not depend on what its expressions are, and yields a
content for each cell of the variable. The expressions and the bytes of strings come in the order
in which they are written, with zeros between and behind them where a row is not full; each list
inside a list of nothing but lists fills a row of its own. -/

namespace TapeC.Layout

open Program

variable {ε δ : Type} {f : ε → δ} {name : String} {position : Position} {dims : List Nat}
  {size room : Nat} {fill : Bool}

def Content.map (f : ε → δ) : Content ε → Content δ
  | .byte v => .byte v
  | .value e => .value (f e)

/-- The contents of one item of a list. -/
def itemRegion (name : String) (position : Position) (dims : List Nat) (size : Nat)
    (item : Initializer ε) : Except CompileFault (List (Content ε)) :=
  match isList item, dims with
  | true, _ :: rows => region name position rows size true item
  | true, [] => region name position [] size false item
  | false, _ => region name position [] 1 false item

theorem regionItems_cons {item : Initializer ε} {items : List (Initializer ε)} :
    regionItems name position dims size (item :: items) = do
      return (← itemRegion name position dims size item) ++
        (← regionItems name position dims size items) := by
  conv => lhs; unfold regionItems
  unfold itemRegion
  cases isList item <;> cases dims <;> rfl

/-! ### Changing the expressions -/

theorem isList_map (i : Initializer ε) : isList (i.map f) = isList i := by
  cases i <;> rfl

theorem bounded_map (cells : List (Content ε)) :
    bounded name position room fill (cells.map (Content.map f)) =
      (bounded name position room fill cells).map (List.map (Content.map f)) := by
  rw [bounded, bounded, List.length_map]
  split
  · rfl
  · split
    · simp [Except.map, Content.map]
    · rfl

mutual
theorem region_map (dims : List Nat) (size : Nat) (fill : Bool) : (i : Initializer ε) →
    region name position dims size fill (i.map f) =
      (region name position dims size fill i).map (List.map (Content.map f))
  | .single e => by
    rw [Initializer.map, region, region, ← bounded_map]
    rfl
  | .text s p => by
    rw [Initializer.map, region, region, ← bounded_map, List.map_map]
    rfl
  | .list items p => by
    rw [Initializer.map, region, region, regionItems_map dims size items]
    cases regionItems name position dims size items with
    | error e => rfl
    | ok cells => exact bounded_map cells

theorem regionItems_map (dims : List Nat) (size : Nat) : (items : List (Initializer ε)) →
    regionItems name position dims size (mapItems f items) =
      (regionItems name position dims size items).map (List.map (Content.map f))
  | [] => rfl
  | item :: items => by
    have hitem : itemRegion name position dims size (item.map f) =
        (itemRegion name position dims size item).map (List.map (Content.map f)) := by
      unfold itemRegion
      rw [isList_map]
      split
      · exact region_map _ size true item
      · exact region_map [] size false item
      · exact region_map [] 1 false item
    rw [mapItems, regionItems_cons, regionItems_cons, regionItems_map dims size items, hitem]
    cases itemRegion name position dims size item <;> cases regionItems name position dims size items <;>
      simp [bind, Except.bind, Except.map, pure, Except.pure]
end

variable {shape : Shape} {cells cells' more given given' : List (Content ε)} {place : ε → Position}

theorem layOutContents_map {place : δ → Position} (i : Initializer ε) :
    layOutContents place name position shape (i.map f) =
      (layOutContents (place ∘ f) name position shape i).map (List.map (Content.map f)) := by
  cases i with
  | single e =>
    rw [Initializer.map, layOutContents, layOutContents]
    split <;> rfl
  | list items p => exact region_map _ _ _ (.list items p)
  | text s p => exact region_map _ _ _ (.text s p)

theorem layOutContents_congr {place' : ε → Position} {i : Initializer ε} (h : ∀ e ∈ i.leaves, place e = place' e) :
    layOutContents place name position shape i = layOutContents place' name position shape i := by
  cases i with
  | single e => rw [layOutContents, layOutContents, h e (List.mem_singleton_self e)]
  | list | text => rfl

/-- Positions matter for faults only. -/
theorem layOutContents_place (place' : ε → Position) {i : Initializer ε}
    (h : layOutContents place name position shape i = .ok cells) :
    layOutContents place' name position shape i = .ok cells := by
  cases i with
  | single e =>
    rw [layOutContents] at h ⊢
    split at h
    next hs => rw [if_pos hs, h]
    next => cases h
  | list items p => exact h
  | text s p => exact h

/-! ### Given contents -/

mutual
/-- What an initializer gives, in the order in which it is written. -/
def givenBy : Initializer ε → List (Content ε)
  | .single e => [.value e]
  | .text s _ => (Text.bytes s.toList).map .byte
  | .list items _ => givenByItems items

def givenByItems : List (Initializer ε) → List (Content ε)
  | [] => []
  | item :: items => givenBy item ++ givenByItems items
end

/-- The expression of a content. -/
def Content.expr? : Content ε → Option ε
  | .byte _ => none
  | .value e => some e

mutual
theorem exprs_givenBy : (i : Initializer ε) → (givenBy i).filterMap Content.expr? = i.leaves
  | .single e => rfl
  | .text s p => by
    rw [givenBy, Initializer.leaves, List.filterMap_map]
    exact List.filterMap_eq_nil_iff.2 fun _ _ => rfl
  | .list items p => by rw [givenBy, Initializer.leaves, exprs_givenByItems items]

theorem exprs_givenByItems : (items : List (Initializer ε)) →
    (givenByItems items).filterMap Content.expr? = leavesOfItems items
  | [] => rfl
  | item :: items => by
    rw [givenByItems, leavesOfItems, List.filterMap_append, exprs_givenBy item, exprs_givenByItems items]
end

/-! ### Padding -/

/-- The cells hold what is given, in order, and zeros. -/
inductive Padded : List (Content ε) → List (Content ε) → Prop where
  | nil : Padded [] []
  | given {c : Content ε} {cs cells : List (Content ε)} (rest : Padded cs cells) : Padded (c :: cs) (c :: cells)
  | zero {cs cells : List (Content ε)} (rest : Padded cs cells) : Padded cs (.byte 0 :: cells)

namespace Padded

theorem refl : (cells : List (Content ε)) → Padded cells cells
  | [] => .nil
  | _ :: cells => .given (refl cells)

theorem zeros : (n : Nat) → Padded ([] : List (Content ε)) (List.replicate n (.byte 0))
  | 0 => .nil
  | n + 1 => .zero (zeros n)

theorem append (h : Padded given cells) (h' : Padded given' cells') : Padded (given ++ given') (cells ++ cells') := by
  induction h with
  | nil => exact h'
  | given _ ih => exact .given ih
  | zero _ ih => exact .zero ih

theorem exprs (h : Padded given cells) : cells.filterMap Content.expr? = given.filterMap Content.expr? := by
  induction h with
  | nil => rfl
  | @given c _ _ _ ih => rw [List.filterMap_cons, List.filterMap_cons, ih]
  | zero _ ih => exact ih

theorem bounded (h : Padded given cells) (hb : bounded name position room fill cells = .ok more) :
    Padded given more := by
  rw [Layout.bounded] at hb
  split at hb
  · cases hb
  · split at hb
    · cases hb
      exact List.append_nil given ▸ h.append (zeros _)
    · cases hb
      exact h

end Padded

mutual
theorem padded_region (dims : List Nat) (size : Nat) (fill : Bool) : (i : Initializer ε) →
    (cells : List (Content ε)) → region name position dims size fill i = .ok cells → Padded (givenBy i) cells
  | .single e, cells, h => by
    rw [region] at h
    exact (Padded.refl _).bounded h
  | .text s p, cells, h => by
    rw [region] at h
    exact (Padded.refl _).bounded h
  | .list items p, cells, h => by
    rw [region] at h
    obtain ⟨cells', hcells, h⟩ := bind_eq_ok.1 h
    exact (padded_regionItems dims size items cells' hcells).bounded h

theorem padded_regionItems (dims : List Nat) (size : Nat) : (items : List (Initializer ε)) →
    (cells : List (Content ε)) → regionItems name position dims size items = .ok cells →
      Padded (givenByItems items) cells
  | [], cells, h => by
    cases h
    exact .nil
  | item :: items, cells, h => by
    rw [regionItems_cons] at h
    obtain ⟨first, hfirst, h⟩ := bind_eq_ok.1 h
    obtain ⟨rest, hrest, h⟩ := bind_eq_ok.1 h
    cases h
    refine Padded.append ?_ (padded_regionItems dims size items rest hrest)
    unfold itemRegion at hfirst
    split at hfirst
    · exact padded_region _ size true item first hfirst
    · exact padded_region [] size false item first hfirst
    · exact padded_region [] 1 false item first hfirst
end

theorem padded_layOutContents {i : Initializer ε} (h : layOutContents place name position shape i = .ok cells) :
    Padded (givenBy i) cells := by
  cases i with
  | single e =>
    rw [layOutContents] at h
    split at h
    · cases h
      exact .refl _
    · cases h
  | list items p => exact padded_region _ _ _ _ _ h
  | text s p => exact padded_region _ _ _ _ _ h

/-- The expressions of the initializer are evaluated, and no other ones. -/
theorem exprs_layOutContents {i : Initializer ε} (h : layOutContents place name position shape i = .ok cells) :
    cells.filterMap Content.expr? = i.leaves :=
  (padded_layOutContents h).exprs.trans (exprs_givenBy i)

theorem mem_exprs {e : ε} : e ∈ cells.filterMap Content.expr? ↔ .value e ∈ cells := by
  rw [List.mem_filterMap]
  constructor
  · rintro ⟨c, hc, he⟩
    cases c with
    | byte v => cases he
    | value e' =>
      cases he
      exact hc
  · exact fun he => ⟨_, he, rfl⟩

theorem mem_layOutContents {e : ε} {i : Initializer ε} (h : layOutContents place name position shape i = .ok cells)
    (he : .value e ∈ cells) : e ∈ i.leaves :=
  exprs_layOutContents h ▸ mem_exprs.2 he

theorem layOutContents_keeps {e : ε} {i : Initializer ε} (h : layOutContents place name position shape i = .ok cells)
    (he : e ∈ i.leaves) : .value e ∈ cells :=
  mem_exprs.1 (exprs_layOutContents h ▸ he)

/-! ### How much is laid out -/

/-- Contents that are not too many are filled up with zeros. -/
theorem bounded_eq_ok (h : bounded name position room true cells = .ok more) :
    cells.length ≤ room ∧ more = cells ++ List.replicate (room - cells.length) (.byte 0) := by
  rw [bounded] at h
  split at h
  · cases h
  next hroom =>
    cases h
    exact ⟨Nat.not_lt.1 hroom, rfl⟩

theorem length_bounded (h : bounded name position room true cells = .ok more) : more.length = room := by
  obtain ⟨hroom, rfl⟩ := bounded_eq_ok h
  rw [List.length_append, List.length_replicate]
  omega

theorem length_region {i : Initializer ε} (h : region name position dims size true i = .ok cells) :
    cells.length = elements dims * size := by
  cases i with
  | single e => exact length_bounded h
  | text s p => exact length_bounded h
  | list items p =>
    rw [region] at h
    obtain ⟨_, _, h⟩ := bind_eq_ok.1 h
    exact length_bounded h

/-- There is a content for each cell. -/
theorem length_layOutContents {i : Initializer ε}
    (h : layOutContents place name position shape i = .ok cells) : cells.length = shape.size := by
  cases i with
  | single e =>
    rw [layOutContents] at h
    split at h
    next hs =>
      cases h
      exact hs.symm
    next => cases h
  | list items p => exact length_region h
  | text s p => exact length_region h

/-! ### Rows -/

variable {n : Nat} {rows : List Nat} {item : Initializer ε} {items : List (Initializer ε)}

theorem itemRegion_of_isList (h : isList item = true) :
    itemRegion name position (n :: rows) size item = region name position rows size true item := by
  unfold itemRegion
  rw [h]

/-- Lists in a list fill one row each. -/
theorem regionItems_rows (h : regionItems name position (n :: rows) size items = .ok cells)
    (hlists : ∀ item ∈ items, isList item = true) :
    cells.length = items.length * (elements rows * size) ∧ ∀ k item, items[k]? = some item →
      region name position rows size true item =
        .ok ((cells.drop (k * (elements rows * size))).take (elements rows * size)) := by
  induction items generalizing cells with
  | nil =>
    cases h
    exact ⟨(Nat.zero_mul _).symm, nofun⟩
  | cons first items ih =>
    obtain ⟨hfirst, hlists⟩ := List.forall_mem_cons.1 hlists
    rw [regionItems_cons, itemRegion_of_isList hfirst] at h
    obtain ⟨row, hrow, h⟩ := bind_eq_ok.1 h
    obtain ⟨rest, hrest, h⟩ := bind_eq_ok.1 h
    cases h
    obtain ⟨hlength, hitems⟩ := ih hrest hlists
    have hwidth := length_region hrow
    refine ⟨?_, fun k item hk => ?_⟩
    · rw [List.length_append, List.length_cons, hlength, hwidth, Nat.succ_mul, Nat.add_comm]
    cases k with
    | zero =>
      cases hk
      rw [Nat.zero_mul, List.drop_zero, ← hwidth, List.take_left]
      exact hrow
    | succ k =>
      have hdrop : (row ++ rest).drop ((k + 1) * (elements rows * size)) =
          rest.drop (k * (elements rows * size)) := by
        rw [Nat.succ_mul, Nat.add_comm, ← List.drop_drop, ← hwidth, List.drop_left, hwidth]
      rw [hdrop]
      exact hitems k item hk

theorem layOutContents_of_isList (h : isList item = true) :
    layOutContents place name position shape item = region name position shape.dims shape.type.size true item := by
  cases item with
  | list items p => rfl
  | single e => cases h
  | text s p => cases h

/-- The contents of a variable cover its cells. They are the expressions of the initializer and the
bytes of its strings, in the order in which they are written, and zeros; and if there are only lists in
a list, each one fills one row. -/
theorem layOutContents_covers {i : Initializer ε} (h : layOutContents place name position shape i = .ok cells) :
    cells.length = elements shape.dims * shape.type.size ∧ Padded (givenBy i) cells ∧
      cells.filterMap Content.expr? = i.leaves ∧
      ∀ items p n rows, i = .list items p → (∀ item ∈ items, isList item = true) → shape.dims = n :: rows →
        let row := elements rows * shape.type.size
        (∀ k item, items[k]? = some item →
          layOutContents place name position ⟨shape.type, rows⟩ item = .ok ((cells.drop (k * row)).take row)) ∧
        ∀ c ∈ cells.drop (items.length * row), c = .byte 0 := by
  refine ⟨length_layOutContents h, padded_layOutContents h, exprs_layOutContents h, ?_⟩
  intro items p n rows hi hlists hdims row
  subst hi
  rw [layOutContents_of_isList rfl, region] at h
  obtain ⟨given, hgiven, h⟩ := bind_eq_ok.1 h
  rw [hdims] at hgiven
  obtain ⟨hlength, hrows⟩ := regionItems_rows hgiven hlists
  obtain ⟨-, rfl⟩ := bounded_eq_ok h
  refine ⟨fun k item hk => ?_, fun c hc => ?_⟩
  · have hwithin : k * row + row ≤ given.length := by
      rw [hlength, ← Nat.succ_mul]
      exact Nat.mul_le_mul_right _ (List.getElem?_eq_some_iff.1 hk).1
    have hlength : row ≤ (given.drop (k * row)).length := by
      rw [List.length_drop]
      omega
    rw [List.drop_append_of_le_length (by omega), List.take_append_of_le_length hlength,
      layOutContents_of_isList (hlists item (List.mem_of_getElem? hk))]
    exact hrows k item hk
  · rw [← hlength, List.drop_left] at hc
    exact List.eq_of_mem_replicate hc

/-- `int m[2][3] = {{1}, {4, 5}};` -/
theorem layOutContents_covers_matrix :
    let matrix : Initializer Nat := .list [.list [.single 1] .start, .list [.single 4, .single 5] .start] .start
    let cells : List (Content Nat) := [.value 1, .byte 0, .byte 0, .value 4, .value 5, .byte 0]
    layOutContents (fun _ => .start) "m" .start ⟨.int, [2, 3]⟩ matrix = .ok cells ∧
      cells.filterMap Content.expr? = [1, 4, 5] ∧
      layOutContents (fun _ => .start) "m" .start ⟨.int, [3]⟩ (.list [.single 4, .single 5] .start) =
        .ok [.value 4, .value 5, .byte 0] := by
  intro matrix cells
  have hcells : layOutContents (fun _ => .start) "m" .start ⟨.int, [2, 3]⟩ matrix = .ok cells := rfl
  obtain ⟨-, -, hexprs, hrows⟩ := layOutContents_covers hcells
  have hlists : ∀ item ∈ [Initializer.list [.single 1] .start, .list [.single 4, .single 5] .start],
      isList item = true := by simp [isList]
  exact ⟨hcells, hexprs, (hrows _ _ 2 [3] rfl hlists rfl).1 1 _ rfl⟩

end TapeC.Layout
