import TapeC.Layout.Definitions
import TapeC.Proofs.Contents

/-! Where faults about recursive calls come from. Names, types, paths and contents are refused
for other reasons. -/

namespace TapeC

/-- The fault is not that a function is called while it is being expanded. -/
def CompileFault.Ordinary (fault : CompileFault) : Prop :=
  ∀ position name, fault ≠ .semantic position (.recursion name)

namespace Layout

open Program

variable {α β ε κ : Type} {name : String} {position : Position}

/-- Any fault is an ordinary one. -/
def FailsOrdinarily (x : Except CompileFault α) : Prop := ∀ fault, x = .error fault → fault.Ordinary

theorem failsOrdinarily_ok {a : α} : FailsOrdinarily (.ok a) := nofun

theorem failsOrdinarily_error {cause : SemanticCause} (h : ∀ name, cause ≠ .recursion name) :
    FailsOrdinarily (.error (.semantic position cause) : Except CompileFault α) := by
  rintro _ ⟨⟩ position' name hfault
  cases hfault
  exact h name rfl

theorem FailsOrdinarily.bind {x : Except CompileFault α} {f : α → Except CompileFault β}
    (hx : FailsOrdinarily x) (hf : ∀ a, FailsOrdinarily (f a)) : FailsOrdinarily (x >>= f) := by
  cases x with
  | error fault => exact fun _ h => by cases h; exact hx fault rfl
  | ok a => exact hf a

theorem failsOrdinarily_foldlM {f : β → α → Except CompileFault β} (hf : ∀ b a, FailsOrdinarily (f b a))
    (as : List α) (b : β) : FailsOrdinarily (as.foldlM f b) := by
  induction as generalizing b with
  | nil => exact failsOrdinarily_ok
  | cons a as ih =>
    rw [List.foldlM_cons]
    exact (hf b a).bind fun b => ih b

/-! ### Names and types -/

theorem resolveType_failsOrdinarily {structs : List StructLayout} {type : TypeName} :
    FailsOrdinarily (resolveType structs position type) := by
  cases type with
  | int => exact failsOrdinarily_ok
  | struct name =>
    rw [resolveType]
    split
    · exact failsOrdinarily_ok
    · exact failsOrdinarily_error (by simp)

theorem declare_failsOrdinarily {scopes : Scopes} {shape : Shape} :
    FailsOrdinarily (scopes.declare name shape position) := by
  rw [Scopes.declare]
  split
  · exact failsOrdinarily_error (by simp)
  · exact failsOrdinarily_ok

theorem lookup_failsOrdinarily {scopes : Scopes} : FailsOrdinarily (scopes.lookup name position) := by
  rw [Scopes.lookup]
  split
  · exact failsOrdinarily_ok
  · exact failsOrdinarily_error (by simp)

/-! ### Paths -/

namespace Place

variable {p : Place κ}

theorem select_failsOrdinarily {field : String} : FailsOrdinarily (p.select name position field) := by
  rw [select]
  split
  · split
    · exact failsOrdinarily_ok
    · exact failsOrdinarily_error (by simp)
  · exact failsOrdinarily_error (by simp)
  · exact failsOrdinarily_error (by simp)

theorem advance_failsOrdinarily {i : Index κ} {length stride : Nat} :
    FailsOrdinarily (p.advance name i length stride) := by
  rw [advance]
  split
  · split
    · exact failsOrdinarily_error (by simp)
    · exact failsOrdinarily_ok
  · exact failsOrdinarily_ok

theorem element_failsOrdinarily {is : List (Index κ)} : FailsOrdinarily (p.element name position is) := by
  unfold element
  dsimp only
  split
  · exact failsOrdinarily_error (by simp)
  split
  · exact failsOrdinarily_foldlM (fun _ (_, _, _) => advance_failsOrdinarily) _ _
  split
  · exact advance_failsOrdinarily
  · exact failsOrdinarily_error (by simp)

theorem ofPath_failsOrdinarily {v : Variable} {path : List (Selector (Index κ))} :
    FailsOrdinarily (ofPath v position path) :=
  failsOrdinarily_foldlM (fun _ step =>
    match step with
    | .field _ => select_failsOrdinarily
    | .indices _ => element_failsOrdinarily) _ _

end Place

/-! ### Contents -/

variable {dims : List Nat} {size room : Nat} {fill : Bool}

theorem bounded_failsOrdinarily {cells : List (Content ε)} :
    FailsOrdinarily (bounded name position room fill cells) := by
  rw [bounded]
  split
  · exact failsOrdinarily_error (by simp)
  split <;> exact failsOrdinarily_ok

mutual
theorem region_failsOrdinarily (dims : List Nat) (size : Nat) (fill : Bool) : (i : Initializer ε) →
    FailsOrdinarily (region name position dims size fill i)
  | .single _ => bounded_failsOrdinarily
  | .text _ _ => bounded_failsOrdinarily
  | .list items _ => (regionItems_failsOrdinarily dims size items).bind fun _ => bounded_failsOrdinarily

theorem regionItems_failsOrdinarily (dims : List Nat) (size : Nat) : (items : List (Initializer ε)) →
    FailsOrdinarily (regionItems name position dims size items)
  | [] => failsOrdinarily_ok
  | item :: items => by
    have hitem : FailsOrdinarily (itemRegion name position dims size item) := by
      unfold itemRegion
      split
      · exact region_failsOrdinarily _ size true item
      · exact region_failsOrdinarily [] size false item
      · exact region_failsOrdinarily [] 1 false item
    rw [regionItems_cons]
    exact hitem.bind fun _ => (regionItems_failsOrdinarily dims size items).bind fun _ => failsOrdinarily_ok
end

theorem layOutContents_failsOrdinarily {place : ε → Position} {shape : Shape} {i : Initializer ε} :
    FailsOrdinarily (layOutContents place name position shape i) := by
  cases i with
  | single e =>
    rw [layOutContents]
    split
    · exact failsOrdinarily_ok
    · exact failsOrdinarily_error (by simp)
  | list items p => exact region_failsOrdinarily _ _ _ (.list items p)
  | text s p => exact region_failsOrdinarily _ _ _ (.text s p)

/-! ### Definitions -/

namespace Definitions

variable {structs : List StructLayout}

theorem failsOrdinarily_mapM {f : α → Except CompileFault β} (hf : ∀ a, FailsOrdinarily (f a)) (as : List α) :
    FailsOrdinarily (as.mapM f) := by
  induction as with
  | nil => exact failsOrdinarily_ok
  | cons a as ih =>
    rw [List.mapM_cons]
    exact (hf a).bind fun _ => ih.bind fun _ => failsOrdinarily_ok

theorem addField_failsOrdinarily {struct : String} {fields : List (Field ElementType)} {f : FieldDef} :
    FailsOrdinarily (addField structs struct fields f) := by
  rw [addField]
  split
  · exact failsOrdinarily_error (by simp)
  split
  · exact failsOrdinarily_error (by simp)
  · exact resolveType_failsOrdinarily.bind fun _ => failsOrdinarily_ok

theorem addStruct_failsOrdinarily {d : StructDef} : FailsOrdinarily (addStruct structs d) := by
  rw [addStruct]
  split
  · exact failsOrdinarily_error (by simp)
  · refine FailsOrdinarily.bind ?_ fun _ => failsOrdinarily_ok
    exact (failsOrdinarily_foldlM (fun _ _ => addField_failsOrdinarily) _ _).bind fun _ => failsOrdinarily_ok

theorem globalContents_failsOrdinarily {d : Declaration} {shape : Shape} :
    FailsOrdinarily (globalContents d shape) := by
  rw [globalContents]
  split
  · exact failsOrdinarily_ok
  · refine layOutContents_failsOrdinarily.bind fun cells => ?_
    refine (failsOrdinarily_mapM (fun c => ?_) cells).bind fun _ => failsOrdinarily_ok
    rw [globalCell.eq_def]
    split
    · exact failsOrdinarily_ok
    · split
      · exact failsOrdinarily_ok
      · exact failsOrdinarily_error (by simp)

theorem addGlobal_failsOrdinarily {g : Globals} {d : Declaration} : FailsOrdinarily (addGlobal structs g d) :=
  resolveType_failsOrdinarily.bind fun _ => declare_failsOrdinarily.bind fun _ =>
    globalContents_failsOrdinarily.bind fun _ => failsOrdinarily_ok

theorem checkParameters_failsOrdinarily (earlier : List String) (params : List Parameter) :
    FailsOrdinarily (checkParameters earlier params) := by
  induction params generalizing earlier with
  | nil => exact failsOrdinarily_ok
  | cons q params ih =>
    rw [checkParameters]
    split
    · exact failsOrdinarily_error (by simp)
    · exact ih _

theorem addFunction_failsOrdinarily {functions : List FunctionDef} {d : FunctionDef} :
    FailsOrdinarily (addFunction functions d) := by
  rw [addFunction]
  split
  · exact failsOrdinarily_error (by simp)
  · exact (checkParameters_failsOrdinarily _ _).bind fun _ => failsOrdinarily_ok

/-- The definitions of a program are not refused for a recursive call. -/
theorem ofProgram_failsOrdinarily {p : Program} : FailsOrdinarily (ofProgram p) :=
  (failsOrdinarily_foldlM (fun _ _ => addStruct_failsOrdinarily) _ _).bind fun _ =>
    (failsOrdinarily_foldlM (fun _ _ => addGlobal_failsOrdinarily) _ _).bind fun _ =>
      (failsOrdinarily_foldlM (fun _ _ => addFunction_failsOrdinarily) _ _).bind fun _ => failsOrdinarily_ok

end Definitions
end Layout
end TapeC
