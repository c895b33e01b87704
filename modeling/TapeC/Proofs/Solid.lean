import TapeC.Proofs.Initialized
import TapeC.Proofs.Parts
import TapeC.Proofs.Program
import TapeC.Proofs.Written

/-! Programs in which no array has length zero, as are all that can be written. Optimizing such a
program and laying out its definitions leads to no such array either. -/

namespace TapeC

open Layout Program

namespace Program

/-- No array that the statement declares has length zero. -/
def Statement.Solid (s : Statement) : Prop := ∀ d, Statement.Has (.declare d) s → ∀ n ∈ d.dims, 0 < n

/-- No array of the program has length zero. -/
structure Solid (p : Program) : Prop where
  structs : ∀ d ∈ p.structs, ∀ f ∈ d.fields, ∀ n ∈ f.dims, 0 < n
  globals : ∀ d ∈ p.globals, ∀ n ∈ d.dims, 0 < n
  functions : ∀ f ∈ p.functions, ∀ s ∈ f.body, s.Solid

theorem Statement.Solid.part {s t : Statement} (h : s.Solid) (ht : t ∈ s.parts) : t.Solid :=
  fun d hd => h d (.part ht hd)

/-! ### Optimized programs -/

/-- A change that keeps declarations, of a statement and then of some of its parts. -/
theorem Statement.Solid.change {k : Statement → Statement} {s : Statement}
    (hdeclare : ∀ s d, k s = .declare d → ∃ e, s = .declare e ∧ e.dims = d.dims)
    (hparts : ∀ s, ∀ u ∈ (k s).parts, ∃ t ∈ s.parts, u = t ∨ u = k t) (h : s.Solid) : (k s).Solid := by
  induction s using Statement.induct with
  | step s ih =>
    intro d hd
    generalize hks : k s = u at hd
    cases hd with
    | self =>
      obtain ⟨e, rfl, hdims⟩ := hdeclare s d hks
      exact hdims ▸ h e .self
    | part hu hd =>
      subst hks
      obtain ⟨t, ht, rfl | rfl⟩ := hparts s _ hu
      · exact h.part ht d hd
      · exact ih t ht (h.part ht) d hd

theorem Statement.Solid.mapExprs {f : Expr → Expr} {s : Statement} (h : s.Solid) : (s.mapExprs f).Solid := by
  refine h.change (fun s d hs => ?_) fun s u hu => ?_
  · cases s with
    | declare e =>
      cases hs
      exact ⟨e, rfl, rfl⟩
    | _ => cases hs
  · rw [parts_mapExprs] at hu
    obtain ⟨t, ht, rfl⟩ := List.mem_map.1 hu
    exact ⟨t, ht, .inr rfl⟩

theorem Statement.Solid.printConstants {s : Statement} (h : s.Solid) : s.printConstants.Solid := by
  refine h.change (fun s d hs => ?_) fun s u hu => parts_printConstants hu
  cases s with
  | declare e =>
    cases hs
    exact ⟨_, rfl, rfl⟩
  | expr e => rcases printConstants_expr e with he | ⟨text, p, he⟩ <;> rw [he] at hs <;> cases hs
  | _ => cases hs

theorem Solid.fold {p : Program} (h : p.Solid) : p.fold.Solid where
  structs := h.structs
  globals d hd := by
    obtain ⟨e, he, rfl⟩ := List.mem_map.1 hd
    exact h.globals e he
  functions d hd s hs := by
    obtain ⟨e, he, rfl⟩ := List.mem_map.1 hd
    rw [mapBody_eq] at hs
    obtain ⟨t, ht, rfl⟩ := List.mem_map.1 hs
    exact (h.functions e he t ht).mapExprs

theorem Solid.printConstants {p : Program} (h : p.Solid) : p.printConstants.Solid where
  structs := h.structs
  globals := h.globals
  functions d hd s hs := by
    obtain ⟨e, he, rfl⟩ := List.mem_map.1 hd
    rw [printConstantsIn_eq] at hs
    obtain ⟨t, ht, rfl⟩ := List.mem_map.1 hs
    exact (h.functions e he t ht).printConstants

theorem Solid.optimize {p : Program} (h : p.Solid) (level : Nat) : (p.optimize level).Solid := by
  have hfold : (if 1 ≤ level then p.fold else p).Solid := by
    split
    · exact h.fold
    · exact h
  rw [Program.optimize]
  split
  · exact hfold.printConstants
  · exact hfold

/-! ### Programs that are read -/

theorem Statement.Written.part {s t : Statement} (h : s.Written) (ht : t ∈ s.parts) : t.Written := by
  cases h with
  | block body p h => exact h t ht
  | ifElse c a b p hc ha hb =>
    rcases List.mem_cons.1 ht with rfl | ht
    · exact ha
    · exact hb t (Option.mem_toList.1 ht)
  | whileLoop c body p hc h | doLoop body c p h hc => exact List.mem_singleton.1 ht ▸ h
  | forLoop init c step body p hinit hc hstep h =>
    rcases List.mem_cons.1 ht with rfl | ht
    · exact h
    · rcases hinit t (Option.mem_toList.1 ht) with ⟨d, hd, rfl⟩ | ⟨e, he, rfl⟩
      · exact .declare d hd
      · exact .expr e he
  | switch e cases p he hcases hbody hunreachable =>
    obtain ⟨c, hc, ht⟩ := List.mem_flatMap.1 ht
    exact (List.mem_append.1 ht).elim (hbody c hc t) (hunreachable c hc t)
  | declare | expr | print | returns | breaks | continues | empty => cases ht

theorem Statement.Written.solid {s : Statement} (h : s.Written) : s.Solid := by
  intro d hd
  induction hd with
  | self =>
    cases h with
    | declare d hd => exact hd.1
  | part ht _ ih => exact ih (h.part ht)

theorem Written.solid {p : Program} (h : p.Written) : p.Solid :=
  ⟨h.structs, fun d hd => (h.globals d hd).1, fun f hf s hs => (h.functions f hf s hs).solid⟩

end Program

/-! ### Definitions -/

namespace Layout

/-- No array that is laid out has length zero, nor has one in a function. -/
structure Definitions.Solid (definitions : Definitions) : Prop where
  structs : ∀ s ∈ definitions.structs, s.type.Solid
  globals : ∀ v ∈ definitions.globals, v.shape.Solid
  functions : ∀ d ∈ definitions.functions, ∀ s ∈ d.body, s.Solid

theorem Definitions.addGlobal_solid {structs : List StructLayout} {g g' : Globals} {d : Declaration}
    (hs : ∀ s ∈ structs, s.type.Solid) (hd : ∀ n ∈ d.dims, 0 < n) (hg : ∀ v ∈ g.vars, v.shape.Solid)
    (h : addGlobal structs g d = .ok g') : ∀ v ∈ g'.vars, v.shape.Solid := by
  obtain ⟨type, htype, h⟩ := bind_eq_ok.1 h
  obtain ⟨⟨v, scopes⟩, hv, h⟩ := bind_eq_ok.1 h
  obtain ⟨code, -, h⟩ := bind_eq_ok.1 h
  cases h
  rw [Scopes.declare] at hv
  split at hv
  · cases hv
  cases hv
  intro u hu
  rcases List.mem_append.1 hu with hu | hu
  · exact hg u hu
  · rw [List.mem_singleton.1 hu]
    exact ⟨hd, resolveType_solid hs htype⟩

theorem Definitions.ofProgram_solid {p : Program} {definitions : Definitions} (hp : p.Solid)
    (h : ofProgram p = .ok definitions) : definitions.Solid := by
  have hfunctions := Lowering.ofProgram_functions h
  obtain ⟨structs, hstructs, h⟩ := bind_eq_ok.1 h
  obtain ⟨globals, hglobals, h⟩ := bind_eq_ok.1 h
  obtain ⟨functions, -, h⟩ := bind_eq_ok.1 h
  cases h
  have hsolid : ∀ s ∈ structs, s.type.Solid :=
    foldlM_keeps (P := fun structs => ∀ s ∈ structs, s.type.Solid)
      (fun _ d _ hd hs h => addStruct_solid hs (hp.structs d hd) h) (by simp) hstructs
  refine ⟨hsolid, ?_, fun d hd => hp.functions d (hfunctions ▸ hd)⟩
  exact foldlM_keeps (P := fun g : Globals => ∀ v ∈ g.vars, v.shape.Solid)
    (fun _ d _ hd hg h => addGlobal_solid hsolid (hp.globals d hd) hg h) (by simp) hglobals

end Layout
end TapeC
