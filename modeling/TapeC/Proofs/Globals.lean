import TapeC.Proofs.Function

/-! Global variables. The code for their first contents, run on an empty tape, lays them out
one after another as the evaluation has them, and leaves the head behind them. -/

namespace TapeC

open Layout Program Tape Routine Code Config Comp Evaluation Definitions

/-! ### Variables one after another -/

namespace Layout

/-- The variables lie one after another from the cell `p` to the cell `q`. -/
inductive Consecutive : Nat → List Variable → Nat → Prop where
  | nil {p : Nat} : Consecutive p [] p
  | cons {v : Variable} {vs : List Variable} {q : Nat} (rest : Consecutive v.stop vs q) :
      Consecutive v.cell (v :: vs) q

namespace Consecutive

variable {p q : Nat} {v : Variable} {vs : List Variable}

theorem le (h : Consecutive p vs q) : p ≤ q := by
  induction h with
  | nil => exact Nat.le_refl _
  | cons _ ih => exact Nat.le_trans (Nat.le_add_right _ _) ih

theorem cell_le (h : Consecutive p vs q) : ∀ v ∈ vs, p ≤ v.cell := by
  induction h with
  | nil => nofun
  | cons _ ih =>
    refine List.forall_mem_cons.2 ⟨Nat.le_refl _, fun w hw => ?_⟩
    exact Nat.le_trans (Nat.le_add_right _ _) (ih w hw)

theorem stop_le (h : Consecutive p vs q) : ∀ v ∈ vs, v.stop ≤ q := by
  induction h with
  | nil => nofun
  | cons rest ih => exact List.forall_mem_cons.2 ⟨rest.le, ih⟩

theorem pairwise (h : Consecutive p vs q) : vs.Pairwise fun v w => v.stop ≤ w.cell := by
  induction h with
  | nil => exact .nil
  | cons rest ih => exact .cons rest.cell_le ih

/-- They take all cells there. -/
theorem covers (h : Consecutive p vs q) {x : Nat} (hp : p ≤ x) (hq : x < q) : ∃ v ∈ vs, v.cell ≤ x ∧ x < v.stop := by
  induction h with
  | nil => exact absurd hq (Nat.not_lt.2 hp)
  | @cons v _ _ _ ih =>
    by_cases hx : x < v.stop
    · exact ⟨v, List.mem_cons_self, hp, hx⟩
    · obtain ⟨w, hw, h⟩ := ih (Nat.not_lt.1 hx) hq
      exact ⟨w, List.mem_cons_of_mem _ hw, h⟩

theorem concat (h : Consecutive p vs v.cell) : Consecutive p (vs ++ [v]) v.stop := by
  generalize hq : v.cell = q at h
  induction h with
  | nil => exact hq ▸ .cons .nil
  | cons _ ih => exact .cons (ih hq)

end Consecutive
end Layout

namespace Lowering

variable {s t : Config} {values : List Cell} {structs : List StructLayout} {d : Declaration}
  {shape : Shape} {code : Code}

/-! ### Contents -/

/-- The cells from `p` on are empty. -/
def EmptyFrom (s : Config) (p : Nat) : Prop := ∀ x, p ≤ x → s.cells x = 0

theorem EmptyFrom.window (h : EmptyFrom s s.head) {i : Nat} :
    EmptyFrom (s.window s.head values i) (s.head + values.length) :=
  fun x hx => (cells_window_of_ge hx).trans (h x (by omega))

theorem runs_writeCells (h : EmptyFrom s s.head) :
    Runs 0 (writeCells values) s (s.window s.head values values.length) := by
  induction values generalizing s with
  | nil => exact runs_skip.2 (window_slice_self rfl 0)
  | cons v values ih =>
    obtain ⟨y, hset, hy⟩ := runs_setCell v 0 false (s := s) (Nat.zero_le s.head) (.inl rfl)
    cases hy rfl
    have h0 := h s.head (Nat.le_refl _)
    have h1 := h (s.head + 1) (Nat.le_succ _)
    have hempty : s.window s.head [0, 0] 0 = s := by
      refine Config.ext rfl (fun x => ?_) rfl rfl
      simp only [Config.window]
      grind
    have hstored : s.window s.head [v, 0] 0 = s.window s.head [v] 0 := by
      refine Config.ext rfl (fun x => ?_) rfl rfl
      simp only [Config.window]
      grind
    rw [hempty, hstored] at hset
    have hrest := ih (s := s.window s.head [v] 1) h.window
    have hwindow : s.window s.head ([v] ++ values) ([v].length + values.length) =
        (s.window s.head [v] 1).window (s.head + [v].length) values values.length :=
      window_append_right
    rw [List.length_cons, Nat.add_comm]
    exact runs_concat_cons.2 ⟨_, hset.append (runs_right_window.2 rfl), hwindow ▸ hrest⟩

theorem forall₂_mapM {α β ε : Type} {f : α → Except ε β} {as : List α} {bs : List β} (h : as.mapM f = .ok bs) :
    List.Forall₂ (fun a b => f a = .ok b) as bs := by
  induction as generalizing bs with
  | nil =>
    cases h
    exact .nil
  | cons a as ih =>
    rw [List.mapM_cons] at h
    obtain ⟨b, hb, h⟩ := bind_eq_ok.1 h
    obtain ⟨more, hmore, h⟩ := bind_eq_ok.1 h
    cases h
    exact .cons hb (ih hmore)

theorem length_mapM {α β ε : Type} {f : α → Except ε β} {as : List α} {bs : List β} (h : as.mapM f = .ok bs) :
    bs.length = as.length :=
  (forall₂_mapM h).length_eq.symm

/-- The code for the first contents of a global variable writes those of its object. -/
theorem globalContents_runs {type : ElementType} (htype : resolveType structs d.position d.type = .ok type)
    (h : globalContents d ⟨type, d.dims⟩ = .ok code) :
    ∃ values : List Cell, values.length = Shape.size ⟨type, d.dims⟩ ∧
      globalObject structs d = .ok ⟨d.name, ⟨type, d.dims⟩, values.map some⟩ ∧
      ∀ s : Config, EmptyFrom s s.head → Runs 0 code s (s.window s.head values values.length) := by
  rw [globalContents] at h
  rw [globalObject]
  cases hc : d.contents with
  | none =>
    rw [hc] at h
    cases h
    refine ⟨List.replicate (Shape.size ⟨type, d.dims⟩) 0, List.length_replicate, ?_, fun s hs => ?_⟩
    · refine bind_eq_ok.2 ⟨type, htype, ?_⟩
      rw [List.map_replicate]
      rfl
    · refine runs_right.2 (Config.ext (by simp) (fun x => ?_) rfl rfl)
      have := hs x
      simp only [Config.window, cells_goto]
      grind
  | some contents =>
    rw [hc] at h
    obtain ⟨cells, hcells, h⟩ := bind_eq_ok.1 h
    obtain ⟨values, hvalues, h⟩ := bind_eq_ok.1 h
    cases h
    refine ⟨values, ?_, ?_, fun s hs => runs_writeCells hs⟩
    · rw [length_mapM hvalues]
      exact length_layOutContents hcells
    · exact bind_eq_ok.2 ⟨type, htype, bind_eq_ok.2 ⟨cells, hcells, bind_eq_ok.2 ⟨values, hvalues, rfl⟩⟩⟩

/-! ### Global variables one after another -/

/-- The global variables so far are laid out on the tape `t` with the contents of `os`, by
code that starts on the empty tape `s`. -/
structure Laid (g : Globals) (os : List Object) (s t : Config) : Prop where
  runs : Runs 0 g.code s t
  head : t.head = g.scopes.offset
  empty : EmptyFrom t g.scopes.offset
  represents : List.Forall₂ (Represents t) g.vars os
  consecutive : Consecutive 0 g.vars g.scopes.offset
  types : ∀ v ∈ g.vars, v.shape.type.Sound
  input : t.input = s.input
  output : t.output = s.output

theorem addGlobal_laid {g g' : Globals} {os : List Object} (hs : ∀ l ∈ structs, l.type.Sound)
    (h : addGlobal structs g d = .ok g') (hl : Laid g os s t) :
    ∃ o u, globalObject structs d = .ok o ∧ Laid g' (os ++ [o]) s u := by
  obtain ⟨type, htype, h⟩ := bind_eq_ok.1 h
  obtain ⟨⟨v, scopes⟩, hdeclare, h⟩ := bind_eq_ok.1 h
  obtain ⟨code, hcode, h⟩ := bind_eq_ok.1 h
  cases h
  rw [Scopes.declare] at hdeclare
  split at hdeclare
  · cases hdeclare
  cases hdeclare
  obtain ⟨values, hlen, hobject, hruns⟩ := globalContents_runs htype hcode
  let v : Variable := ⟨d.name, ⟨type, d.dims⟩, g.scopes.offset⟩
  have hempty : EmptyFrom t t.head := hl.head ▸ hl.empty
  have hstop : v.stop = t.head + values.length := by rw [hl.head, hlen]; rfl
  have hcells : ∀ x < g.scopes.offset, (t.window t.head values values.length).cells x = t.cells x :=
    fun x hx => cells_window_of_lt (hl.head ▸ hx)
  refine ⟨_, t.window t.head values values.length, hobject, ?_⟩
  constructor
  · exact hl.runs.append (hruns t hempty)
  · exact hstop.symm
  · exact (congrArg (EmptyFrom _) hstop).mpr hempty.window
  · have hold : List.Forall₂ (Represents (t.window t.head values values.length)) g.vars os :=
      represents_congr hl.represents fun w hw x _ hx =>
        hcells x (Nat.lt_of_lt_of_le hx (hl.consecutive.stop_le w hw))
    refine List.rel_append hold (.cons ⟨rfl, rfl, (List.length_map ..).trans hlen, fun i c hi => ?_⟩ .nil)
    rw [List.getElem?_map, Option.map_eq_some_iff] at hi
    obtain ⟨_, hi, hc⟩ := hi
    cases hc
    obtain ⟨hlt, rfl⟩ := List.getElem?_eq_some_iff.1 hi
    rw [← hl.head]
    exact cells_window_add hlt
  · exact Consecutive.concat (v := v) hl.consecutive
  · intro w hw
    rcases List.mem_append.1 hw with hw | hw
    · exact hl.types w hw
    · cases List.mem_singleton.1 hw
      exact resolveType_sound hs htype
  · exact hl.input
  · exact hl.output

theorem foldlM_addGlobal_laid {ds : List Declaration} {g g' : Globals} {os : List Object}
    (hs : ∀ l ∈ structs, l.type.Sound) (h : ds.foldlM (addGlobal structs) g = .ok g') (hl : Laid g os s t) :
    ∃ more u, ds.mapM (globalObject structs) = .ok more ∧ Laid g' (os ++ more) s u := by
  induction ds generalizing g os t with
  | nil =>
    cases h
    exact ⟨[], t, rfl, by rwa [List.append_nil]⟩
  | cons d ds ih =>
    rw [List.foldlM_cons] at h
    obtain ⟨g₁, hg₁, h⟩ := bind_eq_ok.1 h
    obtain ⟨o, t₁, ho, hl₁⟩ := addGlobal_laid hs hg₁ hl
    obtain ⟨more, u, hmore, hu⟩ := ih h hl₁
    refine ⟨o :: more, u, ?_, by rwa [List.append_assoc] at hu⟩
    rw [List.mapM_cons]
    exact bind_eq_ok.2 ⟨o, ho, bind_eq_ok.2 ⟨more, hmore, rfl⟩⟩

/-- An empty tape. -/
def blank (input : List Cell) : Config := ⟨0, fun _ => 0, input, []⟩

/-- The global variables of a program, with the tape on which they have been laid out. -/
theorem ofProgram_laid {p : Program} {definitions : Definitions} (input : List Cell)
    (h : Definitions.ofProgram p = .ok definitions) : ∃ g objects t,
      p.globals.mapM (globalObject definitions.structs) = .ok objects ∧ Laid g objects (blank input) t ∧
      definitions.globals = g.vars ∧ definitions.globalsSize = g.scopes.offset ∧ definitions.globalCode = g.code ∧
      ∀ l ∈ definitions.structs, l.type.Sound := by
  obtain ⟨structs, hstructs, h⟩ := bind_eq_ok.1 h
  obtain ⟨g, hg, h⟩ := bind_eq_ok.1 h
  obtain ⟨functions, _, h⟩ := bind_eq_ok.1 h
  cases h
  have hsound : ∀ l ∈ structs, l.type.Sound :=
    foldlM_keeps (fun _ _ _ _ hl h => addStruct_sound hl h) (by simp) hstructs
  have hempty : Laid {} [] (blank input) (blank input) :=
    ⟨runs_skip.2 rfl, rfl, fun _ _ => rfl, .nil, .nil, by simp, rfl, rfl⟩
  obtain ⟨objects, t, hobjects, hl⟩ := foldlM_addGlobal_laid hsound hg hempty
  exact ⟨g, objects, t, hobjects, hl, rfl, rfl, rfl, hsound⟩

/-- The definitions of a program and the tape once its global variables are laid out. -/
theorem ofProgram_runs {p : Program} {definitions : Definitions} (input : List Cell)
    (h : Definitions.ofProgram p = .ok definitions) :
    ∃ σ t, start definitions p.globals input = .ok σ ∧ Runs 0 definitions.globalCode (blank input) t ∧
      t.head = definitions.globalsSize ∧ Prepared definitions definitions.globalsSize ∧
      (globalFrame definitions).Holds t σ ∧ σ.output = [] := by
  obtain ⟨g, objects, t, hobjects, hl, hglobals, hsize, hcode, hsound⟩ := ofProgram_laid input h
  have hreverse : List.Forall₂ (Represents t) definitions.globals.reverse objects.reverse :=
    List.rel_reverse (hglobals ▸ hl.represents)
  refine ⟨_, t, bind_eq_ok.2 ⟨objects, hobjects, rfl⟩, hcode ▸ hl.runs, hsize ▸ hl.head,
    ⟨⟨?_, ?_, nofun⟩, hglobals ▸ hl.types, hsound⟩, ⟨.nil, hreverse, nofun, hl.input, hl.output⟩, rfl⟩
  · exact List.pairwise_reverse.2 (hglobals ▸ hl.consecutive.pairwise)
  · exact fun v hv => hsize ▸ hl.consecutive.stop_le v (hglobals ▸ List.mem_reverse.1 hv)

end Lowering
end TapeC
