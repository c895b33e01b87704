import TapeC.Proofs.Compilation

/-! The tape once the global variables have been written to it. They take the cells from zero on, in the
order of their declarations, and their code, run by itself, leaves each with its first contents, nothing
written and all other cells empty. -/

namespace TapeC

open Layout Program Tape Code Lowering Evaluation Definitions

variable {structs : List StructLayout} {d : Declaration} {v : Variable} {o : Object} {p : Program}
  {definitions : Definitions} {name : String}

/-! ### First contents -/

/-- The value of a content that is known before the program runs. -/
def Layout.Content.constant? : Content Expr → Option Cell
  | .byte v => some v
  | .value e => e.constant?

/-- The variable is the declared one. -/
structure Declares (structs : List StructLayout) (d : Declaration) (v : Variable) : Prop where
  name : v.name = d.name
  dims : v.shape.dims = d.dims
  type : resolveType structs d.position d.type = .ok v.shape.type

/-- The values of the first contents of a declared variable, which are zero if there are none. -/
def FirstValues (d : Declaration) (shape : Shape) (values : List Cell) : Prop :=
  match d.contents with
  | none => values = List.replicate shape.size 0
  | some contents => ∃ cells, layOutContents Expr.position d.name d.position shape contents = .ok cells ∧
      cells.map Content.constant? = values.map some

theorem constant?_of_globalCell {c : Content Expr} {value : Cell} (h : globalCell name c = .ok value) :
    c.constant? = some value := by
  cases c with
  | byte v =>
    cases h
    rfl
  | value e =>
    rw [globalCell] at h
    rw [Content.constant?]
    cases hc : e.constant? with
    | none =>
      rw [hc] at h
      cases h
    | some v =>
      rw [hc] at h
      cases h
      rfl

theorem map_constant? {cells : List (Content Expr)} {values : List Cell}
    (h : cells.mapM (globalCell name) = .ok values) : cells.map Content.constant? = values.map some := by
  have hcells := forall₂_mapM h
  clear h
  induction hcells with
  | nil => rfl
  | cons hc _ ih => rw [List.map_cons, List.map_cons, constant?_of_globalCell hc, ih]

theorem globalObject_firstValues (h : globalObject structs d = .ok o) :
    resolveType structs d.position d.type = .ok o.shape.type ∧ o.name = d.name ∧ o.shape.dims = d.dims ∧
      ∃ values, o.cells = values.map some ∧ FirstValues d o.shape values := by
  obtain ⟨type, htype, h⟩ := bind_eq_ok.1 h
  unfold FirstValues
  cases hd : d.contents with
  | none =>
    rw [hd] at h
    cases h
    exact ⟨htype, rfl, rfl, _, (List.map_replicate ..).symm, rfl⟩
  | some contents =>
    rw [hd] at h
    obtain ⟨cells, hcells, h⟩ := bind_eq_ok.1 h
    obtain ⟨values, hvalues, h⟩ := bind_eq_ok.1 h
    cases h
    exact ⟨htype, rfl, rfl, values, rfl, cells, hcells, map_constant? hvalues⟩

/-! ### Variables on the tape -/

/-- The cells of a declared variable have its first values. -/
def HoldsFirst (d : Declaration) (v : Variable) (cells : Nat → Cell) : Prop :=
  ∃ values, FirstValues d v.shape values ∧ values.length = v.size ∧
    ∀ i w, values[i]? = some w → cells (v.cell + i) = w

theorem declares_of_represents {t : Config} (hv : Represents t v o) (ho : globalObject structs d = .ok o) :
    Declares structs d v ∧ HoldsFirst d v t.cells := by
  obtain ⟨htype, hname, hdims, values, hcells, hvalues⟩ := globalObject_firstValues ho
  rw [hv.shape] at htype hdims hvalues
  have hlength := hv.length
  rw [hcells, List.length_map] at hlength
  refine ⟨⟨hv.name.symm.trans hname, hdims, htype⟩, values, hvalues, hlength, fun i w hi => hv.cells i w ?_⟩
  rw [hcells, List.getElem?_map, hi]
  rfl

theorem forall₂_declares {t : Config} {ds : List Declaration} {vs : List Variable} {os : List Object}
    (hos : List.Forall₂ (fun d o => globalObject structs d = .ok o) ds os) (hvs : List.Forall₂ (Represents t) vs os) :
    List.Forall₂ (fun d v => Declares structs d v ∧ HoldsFirst d v t.cells) ds vs := by
  induction hos generalizing vs with
  | nil =>
    cases hvs
    exact .nil
  | cons ho _ ih =>
    cases hvs with
    | cons hv hvs => exact .cons (declares_of_represents hv ho) (ih hvs)

/-- Code that ends on an empty tape ends there on the machine. -/
theorem Tape.Machine.Executes.run_blank {m : Machine} {c : Code} {input : List Cell} {s : Config} (hm : m.Executes c)
    (h : Runs 0 c (blank input) s) : ∃ n t, (∀ limit, n ≤ limit → m.run limit 0 input = .ok t) ∧ t.config = s := by
  rw [← Machine.config_initial] at h
  have hrealizes := hm 0 _ Machine.initial_sound rfl fun e he => nomatch he.unique h
  obtain ⟨n, t, ht, -, hrun, -⟩ := hrealizes.1 s h
  exact ⟨n, t, fun limit => hrun limit limit, ht⟩

/-- The global variables of a program take the cells from zero on, one after another in the order of their
declarations. The code for their first contents ends on an empty tape, with the head behind them; it
writes and reads nothing, and leaves each of their cells with its first value and all other cells zero. -/
theorem ofProgram_lays_out_globals (input : List Cell) (h : Definitions.ofProgram p = .ok definitions) :
    List.Forall₂ (Declares definitions.structs) p.globals definitions.globals ∧
    Consecutive 0 definitions.globals definitions.globalsSize ∧
    definitions.globals.Pairwise (fun v w => v.stop ≤ w.cell) ∧
    ∃ m n t, Machine.ofString definitions.globalCode.text = .ok m ∧
      (∀ limit, n ≤ limit → m.run limit 0 input = .ok t) ∧ t.output = #[] ∧ t.input = input ∧ t.head = definitions.globalsSize ∧
      List.Forall₂ (fun d v => HoldsFirst d v fun x => t.tape.getD x 0) p.globals definitions.globals ∧
      ∀ x, (∀ v ∈ definitions.globals, ¬ (v.cell ≤ x ∧ x < v.stop)) → t.tape.getD x 0 = 0 := by
  obtain ⟨g, objects, s, hobjects, hl, hglobals, hsize, hcode, -⟩ := ofProgram_laid input h
  have hdeclares := forall₂_declares (forall₂_mapM hobjects) hl.represents
  rw [hglobals, hsize, hcode]
  obtain ⟨m, hm, hexecutes⟩ := Machine.ofString_text g.code
  obtain ⟨n, t, hrun, rfl⟩ := hexecutes.run_blank hl.runs
  refine ⟨hdeclares.imp fun _ _ h => h.1, hl.consecutive, hl.consecutive.pairwise, m, n, t, hm, hrun,
    Array.toList_eq_nil_iff.1 hl.output, hl.input, hl.head, hdeclares.imp fun _ _ h => h.2, fun x hx => ?_⟩
  refine hl.empty x (Nat.not_lt.1 fun hlt => ?_)
  obtain ⟨v, hv, hcovers⟩ := hl.consecutive.covers (Nat.zero_le x) hlt
  exact hx v hv hcovers

/-- `int a = 3; int t[3] = {1, 2}; int b;` -/
theorem ofProgram_lays_out_table :
    let a : Declaration := ⟨.int, "a", [], some (.single (.number 3 .start)), .start⟩
    let t : Declaration :=
      ⟨.int, "t", [3], some (.list [.single (.number 1 .start), .single (.number 2 .start)] .start), .start⟩
    let b : Declaration := ⟨.int, "b", [], none, .start⟩
    let code := .skip ++ writeCells [3] ++ writeCells [1, 2, 0] ++ .right 1
    Definitions.ofProgram { globals := [a, t, b] } =
        .ok ⟨[], [⟨"a", ⟨.int, []⟩, 0⟩, ⟨"t", ⟨.int, [3]⟩, 1⟩, ⟨"b", ⟨.int, []⟩, 4⟩], 5, code, []⟩ ∧
      ∃ m n s, Machine.ofString code.text = .ok m ∧ (∀ limit, n ≤ limit → m.run limit 0 [] = .ok s) ∧ s.output = #[] ∧
        s.head = 5 ∧ s.tape.getD 2 0 = 2 := by
  intro a t b code
  have hdefinitions : Definitions.ofProgram { globals := [a, t, b] } =
      .ok ⟨[], [⟨"a", ⟨.int, []⟩, 0⟩, ⟨"t", ⟨.int, [3]⟩, 1⟩, ⟨"b", ⟨.int, []⟩, 4⟩], 5, code, []⟩ := rfl
  obtain ⟨-, -, -, m, n, s, hm, hrun, houtput, -, hhead, hcells, -⟩ := ofProgram_lays_out_globals [] hdefinitions
  refine ⟨hdefinitions, m, n, s, hm, hrun, houtput, hhead, ?_⟩
  obtain ⟨-, htable⟩ := List.forall₂_cons.1 hcells
  obtain ⟨⟨values, ⟨cells, hcells, hvalues⟩, -, hholds⟩, -⟩ := List.forall₂_cons.1 htable
  cases hcells
  have hvalues : [1, 2, 0] = values := (List.map_inj_right fun _ _ => Option.some.inj).1 hvalues
  exact hholds 1 2 (hvalues ▸ rfl)

end TapeC
