import TapeC.Proofs.Initialized
import TapeC.Proofs.Optimization
import TapeC.Proofs.Program

/-! Compiled programs. Whatever options a program is compiled with, its code does what the
evaluation of the program does: it halts with the same output, or goes on forever. -/

namespace TapeC

open Program Tape Lowering Evaluation

namespace Tape.Machine

variable {m : Machine} {input output : List Cell}

/-- A run on an empty tape comes to an end, for every budget that is large enough, after
having written `output`. -/
def Halts (m : Machine) (input output : List Cell) : Prop :=
  ∃ n t, t.output.toList = output ∧ (∀ limit, n ≤ limit → m.run limit 0 input = .ok t) ∧
    ∀ limit, limit < n → ∃ written, m.run limit 0 input = .error (.exhausted limit written)

/-- A run on an empty tape uses up every budget. -/
def Diverges (m : Machine) (input : List Cell) : Prop :=
  ∀ limit, ∃ written, m.run limit 0 input = .error (.exhausted limit written)

/-- What a run does is settled. -/
theorem Halts.unique {output' : List Cell} (h : m.Halts input output) (h' : m.Halts input output') :
    output = output' := by
  obtain ⟨n, t, rfl, ht, -⟩ := h
  obtain ⟨n', t', rfl, ht', -⟩ := h'
  have hrun := ht (max n n') (Nat.le_max_left n n')
  rw [ht' (max n n') (Nat.le_max_right n n')] at hrun
  cases hrun
  rfl

theorem Halts.not_diverges (h : m.Halts input output) : ¬ m.Diverges input := by
  intro hdiverges
  obtain ⟨n, t, -, ht, -⟩ := h
  obtain ⟨written, hwritten⟩ := hdiverges n
  rw [ht n (Nat.le_refl n)] at hwritten
  cases hwritten

theorem config_initial : (State.initial 0 input).config = blank input := by
  refine Config.ext rfl (fun x => ?_) rfl rfl
  cases x <;> rfl

theorem initial_sound : (State.initial 0 input).Sound 0 := ⟨Nat.one_pos, rfl, Nat.le_refl 0⟩

/-- The machine halts with what the computation ends with, or neither has an end. -/
theorem Executes.halts_iff {c : Code} {y : Comp Wrong (List Cell)} (hm : m.Executes c)
    (h : Comp.Sim (fun t out => t.output = out) (c.exec 0 (blank input)) y)
    (hy : ∀ w, ¬ y.Ends (.error w)) :
    (∀ out, m.Halts input out ↔ y.Ends (.ok out)) ∧ (m.Diverges input ↔ ∀ out, ¬ y.Ends (.ok out)) := by
  obtain ⟨hends, hback⟩ := h hy
  have hrealizes : m.Realizes 0 (State.initial 0 input) (c.exec 0 (blank input)) := by
    have hstray : ∀ e, ¬ (c.exec 0 (blank input)).Ends (.error e) := fun e he => by
      obtain ⟨_, _, he, _⟩ := hends _ he
      cases he
    rw [← config_initial] at hstray ⊢
    exact hm 0 _ initial_sound rfl hstray
  have hhalts {out : List Cell} (hout : y.Ends (.ok out)) : m.Halts input out := by
    obtain ⟨t, ht, rfl⟩ := hback out hout
    obtain ⟨n, u, rfl, -, hrun, hshort⟩ := hrealizes.1 t ht
    exact ⟨n, u, rfl, fun limit => hrun limit limit, fun limit => hshort limit limit⟩
  have hdiverges (hnone : ∀ out, ¬ y.Ends (.ok out)) : m.Diverges input := by
    refine fun limit => hrealizes.2 (fun r hr => ?_) limit limit
    obtain ⟨_, out, -, hout, -⟩ := hends r hr
    exact hnone out hout
  constructor
  · refine fun out => ⟨fun hm => ?_, hhalts⟩
    by_cases hsome : ∃ out, y.Ends (.ok out)
    · obtain ⟨out', hout'⟩ := hsome
      rwa [hm.unique (hhalts hout')]
    · exact absurd (hdiverges fun out hout => hsome ⟨out, hout⟩) hm.not_diverges
  · exact ⟨fun hm out hout => (hhalts hout).not_diverges hm, hdiverges⟩

end Tape.Machine

variable {p : Program} {options : Options} {c : Compiled}

/-- The text of a compiled program is loaded, whether or not its comments are left out. -/
theorem Compiled.loads (c : Compiled) : ∃ m, Machine.ofString c.text = .ok m ∧ m.Executes c.code := by
  rw [Compiled.text]
  split
  · rw [Machine.ofString_ofList, Code.listing, Code.strip_charsThen]
    obtain ⟨m, hm, h⟩ := Machine.ofChars_executes c.code.bare
    exact ⟨m, hm, h.of_bare⟩
  · exact Machine.ofString_text c.code

theorem compile_sim {depth : Nat} (input : List Cell) (h : p.compile options = .ok c)
    (hdepth : p.functions.length ≤ depth) :
    Comp.Sim (fun t output => t.output = output) (c.code.exec 0 (blank input)) (p.evaluate depth input) := by
  obtain ⟨⟨code, size, warnings⟩, hlower, h⟩ := Layout.bind_eq_ok.1 h
  cases h
  split at hlower
  · rw [← evaluate_optimize]
    refine lower_sim input hlower ?_
    rwa [optimize_eq, List.length_map]
  · exact lower_sim input hlower hdepth

/-! ### Evaluations that do not go wrong -/

/-- Where each local variable has a value from the start, none is read too early. -/
theorem evaluate_not_unset (h : p.Initialized) (depth : Nat) (input : List Cell) :
    ¬ (p.evaluate depth input).Ends (.error .unset) := by
  rw [Program.evaluate]
  split
  · exact Comp.not_never_ends
  next definitions σ hstart =>
    obtain ⟨definitions', hdefinitions, hstart⟩ := Layout.bind_eq_ok.1 hstart
    obtain ⟨σ', hσ, hstart⟩ := Layout.bind_eq_ok.1 hstart
    cases hstart
    obtain ⟨objects, hobjects, hσ⟩ := Layout.bind_eq_ok.1 hσ
    cases hσ
    split
    · exact Comp.not_never_ends
    next main hmain =>
      intro hends
      obtain ⟨r, hr, herror⟩ := Comp.map_ends.1 hends
      have hfull : Store.Full ⟨[], objects.reverse, 0, input, []⟩ :=
        ⟨List.forall_mem_nil _, fun o ho => full_globalObjects hobjects o (List.mem_reverse.1 ho)⟩
      rw [Program.Initialized, ← ofProgram_functions hdefinitions] at h
      have htidy := clean_invoke h depth main (List.mem_of_find?_eq_some hmain) [] _ r hfull hr
      cases r with
      | ok => cases herror
      | error w =>
        cases herror
        exact htidy rfl

/-- The code of a program does what the program means. If every local variable has a value
from its declaration on, and no index leaves its array at run time, the machine halts with the
output of the evaluation, or neither has an end. -/
theorem compile_preserves_meaning (h : p.compile options = .ok c) (hinit : p.Initialized) (depth : Nat)
    (hdepth : p.functions.length ≤ depth) (input : List Cell)
    (hrange : ¬ (p.evaluate depth input).Ends (.error .outOfRange)) :
    ∃ m, Machine.ofString c.text = .ok m ∧
      (∀ output, m.Halts input output ↔ (p.evaluate depth input).Ends (.ok output)) ∧
      (m.Diverges input ↔ ∀ output, ¬ (p.evaluate depth input).Ends (.ok output)) := by
  obtain ⟨m, hm, hexecutes⟩ := c.loads
  refine ⟨m, hm, hexecutes.halts_iff (compile_sim input h hdepth) fun w hw => ?_⟩
  cases w with
  | unset => exact evaluate_not_unset hinit depth input hw
  | outOfRange => exact hrange hw

/-- An element of an array is chosen by a variable and printed. -/
theorem compile_preserves_meaning_of_element :
    let a : Declaration := ⟨.int, "a", [2],
      some (.list [.single (.number 65 .start), .single (.number 66 .start)] .start),
      .start⟩
    let i : Declaration := ⟨.int, "i", [], some (.single (.number 1 .start)), .start⟩
    let print : Expr := .call "printchar" [.access "a" [.index (.access "i" [] .start)] .start] .start
    let p : Program := { functions := [⟨.void, "main", [], [.declare a, .declare i, .expr print], .start⟩] }
    ∃ c m, p.compile {} = .ok c ∧ Machine.ofString c.text = .ok m ∧ m.Halts [] [66] := by
  intro a i print p
  have hok : (p.compile {}).isOk = true := by decide +kernel
  have hends : (p.evaluate 1 []).Ends (.ok [66]) := ⟨10, by decide +kernel⟩
  have hinit : p.Initialized := by
    intro d hd s hs e he
    cases List.mem_singleton.1 hd
    have hparts : s.parts = [] ∧ ∀ e, s = .declare e → e.contents.isSome = true := by
      rcases List.mem_cons.1 hs with rfl | hs
      · exact ⟨rfl, fun e he => by cases he; rfl⟩
      rcases List.mem_cons.1 hs with rfl | hs
      · exact ⟨rfl, fun e he => by cases he; rfl⟩
      · cases List.mem_singleton.1 hs
        exact ⟨rfl, nofun⟩
    cases he with
    | self => exact hparts.2 e rfl
    | part ht => rw [hparts.1] at ht; cases ht
  have hrange : ¬ (p.evaluate 1 []).Ends (.error .outOfRange) := fun h => by cases h.unique hends
  cases hc : p.compile {} with
  | error fault => rw [hc] at hok; cases hok
  | ok c =>
    obtain ⟨m, hm, hhalts, -⟩ := compile_preserves_meaning hc hinit 1 (Nat.le_refl 1) [] hrange
    exact ⟨c, m, rfl, hm, (hhalts [66]).2 hends⟩

end TapeC
