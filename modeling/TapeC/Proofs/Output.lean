import TapeC.Proofs.Budget
import TapeC.Proofs.Compilation
import TapeC.Proofs.Diagnostics

/-! What optimized programs print. They print what they would print otherwise, unless what they
print depends on cells that they do not own: on a variable before it has a value, or on an
index outside its array. Such cells hold what code has left in them, and shorter code leaves
something else. -/

namespace TapeC

open Program Tape

/-! ### Runs of machines -/

namespace Tape.Machine

variable {m : Machine} {t : State} {limit : Nat} {input : List Cell}

theorem halts_of_run (h : m.run limit 0 input = .ok t) : m.Halts input t.output.toList := by
  obtain ⟨n, -, hsteps, hpc⟩ := steps_of_runFrom h
  refine ⟨n, t, rfl, fun limit hn => ?_, fun limit hn => hsteps.exhausts hn⟩
  obtain ⟨k, rfl⟩ := Nat.exists_eq_add_of_le hn
  rw [run, hsteps.runFrom, runFrom_of_end hpc]

end Tape.Machine

namespace Program

/-! ### What is printed -/

variable {options : Options} {p : Program} {input output output' : List Cell} {annotate minify optimize : Bool}

/-- The program is compiled, and its code halts with `output`. -/
def Prints (options : Options) (p : Program) (input output : List Cell) : Prop :=
  ∃ c m, p.compile options = .ok c ∧ Machine.ofString c.text = .ok m ∧ m.Halts input output

/-- The program is compiled, and its code never halts. -/
def Hangs (options : Options) (p : Program) (input : List Cell) : Prop :=
  ∃ c m, p.compile options = .ok c ∧ Machine.ofString c.text = .ok m ∧ m.Diverges input

theorem Prints.unique (h : p.Prints options input output) (h' : p.Prints options input output') :
    output = output' := by
  obtain ⟨c, m, hc, hm, hhalts⟩ := h
  obtain ⟨c', m', hc', hm', hhalts'⟩ := h'
  cases hc.symm.trans hc'
  cases hm.symm.trans hm'
  exact hhalts.unique hhalts'

theorem Prints.not_hangs (h : p.Prints options input output) : ¬ p.Hangs options input := by
  rintro ⟨c', m', hc', hm', hdiverges⟩
  obtain ⟨c, m, hc, hm, hhalts⟩ := h
  cases hc.symm.trans hc'
  cases hm.symm.trans hm'
  exact hhalts.not_diverges hdiverges

/-- With and without optimization the code halts with the same output, or it never halts. -/
def SameOutput (annotate minify : Bool) (p : Program) (input : List Cell) : Prop :=
  (∃ output, p.Prints ⟨true, annotate, minify⟩ input output ∧ p.Prints ⟨false, annotate, minify⟩ input output) ∨
    p.Hangs ⟨true, annotate, minify⟩ input ∧ p.Hangs ⟨false, annotate, minify⟩ input

theorem SameDiagnostics.accepts {c : Compiled} (h : SameDiagnostics (p.compile ⟨true, annotate, minify⟩)
    (p.compile ⟨false, annotate, minify⟩)) (hc : p.compile ⟨optimize, annotate, minify⟩ = .ok c) (optimize' : Bool) :
    ∃ c', p.compile ⟨optimize', annotate, minify⟩ = .ok c' := by
  generalize hx : p.compile ⟨true, annotate, minify⟩ = x at h
  generalize hy : p.compile ⟨false, annotate, minify⟩ = y at h
  cases h with
  | error fault =>
    cases optimize
    · rw [hy] at hc
      cases hc
    · rw [hx] at hc
      cases hc
  | ok =>
    cases optimize'
    · exact ⟨_, hy⟩
    · exact ⟨_, hx⟩

/-- A program that reads no variable before it has a value, and keeps its indices inside their
arrays, prints the same with and without optimization. -/
theorem optimize_preserves_output {c : Compiled} (h : p.compile ⟨optimize, annotate, minify⟩ = .ok c) (depth : Nat)
    (hdepth : p.functions.length ≤ depth) (input : List Cell)
    (hwrong : ∀ w, ¬ (p.evaluate depth input).Ends (.error w)) : p.SameOutput annotate minify input := by
  have hboth (optimize' : Bool) : ∃ c m, p.compile ⟨optimize', annotate, minify⟩ = .ok c ∧
      Machine.ofString c.text = .ok m ∧
      (∀ output, m.Halts input output ↔ (p.evaluate depth input).Ends (.ok output)) ∧
      (m.Diverges input ↔ ∀ output, ¬ (p.evaluate depth input).Ends (.ok output)) := by
    obtain ⟨c, hc⟩ := SameDiagnostics.accepts (compile_same_diagnostics annotate minify p) h optimize'
    obtain ⟨m, hm, hexecutes⟩ := c.loads
    exact ⟨c, m, hc, hm, hexecutes.halts_iff (compile_sim input hc hdepth) hwrong⟩
  obtain ⟨c, m, hc, hm, hhalts, hdiverges⟩ := hboth true
  obtain ⟨c', m', hc', hm', hhalts', hdiverges'⟩ := hboth false
  by_cases hends : ∃ output, (p.evaluate depth input).Ends (.ok output)
  · obtain ⟨output, hends⟩ := hends
    exact .inl ⟨output, ⟨c, m, hc, hm, (hhalts output).2 hends⟩, c', m', hc', hm', (hhalts' output).2 hends⟩
  · have hends : ∀ output, ¬ (p.evaluate depth input).Ends (.ok output) := not_exists.1 hends
    exact .inr ⟨⟨c, m, hc, hm, hdiverges.2 hends⟩, c', m', hc', hm', hdiverges'.2 hends⟩

/-- `int x; x = 1 + 2; printint(x + 3);` -/
theorem optimize_preserves_output_of_sum :
    let x : Expr := .access "x" [] .start
    let sum (n : Expr) (k : Int) : Expr := .binary .add n (.number k .start) .start
    let p : Program := { functions := [⟨.void, "main", [], [.declare ⟨.int, "x", [], none, .start⟩,
      .expr (.assign x none (sum (.number 1 .start) 2) .start),
      .expr (.call "printint" [sum x 3] .start)], .start⟩] }
    p.SameOutput false false [] := by
  intro x sum p
  have hok : (p.compile {}).isOk = true := by decide +kernel
  have hends : (p.evaluate 1 []).Ends (.ok [54]) := ⟨10, by decide +kernel⟩
  cases hc : p.compile {} with
  | error fault => rw [hc] at hok; cases hok
  | ok c =>
    exact optimize_preserves_output hc 1 (Nat.le_refl 1) [] fun w hw => by cases hw.unique hends

/-! ### What code leaves behind -/

/-- The characters of the program text. -/
def textChars (c : Compiled) : List Char :=
  if c.minified then strip (c.code.charsThen []) else c.code.charsThen []

theorem ofString_text_eq (c : Compiled) : Machine.ofString c.text = Machine.ofChars (textChars c) := by
  rw [Compiled.text, textChars]
  split <;> exact Machine.ofString_ofList _

/-- What a compiled program writes with a budget of `limit` operations, if it halts. -/
def writes? (options : Options) (p : Program) (limit : Nat) (input : List Cell) : Option (List Cell) :=
  match p.compile options with
  | .error _ => none
  | .ok c =>
    match Machine.ofChars (textChars c) with
    | .error _ => none
    | .ok m =>
      match m.run limit 0 input with
      | .error _ => none
      | .ok t => some t.output.toList

/-- How a run of a compiled program ends, with a budget of `limit` operations. -/
def ending? (options : Options) (p : Program) (limit : Nat) (input : List Cell) : Option (Except Tape.Fault State) :=
  match p.compile options with
  | .error _ => none
  | .ok c =>
    match Machine.ofChars (textChars c) with
    | .error _ => none
    | .ok m => some (Machine.runListed m.code.toList limit limit (.initial 0 input))

/-- What is said of the end of a run. -/
theorem ending?_bind {α : Type} (options : Options) (p : Program) (limit : Nat) (input : List Cell)
    (k : Except Tape.Fault State → Option α) : (p.ending? options limit input).bind k =
      match p.compile options with
      | .error _ => none
      | .ok c =>
        match Machine.ofChars (textChars c) with
        | .error _ => none
        | .ok m => k (m.run limit 0 input) := by
  rw [ending?]
  cases p.compile options with
  | error fault => rfl
  | ok c =>
    dsimp only
    cases Machine.ofChars (textChars c) with
    | error fault => rfl
    | ok m =>
      dsimp only
      rw [Option.bind_some, Machine.run, Machine.runFrom_eq_runListed]

theorem writes?_eq (options : Options) (p : Program) (limit : Nat) (input : List Cell) :
    p.writes? options limit input = (p.ending? options limit input).bind fun
      | .error _ => none
      | .ok t => some t.output.toList := by
  rw [ending?_bind]
  rfl

theorem prints_of_writes? {limit : Nat} (h : p.writes? options limit input = some output) :
    p.Prints options input output := by
  unfold writes? at h
  split at h
  · cases h
  next c hc =>
    split at h
    · cases h
    next m hm =>
      split at h
      · cases h
      next t ht =>
        cases h
        exact ⟨c, m, hc, (ofString_text_eq c).trans hm, Machine.halts_of_run ht⟩

/-- A program that prints a variable without a value:
`{ int a = 1; int b = 1; } 1 + 1; int x; int y; printchar(y);` -/
def printsUnset : Program :=
  { functions := [⟨.void, "main", [],
      [.block [.declare ⟨.int, "a", [], some (.single (.number 1 .start)), .start⟩,
          .declare ⟨.int, "b", [], some (.single (.number 1 .start)), .start⟩] .start,
        .expr (.binary .add (.number 1 .start) (.number 1 .start) .start),
        .declare ⟨.int, "x", [], none, .start⟩, .declare ⟨.int, "y", [], none, .start⟩,
        .expr (.call "printchar" [.access "y" [] .start] .start)], .start⟩] }

/-- A program in which all variables have values, and that prints what lies behind an array:
`int i = 2; int a[1] = {0}; { int b = 1; int c = 1; } 1 + 1; if (1) printchar(a[i]);` -/
def printsOutside : Program :=
  { functions := [⟨.void, "main", [],
      [.declare ⟨.int, "i", [], some (.single (.number 2 .start)), .start⟩,
        .declare ⟨.int, "a", [1], some (.list [.single (.number 0 .start)] .start), .start⟩,
        .block [.declare ⟨.int, "b", [], some (.single (.number 1 .start)), .start⟩,
          .declare ⟨.int, "c", [], some (.single (.number 1 .start)), .start⟩] .start,
        .expr (.binary .add (.number 1 .start) (.number 1 .start) .start),
        .ifElse (.number 1 .start)
          (.expr (.call "printchar" [.access "a" [.index (.access "i" [] .start)] .start] .start)) none .start],
      .start⟩] }

theorem printsUnset_optimized : printsUnset.writes? {} 1000 [] = some [1] := by
  rw [writes?_eq]
  decide +kernel

theorem printsUnset_unoptimized : printsUnset.writes? { optimize := false } 1000 [] = some [0] := by
  rw [writes?_eq]
  decide +kernel

theorem printsOutside_optimized : printsOutside.writes? {} 1000 [] = some [1] := by
  rw [writes?_eq]
  decide +kernel

theorem printsOutside_unoptimized : printsOutside.writes? { optimize := false } 1000 [] = some [0] := by
  rw [writes?_eq]
  decide +kernel

theorem not_sameOutput (h : p.Prints {} input output) (h' : p.Prints { optimize := false } input output')
    (hne : output ≠ output') : ¬ p.SameOutput false false input := by
  rintro (⟨_, ho, ho'⟩ | ⟨ho, -⟩)
  · exact hne ((h.unique ho).trans (ho'.unique h'))
  · exact h.not_hangs ho

/-- Programs that print what code has left behind may print something else when they are
optimized. The sum of one and one empties the cell next to it, and the number two does not. -/
theorem optimize_changes_leftovers :
    (printsUnset.Prints {} [] [1] ∧ printsUnset.Prints { optimize := false } [] [0] ∧
        ¬ printsUnset.SameOutput false false []) ∧
      printsOutside.Prints {} [] [1] ∧ printsOutside.Prints { optimize := false } [] [0] ∧
        ¬ printsOutside.SameOutput false false [] := by
  have hunset := prints_of_writes? printsUnset_optimized
  have hunset' := prints_of_writes? printsUnset_unoptimized
  have houtside := prints_of_writes? printsOutside_optimized
  have houtside' := prints_of_writes? printsOutside_unoptimized
  exact ⟨⟨hunset, hunset', not_sameOutput hunset hunset' (by decide)⟩, houtside, houtside',
    not_sameOutput houtside houtside' (by decide)⟩

end Program
end TapeC
