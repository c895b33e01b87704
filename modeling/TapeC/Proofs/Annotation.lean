import TapeC.Proofs.AlikeProgram
import TapeC.Tape.Machine

/-! Comments do not matter. A text is loaded as its instructions alone would be, and a program
that is compiled with comments has the same instructions as without. -/

namespace TapeC

namespace Tape

/-! ### Loading without comments -/

namespace Block

/-- The block with every instruction placed at the first character. -/
def unplaced : Block → Block
  | nil => nil
  | move _ d rest => move 0 d rest.unplaced
  | add _ v rest => add 0 v rest.unplaced
  | write _ rest => write 0 rest.unplaced
  | read _ rest => read 0 rest.unplaced
  | loop _ _ body rest => loop 0 0 body.unplaced rest.unplaced

variable {b b' : Block} {cs ds : List Char} {p : Nat}

theorem unplaced_consMove {d : Int} : (consMove p d b).unplaced = consMove 0 d b.unplaced := by
  cases b <;> rfl

theorem unplaced_consAdd {v : Cell} : (consAdd p v b).unplaced = consAdd 0 v b.unplaced := by
  cases b <;> rfl

def Reader.unplaced (r : Reader) : Reader :=
  ⟨r.current.unplaced, r.outer.map fun (_, b) => (0, b.unplaced), r.unclosed.map fun _ => 0⟩

theorem Reader.unplaced_cons (c : Char) (r : Reader) : (r.cons p c).unplaced = r.unplaced.cons 0 c := by
  obtain ⟨current, outer, unclosed⟩ := r
  unfold Reader.cons
  split
  · simp [unplaced, unplaced_consMove]
  · simp [unplaced, unplaced_consMove]
  · simp [unplaced, unplaced_consAdd]
  · simp [unplaced, unplaced_consAdd]
  · rfl
  · rfl
  · rfl
  · cases outer with
    | cons => rfl
    | nil => cases unclosed <;> rfl
  · rfl

/-- What is read of a text, but for the places of instructions, are its instructions. -/
theorem Reader.unplaced_ofChars (cs : List Char) :
    (Reader.ofChars cs).unplaced = (strip cs).foldr (fun c r => r.cons 0 c) {} := by
  have hread (k : Nat) : ((cs.zipIdx k).foldr (fun (c, p) r => Reader.cons p c r) {}).unplaced =
      cs.foldr (fun c r => r.cons 0 c) {} := by
    induction cs generalizing k with
    | nil => rfl
    | cons c cs ih => rw [List.zipIdx_cons, List.foldr_cons, unplaced_cons, ih, List.foldr_cons]
  rw [ofChars, hread 0, strip, List.foldr_filter]
  congr 1
  funext c r
  split
  · rfl
  next h =>
    rw [← Joining.cons_full]
    exact Joining.cons_of_not_instruction (Bool.not_eq_true _ ▸ h)

theorem unplaced_of_ofChars (h : ofChars cs = .ok b) :
    b.unplaced = ((strip cs).foldr (fun c r => Reader.cons 0 c r) {}).current := by
  rw [← Reader.unplaced_ofChars]
  unfold ofChars at h
  split at h
  · cases h
  · cases h
  next hr =>
    cases h
    rw [hr]
    rfl

theorem sizeFrom_unplaced {n : Nat} : b.unplaced.sizeFrom n = b.sizeFrom n := by
  induction b generalizing n with
  | nil => rfl
  | loop p q body rest ihb ih => rw [unplaced, sizeFrom, sizeFrom, ihb, ih]
  | _ => simp [unplaced, sizeFrom, *]

theorem ops_emit_unplaced {pre pre' : Array Instruction} (h : pre.map (·.op) = pre'.map (·.op)) :
    (b.emit pre).map (·.op) = (b.unplaced.emit pre').map (·.op) := by
  have hpush (p q : Nat) (op : Op) {pre pre' : Array Instruction} (h : pre.map (·.op) = pre'.map (·.op)) :
      (pre.push ⟨op, p⟩).map (·.op) = (pre'.push ⟨op, q⟩).map (·.op) := by
    rw [Array.map_push, Array.map_push, h]
  induction b generalizing pre pre' with
  | nil => exact h
  | loop p q body rest ihb ih =>
    have hsize : pre.size = pre'.size := by simpa using congrArg Array.size h
    rw [emit, unplaced, emit, hsize, sizeFrom_unplaced]
    exact ih (hpush _ _ _ (ihb (hpush _ _ _ h)))
  | move _ _ _ ih | add _ _ _ ih | write _ _ ih | read _ _ ih => exact ih (hpush _ _ _ h)

end Block

namespace Machine

/-- The operations, wherever they come from. -/
def ops (m : Machine) : Array Op := m.code.map (·.op)

variable {m m' : Machine} {cs ds : List Char}

/-- Texts with the same instructions are loaded as the same operations. -/
theorem ops_of_strip (h : strip cs = strip ds) (hm : ofChars cs = .ok m) (hm' : ofChars ds = .ok m') :
    m.ops = m'.ops := by
  unfold ofChars at hm hm'
  split at hm
  next b hb =>
    split at hm'
    next b' hb' =>
      cases hm
      cases hm'
      have hunplaced : b.unplaced = b'.unplaced := by
        rw [Block.unplaced_of_ofChars hb, Block.unplaced_of_ofChars hb', h]
      exact (Block.ops_emit_unplaced rfl).trans (hunplaced ▸ (Block.ops_emit_unplaced rfl).symm)
    next => cases hm'
  next => cases hm

/-- The same state at the end, or the same fault but for its place. -/
inductive SameRun : Except Fault State → Except Fault State → Prop where
  | ok (s : State) : SameRun (.ok s) (.ok s)
  | underflow (p q : Nat) : SameRun (.error (.underflow p)) (.error (.underflow q))
  | exhausted (limit : Nat) (output : List Cell) :
      SameRun (.error (.exhausted limit output)) (.error (.exhausted limit output))

theorem step_sameRun (s : State) (op : Op) (p q : Nat) : SameRun (s.step ⟨op, p⟩) (s.step ⟨op, q⟩) := by
  cases op with
  | move d =>
    rw [State.step, State.step]
    dsimp only
    split
    · exact .underflow p q
    · exact .ok _
  | read =>
    rw [State.step, State.step]
    dsimp only
    split <;> exact .ok _
  | add | write | enter | again => exact .ok _

/-- Only the operations decide how a run ends. -/
theorem runFrom_sameRun (h : m.ops = m'.ops) (limit budget : Nat) (s : State) :
    SameRun (m.runFrom limit budget s) (m'.runFrom limit budget s) := by
  have hsize : m.code.size = m'.code.size := by simpa [ops] using congrArg Array.size h
  induction budget generalizing s with
  | zero =>
    rw [runFrom, runFrom, size, size, hsize]
    split
    · exact .exhausted limit _
    · exact .ok s
  | succ budget ih =>
    have hop : (m.code[s.pc]?).map (·.op) = (m'.code[s.pc]?).map (·.op) := by
      simpa [ops] using congrArg (·[s.pc]?) h
    rw [runFrom, runFrom]
    cases hi : m.code[s.pc]? with
    | none =>
      rw [hi, Option.map_none, eq_comm, Option.map_eq_none_iff] at hop
      rw [hop]
      exact .ok s
    | some i =>
      rw [hi, Option.map_some, eq_comm] at hop
      obtain ⟨i', hi', hii'⟩ := Option.map_eq_some_iff.1 hop
      obtain ⟨op, p⟩ := i
      obtain ⟨_, q⟩ := i'
      cases hii'
      rw [hi']
      have hstep := step_sameRun s op p q
      dsimp only
      generalize s.step ⟨op, p⟩ = x at hstep
      generalize s.step ⟨op, q⟩ = y at hstep
      cases hstep with
      | ok t => exact ih t
      | underflow p q => exact .underflow p q
      | exhausted limit output => exact .exhausted limit output

end Machine
end Tape

/-! ### Compiling without comments -/

open Tape Lowering

/-- Any fault, and code that the second side has without its comments. -/
def Lowering.Likeness.uncommented : Likeness where
  fault _ := True
  code a b := a.bare = b
  ordinary _ _ := trivial
  refl h := h
  append h h' := h ▸ h' ▸ rfl
  loop h := h ▸ rfl

theorem Lowering.Likeness.uncommented_bodies (definitions : Layout.Definitions) :
    uncommented.AlikeBodies definitions id true false where
  bodily := ⟨fun _ => rfl, fun _ => rfl, fun _ => rfl⟩
  returns _ := rfl
  fault _ := trivial
  note _ := rfl
  body _ _ _ hact _ _ h := statements_alike_self hact fun _ _ _ _ name _ _ _ => h name

namespace Program

/-- A program has the same code with comments as without, but for the comments. -/
theorem lower_uncommented (p : Program) :
    Likeness.uncommented.AlikeResult (p.lower true) (p.lower false) := by
  have hid : Layout.Definitions.mapFunctions id = id := by
    funext definitions
    simp [Layout.Definitions.mapFunctions]
  refine Likeness.lower_alike (g := id) ?_ Likeness.uncommented_bodies
  rw [hid, id_map]

/-- The programs that one source is compiled to with comments, without them, and with comments
that are left out of the text afterwards. -/
structure SameProgram (annotated plain minified : Compiled) : Prop where
  warnings : annotated.warnings = plain.warnings ∧ minified.warnings = plain.warnings
  globalsSize : annotated.globalsSize = plain.globalsSize ∧ minified.globalsSize = plain.globalsSize
  /-- Without comments there is nothing but instructions. -/
  instructions : ∀ c ∈ plain.text.toList, isInstruction c = true
  stripped : strip annotated.text.toList = plain.text.toList
  minified : minified.text = plain.text
  runs : ∃ m m', Machine.ofString annotated.text = .ok m ∧ Machine.ofString plain.text = .ok m' ∧ m.ops = m'.ops ∧
    ∀ limit start input, Machine.SameRun (m.run limit start input) (m'.run limit start input)

/-- All fail with the same fault, or none does. -/
def Unaffected : Except CompileFault Compiled → Except CompileFault Compiled → Except CompileFault Compiled → Prop
  | .ok annotated, .ok plain, .ok minified => SameProgram annotated plain minified
  | .error e, .error f, .error g => e = f ∧ g = f
  | _, _, _ => False

theorem sameProgram_of_bare {c : Code} {n : Nat} {w : List Warning} :
    SameProgram ⟨c, n, w, false⟩ ⟨c.bare, n, w, false⟩ ⟨c, n, w, true⟩ := by
  have hannotated : (Compiled.text ⟨c, n, w, false⟩).toList = c.charsThen [] := String.toList_ofList
  have hplain : (Compiled.text ⟨c.bare, n, w, false⟩).toList = c.bare.charsThen [] := String.toList_ofList
  have hstrip : strip (Compiled.text ⟨c, n, w, false⟩).toList = (Compiled.text ⟨c.bare, n, w, false⟩).toList := by
    rw [hannotated, hplain, Code.strip_charsThen]
  have hinstructions : ∀ ch ∈ (Compiled.text ⟨c.bare, n, w, false⟩).toList, isInstruction ch = true := by
    intro ch hch
    rw [← hstrip] at hch
    exact (List.mem_filter.1 hch).2
  obtain ⟨m, hm, -⟩ := Machine.ofString_text c
  obtain ⟨m', hm', -⟩ := Machine.ofString_text c.bare
  have hops : m.ops = m'.ops := by
    refine Machine.ops_of_strip ?_ hm hm'
    exact hstrip.trans (List.filter_eq_self.2 hinstructions).symm
  have hminified : Compiled.text ⟨c, n, w, true⟩ = Compiled.text ⟨c.bare, n, w, false⟩ :=
    congrArg String.ofList (Code.strip_charsThen c)
  exact ⟨⟨rfl, rfl⟩, ⟨rfl, rfl⟩, hinstructions, hstrip, hminified, m, m', hm, hm', hops,
    fun limit _ _ => Machine.runFrom_sameRun hops limit limit _⟩

/-- Neither comments nor leaving them out changes whether and why a program is refused, its
warnings, its instructions or any run of it. -/
theorem compile_unaffected_by_comments (optimize : Bool) (p : Program) :
    Unaffected (p.compile ⟨optimize, true, false⟩) (p.compile ⟨optimize, false, false⟩)
      (p.compile ⟨optimize, true, true⟩) := by
  have h := lower_uncommented (if optimize then p.optimize 2 else p)
  simp only [compile]
  generalize (if optimize then p.optimize 2 else p).lower true = x at h
  generalize (if optimize then p.optimize 2 else p).lower false = y at h
  match x, y, h with
  | .ok (c, n, w), .ok (_, _, _), ⟨rfl, rfl, rfl⟩ => exact sameProgram_of_bare
  | .error e, .error _, rfl => exact ⟨rfl, rfl⟩

end Program
end TapeC
