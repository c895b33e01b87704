import TapeC.Layout.Definitions
import TapeC.Proofs.Block
import TapeC.Proofs.Contents
import TapeC.Proofs.Value
import TapeC.Routine.Arithmetic
import TapeC.Routine.Bitwise

/-! Programs without comments. None of the programs that others are put together from has a
comment in it. -/

namespace TapeC

namespace Tape.Code

/-- There are no notes in the program. -/
def Noteless (c : Code) : Prop := c.bare = c

variable {a b : Code} {n : Nat}

@[simp] theorem noteless_append : (a ++ b).Noteless ↔ a.Noteless ∧ b.Noteless :=
  ⟨seq.inj, fun h => congrArg₂ seq h.1 h.2⟩

@[simp] theorem noteless_loop : (Code.loop a).Noteless ↔ a.Noteless :=
  ⟨loop.inj, congrArg Code.loop⟩

@[simp] theorem noteless_skip : skip.Noteless := rfl

@[simp] theorem noteless_right : (right n).Noteless := rfl

@[simp] theorem noteless_left : (left n).Noteless := rfl

@[simp] theorem noteless_inc : (inc n).Noteless := rfl

@[simp] theorem noteless_dec : (dec n).Noteless := rfl

@[simp] theorem noteless_write : write.Noteless := rfl

@[simp] theorem noteless_read : read.Noteless := rfl

@[simp] theorem noteless_within : (within n).Noteless := rfl

@[simp] theorem noteless_clear : clear.Noteless := rfl

theorem noteless_concat {cs : List Code} (h : ∀ c ∈ cs, c.Noteless) : (concat cs).Noteless := by
  induction cs with
  | nil => exact rfl
  | cons c cs ih =>
    obtain ⟨hc, hcs⟩ := List.forall_mem_cons.1 h
    cases cs with
    | nil => exact hc
    | cons d cs => exact noteless_append.2 ⟨hc, ih hcs⟩

end Tape.Code

namespace Routine

open Tape Code

/-! ### Transfers -/

variable {m n times : Nat}

@[simp] theorem pourLeft_noteless : (pourLeft n times).Noteless := rfl

@[simp] theorem pourRight_noteless : (pourRight n times).Noteless := rfl

@[simp] theorem spreadRight_noteless : (spreadRight m n).Noteless := rfl

@[simp] theorem copyFrom_noteless : (copyFrom n).Noteless := rfl

@[simp] theorem copyTo_noteless : (copyTo n).Noteless := rfl

@[simp] theorem moveTo_noteless : (moveTo n).Noteless := rfl

@[simp] theorem updateThenRead_noteless {change : Change} : (updateThenRead change n).Noteless := by
  cases change <;> exact rfl

@[simp] theorem readThenUpdate_noteless {change : Change} : (readThenUpdate change n).Noteless := by
  cases change <;> exact rfl

/-! ### Values -/

variable {up clearNext : Bool} {c : Code} {old new : Cell}

theorem run_noteless : (run up n).Noteless := by
  cases up <;> exact rfl

theorem runByLoop?_noteless (h : runByLoop? up n clearNext = some c) : c.Noteless := by
  obtain ⟨f, -, h⟩ := Option.bind_eq_some_iff.1 h
  cases h
  cases clearNext <;> simp [run_noteless]

@[simp] theorem setCell_noteless : (setCell new old clearNext).Noteless := by
  have hmem : setCell new old clearNext ∈ _ := cheapest_mem
  simp only [List.mem_cons, List.mem_append, Option.mem_toList, List.not_mem_nil, or_false] at hmem
  rcases hmem with h | (h | h) | h
  · exact h ▸ run_noteless
  · exact runByLoop?_noteless h
  · exact h ▸ run_noteless
  · exact runByLoop?_noteless h

@[simp] theorem literal_noteless {v : Cell} : (literal v).Noteless := by simp [literal]

theorem writeBytesFrom_noteless {bytes : List Cell} : (writeBytesFrom old bytes).Noteless := by
  induction bytes generalizing old with
  | nil => exact rfl
  | cons b bytes ih => simp [writeBytesFrom, ih]

@[simp] theorem writeBytes_noteless {bytes : List Cell} : (writeBytes bytes).Noteless := by
  simp [writeBytes, writeBytesFrom_noteless]

/-! ### Operations -/

@[simp] theorem ifZero_noteless {flag : Nat} : (ifZero c flag).Noteless ↔ c.Noteless := by simp [ifZero]

theorem divideWithRemainder_noteless {check : Bool} : (divideWithRemainder check).Noteless := by
  cases check <;> simp [divideWithRemainder, checkDivisor, reportZeroDivisor, nextMultiple]

@[simp] theorem divide_noteless {check : Bool} : (divide check).Noteless := by
  simp [divide, divideWithRemainder_noteless]

@[simp] theorem modulo_noteless {check : Bool} : (modulo check).Noteless := by
  simp [modulo, divideWithRemainder_noteless]

@[simp] theorem bitwise_noteless {rule : BitRule} : (bitwise rule).Noteless := by
  cases rule <;> simp [bitwise, splitFirst, splitSecond, collectBit, BitRule.code]

theorem Builtin.body_noteless {b : Builtin} : b.body.Noteless := by
  cases b <;> simp [Builtin.body, appendDigit, splitDigit, printDigits, noteless_concat]

end Routine

/-! ### Global variables -/

namespace Layout.Definitions

open Program Tape Code Routine

variable {structs : List StructLayout} {d : Declaration} {shape : Shape} {c : Code}

theorem globalContents_noteless (h : globalContents d shape = .ok c) : c.Noteless := by
  rw [globalContents] at h
  split at h
  · cases h
    exact rfl
  · obtain ⟨cells, -, h⟩ := bind_eq_ok.1 h
    obtain ⟨values, -, h⟩ := bind_eq_ok.1 h
    cases h
    refine noteless_concat fun c hc => ?_
    obtain ⟨v, -, rfl⟩ := List.mem_map.1 hc
    simp

theorem addGlobal_noteless {g g' : Globals} (hg : g.code.Noteless) (h : addGlobal structs g d = .ok g') :
    g'.code.Noteless := by
  obtain ⟨type, -, h⟩ := bind_eq_ok.1 h
  obtain ⟨⟨v, scopes⟩, -, h⟩ := bind_eq_ok.1 h
  obtain ⟨code, hcode, h⟩ := bind_eq_ok.1 h
  cases h
  exact noteless_append.2 ⟨hg, globalContents_noteless hcode⟩

/-- The code for the first contents of the global variables has no comments. -/
theorem globalCode_noteless {p : Program} {definitions : Definitions} (h : ofProgram p = .ok definitions) :
    definitions.globalCode.Noteless := by
  obtain ⟨structs, -, h⟩ := bind_eq_ok.1 h
  obtain ⟨globals, hglobals, h⟩ := bind_eq_ok.1 h
  obtain ⟨functions, -, h⟩ := bind_eq_ok.1 h
  cases h
  have hempty : ({} : Globals).code.Noteless := rfl
  exact foldlM_keeps (P := fun g => g.code.Noteless) (fun _ _ _ _ hg h => addGlobal_noteless hg h) hempty hglobals

end Layout.Definitions
end TapeC
