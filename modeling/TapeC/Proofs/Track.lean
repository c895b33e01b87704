import TapeC.Proofs.Value
import TapeC.Routine.Arithmetic

/-! Where the head of a program goes, found from the program alone. Most programs repeat only what
leads back to where it began, so that the head can be followed through them, whatever the tape
holds; those that use a few cells also keep the head among these. -/

namespace TapeC

namespace Tape.Code

variable {a b c : Code}

/-- Where the head ends that starts `i` cells right of some cell, if it never is left of that
cell and each loop leads back to where it began. -/
def track : Code → Nat → Option Nat
  | skip, i | inc _, i | dec _, i | write, i | read, i | note _, i => some i
  | right n, i => some (i + n)
  | left n, i => if n ≤ i then some (i - n) else none
  | loop body, i => if body.track i = some i then some i else none
  | seq a b, i => a.track i >>= b.track
  | within _, _ | vacant _, _ => none

variable {i j : Nat}

@[simp] theorem track_append : (a ++ b).track i = a.track i >>= b.track := rfl

@[simp] theorem track_skip : skip.track i = some i := rfl

@[simp] theorem track_right {n : Nat} : (right n).track i = some (i + n) := rfl

theorem track_left {n : Nat} (h : n ≤ i) : (left n).track i = some (i - n) := if_pos h

@[simp] theorem track_left_add {n : Nat} : (left n).track (i + n) = some i := by
  rw [track_left (Nat.le_add_left n i), Nat.add_sub_cancel]

@[simp] theorem track_inc {n : Nat} : (inc n).track i = some i := rfl

@[simp] theorem track_dec {n : Nat} : (dec n).track i = some i := rfl

@[simp] theorem track_write : write.track i = some i := rfl

@[simp] theorem track_note {text : String} : (note text).track i = some i := rfl

@[simp] theorem track_clear : clear.track i = some i := if_pos rfl

theorem track_seq {k : Nat} (ha : a.track i = some j) (hb : b.track j = some k) : (a ++ b).track i = some k := by
  rw [track_append, ha]
  exact hb

theorem track_loop (h : a.track i = some i) : (Code.loop a).track i = some i := if_pos h

theorem track_concat {cs : List Code} (h : ∀ c ∈ cs, c.track i = some i) : (concat cs).track i = some i := by
  induction cs with
  | nil => rfl
  | cons c cs ih =>
    obtain ⟨hc, hcs⟩ := List.forall_mem_cons.1 h
    cases cs with
    | nil => exact hc
    | cons d cs =>
      rw [show concat (c :: d :: cs) = c ++ concat (d :: cs) from rfl, track_append, hc]
      exact ih hcs

/-- As `track`, if the head also never is `n` cells right of that cell or further. -/
def stays (n : Nat) : Code → Nat → Option Nat
  | skip, i | inc _, i | dec _, i | write, i | read, i | note _, i => some i
  | right m, i => if i + m < n then some (i + m) else none
  | left m, i => if m ≤ i then some (i - m) else none
  | loop body, i => if body.stays n i = some i then some i else none
  | seq a b, i => a.stays n i >>= b.stays n
  | within _, _ | vacant _, _ => none

variable {n : Nat}

@[simp] theorem stays_append : (a ++ b).stays n i = a.stays n i >>= b.stays n := rfl

@[simp] theorem stays_skip : skip.stays n i = some i := rfl

theorem stays_right {m : Nat} (h : i + m < n) : (right m).stays n i = some (i + m) := if_pos h

@[simp] theorem stays_left_add {m : Nat} : (left m).stays n (i + m) = some i := by
  rw [stays, if_pos (Nat.le_add_left m i), Nat.add_sub_cancel]

@[simp] theorem stays_inc {m : Nat} : (inc m).stays n i = some i := rfl

@[simp] theorem stays_dec {m : Nat} : (dec m).stays n i = some i := rfl

@[simp] theorem stays_write : write.stays n i = some i := rfl

@[simp] theorem stays_clear : clear.stays n i = some i := if_pos rfl

theorem stays_seq {k : Nat} (ha : a.stays n i = some j) (hb : b.stays n j = some k) : (a ++ b).stays n i = some k := by
  rw [stays_append, ha]
  exact hb

theorem stays_loop (h : a.stays n i = some i) : (Code.loop a).stays n i = some i := if_pos h

theorem track_of_stays (h : c.stays n i = some j) : c.track i = some j := by
  induction c generalizing i j with
  | skip | inc | dec | write | read | note => exact h
  | right =>
    rw [stays] at h
    split at h
    next => exact h
    next => cases h
  | left => exact h
  | loop body ih =>
    rw [stays] at h
    split at h
    next hbody =>
      cases h
      exact track_loop (ih hbody)
    next => cases h
  | seq a b iha ihb =>
    obtain ⟨k, ha, hb⟩ := Option.bind_eq_some_iff.1 h
    exact track_seq (iha ha) (ihb hb)
  | within | vacant => cases h

theorem stays_lt (h : c.stays n i = some j) (hi : i < n) : j < n := by
  induction c generalizing i j with
  | skip | inc | dec | write | read | note =>
    cases h
    exact hi
  | right =>
    rw [stays] at h
    split at h
    next hlt =>
      cases h
      exact hlt
    next => cases h
  | left =>
    rw [stays] at h
    split at h
    next =>
      cases h
      omega
    next => cases h
  | loop body ih =>
    rw [stays] at h
    split at h
    next =>
      cases h
      exact hi
    next => cases h
  | seq a b iha ihb =>
    obtain ⟨k, ha, hb⟩ := Option.bind_eq_some_iff.1 h
    exact ihb hb (iha ha hi)
  | within | vacant => cases h

end Tape.Code

/-! ### Routines -/

namespace Routine

open Tape Code

variable {i m n flag : Nat} {up clearNext check : Bool} {c : Code} {old new v : Cell} {bytes : List Cell}

theorem stays_run : (run up m).stays n i = some i := by
  cases up <;> rfl

theorem stays_runByLoop? (hi : i + 1 < n) (h : runByLoop? up m clearNext = some c) : c.stays n i = some i := by
  obtain ⟨f, -, h⟩ := Option.bind_eq_some_iff.1 h
  cases h
  have hloop : (loop (left 1 ++ run up f.step ++ right 1 ++ dec 1)).stays n (i + 1) = some (i + 1) :=
    stays_loop (by simp [stays_run, stays_right hi])
  cases clearNext <;> simp [stays_right hi, hloop, stays_run]

theorem stays_setCell (hi : i + 1 < n) : (setCell new old clearNext).stays n i = some i := by
  have hmem : setCell new old clearNext ∈ _ := cheapest_mem
  simp only [List.mem_cons, List.mem_append, Option.mem_toList, List.not_mem_nil, or_false] at hmem
  rcases hmem with h | (h | h) | h
  · exact h ▸ stays_run
  · exact stays_runByLoop? hi h
  · exact h ▸ stays_run
  · exact stays_runByLoop? hi h

theorem stays_writeBytesFrom (hi : i + 1 < n) : (writeBytesFrom old bytes).stays n i = some i := by
  induction bytes generalizing old with
  | nil => rfl
  | cons b bytes ih => simp [writeBytesFrom, stays_setCell hi, ih]

theorem stays_writeBytes (hi : i + 1 < n) : (writeBytes bytes).stays n i = some i := by
  simp [writeBytes, stays_right hi, stays_writeBytesFrom hi]

theorem stays_ifZero (hi : i + flag < n) (h : c.stays n i = some i) : (ifZero c flag).stays n i = some i := by
  have hfirst : (loop (right flag ++ dec 1 ++ left flag ++ clear)).stays n i = some i :=
    stays_loop (by simp [stays_right hi])
  have hsecond : (loop (left flag ++ c ++ right flag ++ dec 1)).stays n (i + flag) = some (i + flag) :=
    stays_loop (by simp [stays_right hi, h])
  simp [ifZero, stays_right hi, hfirst, hsecond]

theorem stays_checkDivisor : checkDivisor.stays 6 0 = some 0 := by
  have hreport : reportZeroDivisor.stays 6 3 = some 3 := stays_seq (stays_writeBytes (by decide)) rfl
  exact stays_seq (stays_seq (j := 3) rfl (stays_ifZero (by decide) hreport)) rfl

theorem stays_divideWithRemainder : (divideWithRemainder check).stays 6 0 = some 0 := by
  have h : (if check then checkDivisor else skip).stays 6 0 = some 0 := by
    cases check
    · rfl
    · exact stays_checkDivisor
  simp only [divideWithRemainder, stays_append, h]
  rfl

theorem stays_divide : (divide check).stays 6 0 = some 1 := by
  simp only [divide, stays_append, stays_divideWithRemainder]
  rfl

theorem stays_modulo : (modulo check).stays 6 0 = some 1 := by
  simp only [modulo, stays_append, stays_divideWithRemainder]
  rfl

theorem track_setCell : (setCell new old clearNext).track i = some i := track_of_stays (stays_setCell (Nat.lt_succ_self _))

theorem track_literal : (literal v).track i = some (i + 1) := by simp [literal, track_setCell]

theorem track_writeBytes : (writeBytes bytes).track i = some i := track_of_stays (stays_writeBytes (Nat.lt_succ_self _))

theorem track_divide : (divide check).track 0 = some 1 := track_of_stays stays_divide

theorem track_modulo : (modulo check).track 0 = some 1 := track_of_stays stays_modulo

end Routine
end TapeC
