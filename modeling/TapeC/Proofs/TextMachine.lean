import TapeC.Cell
import TapeC.Tape.Listing
import Mathlib.Logic.Function.Basic

/-! A machine that executes a program text as it stands, one character at a time. Its
tape has no end on the left either, so that a program which leaves the cells from zero
on still has a run, and one can see where the head has been. A bracket leads to its
partner, which is found by counting brackets. -/

namespace TapeC.Tape

/-- Texts in which each square bracket has its partner. -/
inductive Balanced : List Char → Prop where
  | nil : Balanced []
  | cons {c : Char} {cs : List Char} (hopen : c ≠ '[') (hclose : c ≠ ']') (h : Balanced cs) :
      Balanced (c :: cs)
  | loop {body rest : List Char} (hbody : Balanced body) (h : Balanced rest) :
      Balanced ('[' :: body ++ ']' :: rest)

theorem Balanced.append {cs ds : List Char} (h : Balanced cs) (h' : Balanced ds) : Balanced (cs ++ ds) := by
  induction h with
  | nil => exact h'
  | cons hopen hclose _ ih => exact .cons hopen hclose ih
  | loop hbody _ _ ih =>
    rw [List.append_assoc, List.cons_append]
    exact .loop hbody ih

/-- The number of characters in front of the bracket `outward` that is not the partner of
any bracket `inward` passed on the way, nor of one of `depth` brackets passed before. -/
def toPartner (inward outward : Char) : Nat → List Char → Nat
  | _, [] => 0
  | depth, c :: cs =>
    if c = outward then
      match depth with
      | 0 => 0
      | depth + 1 => toPartner inward outward depth cs + 1
    else toPartner inward outward (if c = inward then depth + 1 else depth) cs + 1

section Partners

variable {inward outward c : Char} {cs : List Char} {depth : Nat}

theorem toPartner_partner : toPartner inward outward 0 (outward :: cs) = 0 := by simp [toPartner]

theorem toPartner_outward :
    toPartner inward outward (depth + 1) (outward :: cs) = toPartner inward outward depth cs + 1 := by
  simp [toPartner]

theorem toPartner_inward (h : inward ≠ outward) :
    toPartner inward outward depth (inward :: cs) = toPartner inward outward (depth + 1) cs + 1 := by
  simp [toPartner, h]

theorem toPartner_other (hi : c ≠ inward) (ho : c ≠ outward) :
    toPartner inward outward depth (c :: cs) = toPartner inward outward depth cs + 1 := by
  simp [toPartner, hi, ho]

end Partners

/-- Where the loop that begins at `place` ends. -/
def closing (cs : List Char) (place : Nat) : Nat :=
  place + 1 + toPartner '[' ']' 0 (cs.drop (place + 1))

/-- Where the loop that ends at `place` begins. -/
def opening (cs : List Char) (place : Nat) : Nat :=
  place - 1 - toPartner ']' '[' 0 (cs.take place).reverse

namespace TextMachine

structure State where
  /-- The number of characters before the next one. -/
  place : Nat
  head : Int
  cells : Int → Cell
  input : List Cell
  output : List Cell

namespace State

/-- The head on the cell `start` of an empty tape. -/
def initial (start : Nat) (input : List Cell) : State := ⟨0, start, fun _ => 0, input, []⟩

def cell (u : State) : Cell := u.cells u.head

def goto (u : State) (place : Nat) : State := { u with place }

def move (u : State) (distance : Int) : State := { u with head := u.head + distance }

def store (u : State) (value : Cell) : State :=
  { u with cells := Function.update u.cells u.head value }

/-- The effect of one character of the text. -/
def act (cs : List Char) (u : State) (c : Char) : State :=
  let next := u.goto (u.place + 1)
  match c with
  | '>' => next.move 1
  | '<' => next.move (-1)
  | '+' => next.store (u.cell + 1)
  | '-' => next.store (u.cell + -1)
  | '.' => { next with output := u.output ++ [u.cell] }
  | ',' => { next.store (u.input.headD 0) with input := u.input.tail }
  | '[' => if u.cell = 0 then u.goto (closing cs u.place + 1) else next
  | ']' => if u.cell = 0 then next else u.goto (opening cs u.place + 1)
  | _ => next

end State

variable {cs : List Char} {u v w : State} {n m : Nat} {P Q : State → Prop}

/-- One step; there is none at the end of the text. -/
def step (cs : List Char) (u : State) : Option State := cs[u.place]?.map (u.act cs)

/-- Exactly `n` steps. -/
def run (cs : List Char) : Nat → State → Option State
  | 0, u => some u
  | n + 1, u => (step cs u).bind (run cs n)

theorem run_add (n m : Nat) (u : State) : run cs (n + m) u = (run cs n u).bind (run cs m) := by
  induction n generalizing u with
  | zero => rw [Nat.zero_add]; rfl
  | succ n ih =>
    rw [Nat.succ_add, run, run, Option.bind_assoc]
    exact congrArg _ (funext ih)

theorem run_one : run cs 1 u = step cs u := by
  rw [run]
  cases step cs u <;> rfl

/-- A machine that has stopped goes no further. -/
theorem le_of_stopped (hv : run cs n u = some v) (hstop : step cs v = none) (hm : run cs m u = some w) :
    m ≤ n := by
  by_contra hlt
  obtain ⟨k, rfl⟩ := Nat.exists_eq_add_of_lt (Nat.lt_of_not_le hlt)
  rw [Nat.add_assoc, run_add, hv, Option.bind_some, Nat.add_comm k, run_add, run_one, hstop] at hm
  cases hm

def Reaches (cs : List Char) (u v : State) : Prop := ∃ n, run cs n u = some v

theorem head_le_of_step (hcs : '<' ∉ cs) (h : step cs u = some v) : u.head ≤ v.head := by
  obtain ⟨c, hc, rfl⟩ := Option.map_eq_some_iff.1 h
  unfold State.act
  split
  · exact Int.le_add_of_nonneg_right (by decide)
  · exact absurd (List.mem_of_getElem? hc) hcs
  any_goals exact Int.le_refl _
  all_goals
    split
    · exact Int.le_refl _
    · exact Int.le_refl _

/-- A text without moves to the left does not lead there. -/
theorem Reaches.head_le (hcs : '<' ∉ cs) (h : Reaches cs u v) : u.head ≤ v.head := by
  obtain ⟨n, hn⟩ := h
  induction n generalizing u with
  | zero =>
    cases hn
    exact Int.le_refl _
  | succ n ih =>
    obtain ⟨w, hw, hn⟩ := Option.bind_eq_some_iff.1 hn
    exact Int.le_trans (head_le_of_step hcs hw) (ih hn)

def Halts (cs : List Char) (u v : State) : Prop := Reaches cs u v ∧ step cs v = none

def RunsForever (cs : List Char) (u : State) : Prop := ∀ n, run cs n u ≠ none

theorem Halts.unique (h : Halts cs u v) (h' : Halts cs u w) : v = w := by
  obtain ⟨⟨n, hn⟩, hv⟩ := h
  obtain ⟨⟨m, hm⟩, hw⟩ := h'
  obtain rfl := Nat.le_antisymm (le_of_stopped hm hw hn) (le_of_stopped hn hv hm)
  exact Option.some.inj (hn.symm.trans hm)

theorem RunsForever.not_halts (h : RunsForever cs u) : ¬ Halts cs u v := by
  rintro ⟨⟨n, hn⟩, hv⟩
  obtain ⟨w, hw⟩ := Option.ne_none_iff_exists'.1 (h (n + 1))
  exact absurd (le_of_stopped hn hv hw) (Nat.not_succ_le_self n)

theorem RunsForever.of_run (h : RunsForever cs u) (hn : run cs n u = some v) : RunsForever cs v := by
  intro k hk
  refine h (n + k) ?_
  rw [run_add, hn, Option.bind_some, hk]

/-- A machine that a step leaves as it is makes that step forever. -/
theorem RunsForever.of_step_self (hn : run cs n u = some v) (hv : step cs v = some v) : RunsForever cs u := by
  have hstay (k) : run cs k v = some v := by
    induction k with
    | zero => rfl
    | succ k ih => rw [run, hv, Option.bind_some, ih]
  intro m hm
  have hend : run cs (n + m) u = some v := by rw [run_add, hn, Option.bind_some, hstay]
  rw [Nat.add_comm, run_add, hm] at hend
  cases hend

/-- The next instruction does not move the head. -/
def Resting (cs : List Char) (u : State) : Prop :=
  ∀ c, (cs.drop u.place).find? isInstruction = some c → c ≠ '>' ∧ c ≠ '<'

/-! ### Ways -/

/-- Exactly `n` steps lead from `u` to `v`, and all states on the way before `v` satisfy `P`. -/
structure Way (cs : List Char) (P : State → Prop) (n : Nat) (u v : State) : Prop where
  run : run cs n u = some v
  through : ∀ i < n, ∀ w, TextMachine.run cs i u = some w → P w

theorem Way.refl : Way cs P 0 u u := ⟨rfl, fun _ h => absurd h (Nat.not_lt_zero _)⟩

theorem Way.step (hu : P u) (h : TextMachine.step cs u = some v) : Way cs P 1 u v := by
  refine ⟨by rw [run_one, h], fun i hi w hw => ?_⟩
  obtain rfl : i = 0 := by omega
  exact Option.some.inj hw ▸ hu

theorem Way.trans (h : Way cs P n u v) (h' : Way cs P m v w) : Way cs P (n + m) u w := by
  refine ⟨by rw [run_add, h.run, Option.bind_some, h'.run], fun i hi x hx => ?_⟩
  by_cases hin : i < n
  · exact h.through i hin x hx
  · obtain ⟨k, rfl⟩ := Nat.exists_eq_add_of_le (Nat.le_of_not_lt hin)
    rw [run_add, h.run] at hx
    exact h'.through k (by omega) x hx

theorem Way.mono (h : Way cs P n u v) (hPQ : ∀ w, P w → Q w) : Way cs Q n u v :=
  ⟨h.run, fun i hi w hw => hPQ w (h.through i hi w hw)⟩

end TextMachine
end TapeC.Tape
