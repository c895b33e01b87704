import TapeC.Proofs.Matching
import Mathlib.Data.List.Forall2

/-! The variables that are visible at some place in a program, with the cells that they
have there. They lie apart from each other, so that a store to one of them leaves the
objects of all others as they are. -/

namespace TapeC.Lowering

open Layout Program Tape Evaluation

/-- The cells of a variable hold what an object does. -/
structure Represents (s : Config) (v : Variable) (o : Object) : Prop where
  name : o.name = v.name
  shape : o.shape = v.shape
  length : o.cells.length = v.size
  cells : ∀ i c, o.cells[i]? = some (some c) → s.cells (v.cell + i) = c

namespace Represents

variable {s t : Config} {v : Variable} {o : Object} {i : Nat} {w : Cell}

/-- Nothing changes for an object if its cells do not. -/
theorem congr (h : Represents s v o) (ht : ∀ x, v.cell ≤ x → x < v.stop → t.cells x = s.cells x) :
    Represents t v o := by
  refine ⟨h.name, h.shape, h.length, fun i c hi => ?_⟩
  have hlt : i < v.size := by
    rw [← h.length]
    exact (List.getElem?_eq_some_iff.1 hi).1
  rw [ht (v.cell + i) (by omega) (by rw [Variable.stop]; omega)]
  exact h.cells i c hi

theorem set (h : Represents s v o) (hi : i < v.size)
    (ht : ∀ x, v.cell ≤ x → x < v.stop → t.cells x = if x = v.cell + i then w else s.cells x) :
    Represents t v (o.set i w) := by
  refine ⟨h.name, h.shape, by rw [Object.set, List.length_set, h.length], fun j c hj => ?_⟩
  rw [Object.set, List.getElem?_set] at hj
  have hlt : j < v.size := by
    rw [← h.length]
    by_cases hij : i = j
    · rw [← hij, h.length]
      exact hi
    · rw [if_neg hij] at hj
      exact (List.getElem?_eq_some_iff.1 hj).1
  rw [ht (v.cell + j) (by omega) (by rw [Variable.stop]; omega)]
  by_cases hij : i = j
  · subst hij
    rw [if_pos rfl, if_pos (by rw [h.length]; exact hi)] at hj
    rw [if_pos rfl]
    exact Option.some.inj (Option.some.inj hj)
  · rw [if_neg hij] at hj
    rw [if_neg (by omega)]
    exact h.cells j c hj

end Represents

/-! ### Lists of variables -/

section Lists

variable {s t : Config} {vs : List Variable} {os : List Object} {v : Variable} {o : Object}
  {name : String} {i : Nat} {w : Cell}

theorem represents_congr (h : List.Forall₂ (Represents s) vs os)
    (ht : ∀ v ∈ vs, ∀ x, v.cell ≤ x → x < v.stop → t.cells x = s.cells x) :
    List.Forall₂ (Represents t) vs os := by
  induction h with
  | nil => exact .nil
  | cons hvo _ ih =>
    exact .cons (hvo.congr (ht _ (by simp))) (ih fun v hv => ht v (List.mem_cons_of_mem _ hv))

/-- A name means the same variable and object. -/
theorem represents_find (h : List.Forall₂ (Represents s) vs os)
    (hv : vs.find? (·.name == name) = some v) :
    ∃ o, os.find? (·.name == name) = some o ∧ Represents s v o := by
  induction h with
  | nil => cases hv
  | @cons u o vs os huo _ ih =>
    rw [List.find?_cons] at hv ⊢
    rw [huo.name]
    cases hn : u.name == name with
    | true =>
      rw [hn] at hv
      cases hv
      exact ⟨o, rfl, huo⟩
    | false =>
      rw [hn] at hv
      exact ih hv

theorem represents_any (h : List.Forall₂ (Represents s) vs os) :
    os.any (·.name == name) = (vs.find? (·.name == name)).isSome := by
  induction h with
  | nil => rfl
  | @cons u o vs os huo _ ih =>
    rw [List.any_cons, List.find?_cons, huo.name, ih]
    cases u.name == name <;> rfl

/-- Variables that lie apart, the latest first. -/
def Stacked (vs : List Variable) : Prop := vs.Pairwise fun v w => w.stop ≤ v.cell

/-- A store to a cell of one of the variables. -/
theorem represents_change (h : List.Forall₂ (Represents s) vs os) (hvs : Stacked vs)
    (hv : vs.find? (·.name == name) = some v) (hi : i < v.size)
    (ht : ∀ u ∈ vs, ∀ x, u.cell ≤ x → x < u.stop →
      t.cells x = if x = v.cell + i then w else s.cells x) :
    List.Forall₂ (Represents t) vs (Evaluation.change name (·.set i w) os) := by
  have hstop : v.stop = v.cell + v.size := rfl
  induction h with
  | nil => cases hv
  | @cons u o vs os huo hrest ih =>
    obtain ⟨hu, hvs⟩ := List.pairwise_cons.1 hvs
    rw [List.find?_cons] at hv
    rw [Evaluation.change, huo.name]
    cases hn : u.name == name with
    | true =>
      rw [hn] at hv
      cases hv
      rw [if_pos rfl]
      refine .cons (huo.set hi (ht v (by simp))) (represents_congr hrest fun w hw x hx hx' => ?_)
      have := hu w hw
      rw [ht w (List.mem_cons_of_mem _ hw) x hx hx', if_neg (by omega)]
    | false =>
      rw [hn] at hv
      rw [if_neg Bool.false_ne_true]
      refine .cons (huo.congr fun x hx hx' => ?_) (ih hvs hv fun u hu => ht u (List.mem_cons_of_mem _ hu))
      have := hu v (List.mem_of_find?_eq_some hv)
      rw [ht u (by simp) x hx hx', if_neg (by omega)]

end Lists

/-! ### Frames -/

/-- The visible variables, of which the latest come first. -/
structure Frame where
  locals : List Variable
  globals : List Variable
  /-- The cell of the returned value, if there is any. -/
  returnCell : Option Nat

namespace Frame

def vars (F : Frame) : List Variable := F.locals ++ F.globals

/-- The state matches the tape. -/
structure Holds (F : Frame) (s : Config) (σ : Store) : Prop where
  locals : List.Forall₂ (Represents s) F.locals σ.locals
  globals : List.Forall₂ (Represents s) F.globals σ.globals
  returned : ∀ r, F.returnCell = some r → s.cells r = σ.returned
  input : s.input = σ.input
  output : s.output = σ.output

def Covers (F : Frame) (x : Nat) : Prop :=
  (∃ v ∈ F.vars, v.cell ≤ x ∧ x < v.stop) ∨ F.returnCell = some x

/-- What is visible takes cells left of `p`, which do not overlap. -/
structure Fits (F : Frame) (p : Nat) : Prop where
  stacked : Stacked F.vars
  below : ∀ v ∈ F.vars, v.stop ≤ p
  returned : ∀ r, F.returnCell = some r → r < p ∧ ∀ v ∈ F.vars, v.stop ≤ r ∨ r < v.cell

variable {F : Frame} {s t : Config} {σ : Store} {p : Nat} {v : Variable} {name : String}

/-- The cells stay as they are, while bytes are read and written. -/
theorem Holds.transmit (h : F.Holds s σ) (hc : ∀ x, F.Covers x → t.cells x = s.cells x) {i o : List Cell}
    (hi : t.input = i) (ho : t.output = o) : F.Holds t { σ with input := i, output := o } where
  locals := represents_congr h.locals fun v hv x hx hx' =>
    hc x (.inl ⟨v, List.mem_append_left _ hv, hx, hx'⟩)
  globals := represents_congr h.globals fun v hv x hx hx' =>
    hc x (.inl ⟨v, List.mem_append_right _ hv, hx, hx'⟩)
  returned r hr := (hc r (.inr hr)).trans (h.returned r hr)
  input := hi
  output := ho

theorem Holds.congr (h : F.Holds s σ) (hc : ∀ x, F.Covers x → t.cells x = s.cells x)
    (hi : t.input = s.input) (ho : t.output = s.output) : F.Holds t σ :=
  h.transmit hc (hi.trans h.input) (ho.trans h.output)

theorem Holds.goto (h : F.Holds s σ) : F.Holds (s.goto p) σ := h.congr (fun _ _ => rfl) rfl rfl

def matching (F : Frame) : Matching := ⟨F.Covers, F.Holds, Holds.congr⟩

theorem Fits.below_matching (h : F.Fits p) : F.matching.Below p := by
  rintro x (⟨v, hv, -, hx⟩ | hr)
  · exact Nat.lt_of_lt_of_le hx (h.below v hv)
  · exact (h.returned x hr).1

theorem Fits.mono {q : Nat} (h : F.Fits p) (hpq : p ≤ q) : F.Fits q where
  stacked := h.stacked
  below v hv := Nat.le_trans (h.below v hv) hpq
  returned r hr := ⟨Nat.lt_of_lt_of_le (h.returned r hr).1 hpq, (h.returned r hr).2⟩

theorem Holds.find (h : F.Holds s σ) (hv : F.vars.find? (·.name == name) = some v) :
    ∃ o, σ.find? name = some o ∧ Represents s v o :=
  represents_find (List.rel_append h.locals h.globals) hv

/-- A store to a cell of a variable. -/
theorem Holds.change (h : F.Holds s σ) (hF : F.Fits p)
    (hv : F.vars.find? (·.name == name) = some v) {i : Nat} {w : Cell} (hi : i < v.size)
    (hc : ∀ x < p, t.cells x = if x = v.cell + i then w else s.cells x)
    (hin : t.input = s.input) (hout : t.output = s.output) :
    F.Holds t (σ.change name (·.set i w)) := by
  have hmem := List.mem_of_find?_eq_some hv
  have hstop : v.stop = v.cell + v.size := rfl
  have hcells : ∀ u ∈ F.vars, ∀ x, u.cell ≤ x → x < u.stop →
      t.cells x = if x = v.cell + i then w else s.cells x :=
    fun u hu x _ hx => hc x (Nat.lt_of_lt_of_le hx (hF.below u hu))
  have hreturned : ∀ r, F.returnCell = some r → t.cells r = σ.returned := by
    intro r hr
    obtain ⟨hlt, hapart⟩ := hF.returned r hr
    have := hapart v hmem
    rw [hc r hlt, if_neg (by omega)]
    exact h.returned r hr
  obtain ⟨hlocals, hglobals, hapart⟩ := List.pairwise_append.1 hF.stacked
  rw [Store.change, represents_any h.locals]
  rw [vars, List.find?_append] at hv
  cases hfind : F.locals.find? (·.name == name) with
  | some u =>
    rw [hfind, Option.some_or] at hv
    cases hv
    refine ⟨?_, ?_, hreturned, hin.trans h.input, hout.trans h.output⟩
    · exact represents_change h.locals hlocals hfind hi fun u hu => hcells u (List.mem_append_left _ hu)
    · refine represents_congr h.globals fun u hu x hx hx' => ?_
      have := hapart v (List.mem_of_find?_eq_some hfind) u hu
      rw [hcells u (List.mem_append_right _ hu) x hx hx', if_neg (by omega)]
  | none =>
    rw [hfind, Option.none_or] at hv
    refine ⟨?_, ?_, hreturned, hin.trans h.input, hout.trans h.output⟩
    · refine represents_congr h.locals fun u hu x hx hx' => ?_
      have := hapart u hu v (List.mem_of_find?_eq_some hv)
      rw [hcells u (List.mem_append_left _ hu) x hx hx', if_neg (by omega)]
    · exact represents_change h.globals hglobals hv hi fun u hu => hcells u (List.mem_append_right _ hu)

/-- The returned value is set. -/
theorem Holds.setReturned (h : F.Holds s σ) (hF : F.Fits p) {r : Nat} {w : Cell}
    (hr : F.returnCell = some r) (hc : ∀ x < p, t.cells x = if x = r then w else s.cells x)
    (hin : t.input = s.input) (hout : t.output = s.output) : F.Holds t { σ with returned := w } := by
  obtain ⟨hlt, hapart⟩ := hF.returned r hr
  have hcells : ∀ u ∈ F.vars, ∀ x, u.cell ≤ x → x < u.stop → t.cells x = s.cells x := by
    intro u hu x hx hx'
    have := hapart u hu
    rw [hc x (Nat.lt_of_lt_of_le hx' (hF.below u hu)), if_neg (by omega)]
  refine ⟨?_, ?_, fun r' hr' => ?_, hin.trans h.input, hout.trans h.output⟩
  · exact represents_congr h.locals fun u hu => hcells u (List.mem_append_left _ hu)
  · exact represents_congr h.globals fun u hu => hcells u (List.mem_append_right _ hu)
  · cases hr.symm.trans hr'
    rw [hc r hlt, if_pos rfl]

/-! ### Declarations -/

def declare (F : Frame) (v : Variable) : Frame := { F with locals := v :: F.locals }

theorem Holds.declare {o : Object} (h : F.Holds s σ) (hv : Represents s v o) :
    (F.declare v).Holds s (σ.declare o) :=
  ⟨.cons hv h.locals, h.globals, h.returned, h.input, h.output⟩

theorem Fits.declare (h : F.Fits p) (hv : v.cell = p) : (F.declare v).Fits v.stop where
  stacked := List.pairwise_cons.2 ⟨fun u hu => hv ▸ h.below u hu, h.stacked⟩
  below u hu := by
    rcases List.mem_cons.1 hu with rfl | hu
    · exact Nat.le_refl _
    · have := h.below u hu
      rw [show v.stop = v.cell + v.size from rfl]
      omega
  returned r hr := by
    obtain ⟨hlt, hapart⟩ := h.returned r hr
    refine ⟨by rw [Variable.stop]; omega, fun u hu => ?_⟩
    rcases List.mem_cons.1 hu with rfl | hu
    · exact .inr (hv ▸ hlt)
    · exact hapart u hu

/-- A frame with more local variables, declared later. -/
structure Extends (F' F : Frame) : Prop where
  locals : F.locals <:+ F'.locals
  globals : F'.globals = F.globals
  returnCell : F'.returnCell = F.returnCell

theorem Extends.refl : F.Extends F := ⟨List.suffix_refl _, rfl, rfl⟩

theorem Extends.trans {F' F'' : Frame} (h : F'.Extends F) (h' : F''.Extends F') : F''.Extends F :=
  ⟨h.locals.trans h'.locals, h'.globals.trans h.globals, h'.returnCell.trans h.returnCell⟩

theorem extends_declare : (F.declare v).Extends F := ⟨List.suffix_cons _ _, rfl, rfl⟩

/-- The variables of an inner scope are forgotten. -/
theorem Holds.leave {F' : Frame} (h : F'.Holds s σ) (hF : F'.Extends F) :
    F.Holds s (σ.leave F.locals.length) := by
  obtain ⟨new, hnew⟩ := hF.locals
  have hlen : σ.locals.length - F.locals.length = new.length := by
    rw [← h.locals.length_eq, ← hnew, List.length_append]
    omega
  refine ⟨?_, hF.globals ▸ h.globals, hF.returnCell ▸ h.returned, h.input, h.output⟩
  have hdrop := List.forall₂_drop new.length h.locals
  rw [← hnew, List.drop_left] at hdrop
  rw [Store.leave, hlen]
  exact hdrop

end Frame
end TapeC.Lowering
