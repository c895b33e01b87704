import TapeC.Layout.Scopes
import Mathlib.Algebra.GroupWithZero.Nat

/-! Cells in use. A ledger goes along with the scopes of a program and notes what has taken
cells and has not given them back. In every run of the scopes' operations what the ledger
notes has cells of its own, a name means the innermost variable in the ledger, and leaving
a scope restores all that was when it was entered. -/

namespace TapeC.Layout

/-- What has taken cells. -/
inductive Entry where
  | var (v : Variable)
  | scratch (first cells : Nat)

namespace Entry

def first : Entry → Nat
  | var v => v.cell
  | scratch first _ => first

def size : Entry → Nat
  | var v => v.size
  | scratch _ cells => cells

def var? : Entry → Option Variable
  | var v => some v
  | scratch _ _ => none

def Covers (e : Entry) (x : Nat) : Prop := e.first ≤ x ∧ x < e.first + e.size

/-- No cell belongs to both. -/
def Apart (e e' : Entry) : Prop := ∀ x, e.Covers x → ¬ e'.Covers x

end Entry

/-- An operation on scopes that changes them. -/
inductive Action where
  | enter
  | enterAt (start : Nat)
  | declare (name : String) (shape : Shape) (position : Position)
  | reserve (cells : Nat)
  | release (cells : Nat)
  | exit

/-- Scopes and what has taken cells in them, the latest first. -/
structure Ledger where
  scopes : Scopes
  /-- What has taken cells in the innermost scope. -/
  here : List Entry := []
  /-- For each scope that has been entered and not been left, the scopes when it was entered and
  what had taken cells in the innermost one. -/
  around : List (Scopes × List Entry) := []

namespace Ledger

def empty : Ledger := { scopes := .empty }

def ofGlobals (globals : List Variable) : Ledger :=
  { scopes := .ofGlobals globals, here := globals.reverse.map .var }

/-- All that has taken cells. -/
def entries (l : Ledger) : List Entry := l.here ++ l.around.flatMap Prod.snd

/-- Performs an operation if it is allowed: no scope starts at a cell that is taken, and the cells
given back are those reserved last, nothing having been declared since. -/
def after (l : Ledger) : Action → Option Ledger
  | .enter => some ⟨l.scopes.enter, [], (l.scopes, l.here) :: l.around⟩
  | .enterAt start =>
    if l.scopes.offset ≤ start then some ⟨l.scopes.enterAt start, [], (l.scopes, l.here) :: l.around⟩ else none
  | .declare name shape position =>
    match l.scopes.declare name shape position with
    | .ok (v, scopes) => some { l with scopes, here := .var v :: l.here }
    | .error _ => some l
  | .reserve cells =>
    some { l with scopes := l.scopes.reserve cells, here := .scratch l.scopes.offset cells :: l.here }
  | .release cells =>
    match l.here with
    | .scratch _ reserved :: here => if reserved = cells then some { l with scopes := l.scopes.release cells, here } else none
    | _ => none
  | .exit =>
    match l.around with
    | [] => some { l with scopes := l.scopes.exit.2 }
    | (_, here) :: around => some ⟨l.scopes.exit.2, here, around⟩

def run (l : Ledger) (actions : List Action) : Option Ledger := actions.foldlM after l

/-- The scopes do what the ledger says. -/
structure Consistent (l : Ledger) : Prop where
  apart : l.entries.Pairwise Entry.Apart
  below : ∀ e ∈ l.entries, ∀ x, e.Covers x → x < l.scopes.offset
  lookup : ∀ name position, l.scopes.lookup name position =
    match (l.entries.filterMap Entry.var?).find? (·.name == name) with
    | some v => .ok v
    | none => .error (.semantic position (.undefinedVariable name))
  declared : ∀ name shape position, (∀ v, .var v ∈ l.here → v.name ≠ name) →
    ∃ scopes, l.scopes.declare name shape position = .ok (⟨name, shape, l.scopes.offset⟩, scopes)
  redeclared : ∀ name shape position, (∃ v, .var v ∈ l.here ∧ v.name = name) →
    l.scopes.declare name shape position = .error (.semantic position (.variableRedefined name)) ∧
      l.after (.declare name shape position) = some l
  exit : l.scopes.exit =
    match l.around with
    | [] => (0, l.scopes)
    | (scopes, _) :: _ => ((l.here.map Entry.size).sum, scopes)

end Ledger

variable {e : Entry} {base globals : List Variable} {entries : List Entry} {low next x : Nat} {l l' : Ledger}
  {a : Action} {actions : List Action}

/-! ### One scope -/

/-- What has taken cells in a scope: the variables `base`, all below the cell `low`, and after them one
entry behind the other from `low` on up to the cell `next`. -/
inductive Stacked (base : List Variable) (low : Nat) : List Entry → Nat → Prop where
  | base : Stacked base low (base.map .var) low
  | cons {entries : List Entry} {next : Nat} (e : Entry) (h : Stacked base low entries next) (he : e.first = next) :
      Stacked base low (e :: entries) (next + e.size)

namespace Stacked

theorem le (h : Stacked base low entries next) : low ≤ next := by
  induction h with
  | base => exact Nat.le_refl _
  | cons _ _ _ ih => exact Nat.le_add_right_of_le ih

theorem covered (h : Stacked base low entries next) (he : e ∈ entries) (hx : e.Covers x) :
    e ∈ base.map .var ∨ low ≤ x ∧ x < next := by
  induction h with
  | base => exact .inl he
  | cons e' h he' ih =>
    have hle := h.le
    rcases List.mem_cons.1 he with rfl | he
    · have hx : e.first ≤ x ∧ x < e.first + e.size := hx
      exact .inr (by omega)
    · exact (ih he).imp_right fun h => by omega

theorem lt_of_covers (h : Stacked base low entries next) (hbase : ∀ v ∈ base, v.stop ≤ low) (he : e ∈ entries)
    (hx : e.Covers x) : x < next := by
  rcases h.covered he hx with he | hx
  · obtain ⟨v, hv, rfl⟩ := List.mem_map.1 he
    exact Nat.lt_of_lt_of_le (Nat.lt_of_lt_of_le hx.2 (hbase v hv)) h.le
  · exact hx.2

theorem pairwise (h : Stacked base low entries next) (hbase : ∀ v ∈ base, v.stop ≤ low)
    (hapart : (base.map Entry.var).Pairwise Entry.Apart) : entries.Pairwise Entry.Apart := by
  induction h with
  | base => exact hapart
  | cons e h he ih =>
    refine .cons (fun e' he' x hx hx' => ?_) ih
    have hlt : x < e.first := he ▸ h.lt_of_covers hbase he' hx'
    exact absurd hx.1 (Nat.not_le.2 hlt)

theorem size (h : Stacked [] low entries next) : next = low + (entries.map Entry.size).sum := by
  induction h with
  | base => rfl
  | cons e _ _ ih => rw [List.map_cons, List.sum_cons, ih, Nat.add_assoc, Nat.add_comm e.size]

theorem release {first cells : Nat} (h : Stacked base low (.scratch first cells :: entries) next) :
    Stacked base low entries (next - cells) := by
  generalize hs : Entry.scratch first cells :: entries = es at h
  cases h with
  | base => cases base <;> cases hs
  | cons e h he =>
    cases hs
    rwa [Entry.size, Nat.add_sub_cancel]

end Stacked

/-! ### All scopes -/

/-- The first cell behind the variables. -/
def Ledger.bound (globals : List Variable) : Nat := (globals.map Variable.stop).foldl max 0

/-- In each scope the entries are stacked, over the globals in the outermost one and from its first cell
on in the others, which is not left of what is taken in the scope around it. -/
inductive Ledger.Sound (globals : List Variable) : Ledger → Prop where
  | outermost {scope : Scope} {here : List Entry} (hvars : scope.vars = here.filterMap Entry.var?)
      (hstack : Stacked globals.reverse (bound globals) here scope.next) : Sound globals ⟨⟨scope, []⟩, here, []⟩
  | inner {scope : Scope} {here : List Entry} {l : Ledger} (h : Sound globals l)
      (hstart : l.scopes.offset ≤ scope.start) (hvars : scope.vars = here.filterMap Entry.var?)
      (hstack : Stacked [] scope.start here scope.next) :
      Sound globals ⟨⟨scope, l.scopes.inner :: l.scopes.outer⟩, here, (l.scopes, l.here) :: l.around⟩

namespace Ledger

theorem le_foldl_max {cells : List Nat} {m : Nat} (h : x ∈ cells ∨ x ≤ m) : x ≤ cells.foldl max m := by
  induction cells generalizing m with
  | nil => exact h.resolve_left (List.not_mem_nil)
  | cons y cells ih =>
    refine ih ?_
    rcases h with h | h
    · rcases List.mem_cons.1 h with rfl | h
      · exact .inr (Nat.le_max_right _ _)
      · exact .inl h
    · exact .inr (Nat.le_trans h (Nat.le_max_left _ _))

theorem stop_le_bound {v : Variable} (hv : v ∈ globals.reverse) : v.stop ≤ bound globals :=
  le_foldl_max (.inl (List.mem_map_of_mem (List.mem_reverse.1 hv)))

theorem sound_ofGlobals : Sound globals (.ofGlobals globals) := by
  refine .outermost ?_ .base
  rw [List.filterMap_map, show Entry.var? ∘ Entry.var = some from rfl, List.filterMap_some]

namespace Sound

/-- Something changes in the innermost scope. -/
theorem change (h : Sound globals l) {scope : Scope} {here : List Entry} (hstart : scope.start = l.scopes.inner.start)
    (hvars : scope.vars = here.filterMap Entry.var?)
    (hstack : ∀ base low, Stacked base low l.here l.scopes.offset → Stacked base low here scope.next) :
    Sound globals { l with scopes := { l.scopes with inner := scope }, here } := by
  cases h with
  | outermost _ hs => exact .outermost hvars (hstack _ _ hs)
  | inner h hstart' _ hs => exact .inner h (hstart ▸ hstart') hvars (hstart ▸ hstack _ _ hs)

theorem vars (h : Sound globals l) : l.scopes.inner.vars = l.here.filterMap Entry.var? := by
  cases h <;> assumption

theorem exit (h : Sound globals l) : l.scopes.exit =
    match l.around with
    | [] => (0, l.scopes)
    | (scopes, _) :: _ => ((l.here.map Entry.size).sum, scopes) := by
  cases h with
  | outermost => rfl
  | @inner scope here l h hstart hvars hstack =>
    have hclaimed : scope.claimed = (here.map Entry.size).sum := by
      rw [Scope.claimed, hstack.size, Nat.add_sub_cancel_left]
    exact congrArg (·, l.scopes) hclaimed

/-- An operation keeps the ledger sound. -/
theorem after (h : Sound globals l) (ha : l.after a = some l') : Sound globals l' := by
  cases a with
  | enter =>
    cases ha
    exact .inner h (Nat.le_refl _) rfl .base
  | enterAt start =>
    obtain ⟨hstart, ha⟩ := Option.ite_none_right_eq_some.1 ha
    cases ha
    exact .inner h hstart rfl .base
  | declare name shape position =>
    rw [Ledger.after, Scopes.declare] at ha
    split at ha
    next v scopes hv =>
      split at hv
      · cases hv
      · cases hv
        cases ha
        exact h.change rfl (by rw [h.vars]; rfl) fun _ _ hs => .cons (.var ⟨name, shape, l.scopes.offset⟩) hs rfl
    · cases ha
      exact h
  | reserve cells =>
    cases ha
    exact h.change rfl h.vars fun _ _ hs => .cons (.scratch l.scopes.offset cells) hs rfl
  | release cells =>
    rw [Ledger.after] at ha
    split at ha
    next first reserved here hhere =>
      obtain ⟨rfl, ha⟩ := Option.ite_none_right_eq_some.1 ha
      cases ha
      refine h.change rfl (h.vars.trans (by rw [hhere]; rfl)) fun _ _ hs => Stacked.release (hhere ▸ hs)
    · cases ha
  | exit =>
    rw [Ledger.after, h.exit] at ha
    cases h with
    | outermost hvars hstack =>
      cases ha
      exact .outermost hvars hstack
    | inner h =>
      cases ha
      exact h

theorem run (h : Sound globals l) (hrun : l.run actions = some l') : Sound globals l' := by
  induction actions generalizing l with
  | nil =>
    cases hrun
    exact h
  | cons a actions ih =>
    obtain ⟨l₁, ha, hrun⟩ := Option.bind_eq_some_iff.1 (List.foldlM_cons.symm.trans hrun)
    exact ih (h.after ha) hrun

theorem lt_offset (h : Sound globals l) (he : e ∈ l.entries) (hx : e.Covers x) : x < l.scopes.offset := by
  induction h with
  | outermost hvars hstack =>
    rw [Ledger.entries, List.flatMap_nil, List.append_nil] at he
    exact hstack.lt_of_covers (fun v => stop_le_bound) he hx
  | inner h hstart hvars hstack ih =>
    rcases List.mem_append.1 he with he | he
    · exact hstack.lt_of_covers (fun v hv => nomatch hv) he hx
    · exact Nat.lt_of_lt_of_le (ih he) (Nat.le_trans hstart hstack.le)

theorem apart (h : Sound globals l) (hapart : (globals.map Entry.var).Pairwise Entry.Apart) :
    l.entries.Pairwise Entry.Apart := by
  induction h with
  | outermost hvars hstack =>
    rw [Ledger.entries, List.flatMap_nil, List.append_nil]
    refine hstack.pairwise (fun v => stop_le_bound) ?_
    rw [List.map_reverse, List.pairwise_reverse]
    exact hapart.imp fun h x hx hx' => h x hx' hx
  | @inner scope here l h hstart hvars hstack ih =>
    refine List.pairwise_append.2 ⟨hstack.pairwise (fun v hv => nomatch hv) .nil, ih, fun e he e' he' x hx hx' => ?_⟩
    rcases hstack.covered he hx with h₀ | hle
    · cases h₀
    · have := h.lt_offset he' hx'
      omega

theorem find? (h : Sound globals l) (name : String) :
    l.scopes.find? name = (l.entries.filterMap Entry.var?).find? (·.name == name) := by
  induction h with
  | @outermost scope here hvars hstack =>
    rw [Ledger.entries, List.flatMap_nil, List.append_nil, ← hvars, Scopes.find?, List.findSome?_singleton]
    rfl
  | @inner scope here l h hstart hvars hstack ih =>
    change (scope :: _).findSome? _ = ((here ++ l.entries).filterMap _).find? _
    rw [List.findSome?_cons, List.filterMap_append, List.find?_append, ← ih, ← hvars]
    change _ = (scope.find? name).or (l.scopes.find? name)
    cases scope.find? name <;> rfl

theorem isSome_find?_inner (h : Sound globals l) {name : String} :
    (l.scopes.inner.find? name).isSome ↔ ∃ v, .var v ∈ l.here ∧ v.name = name := by
  rw [Scope.find?, h.vars, List.find?_isSome]
  constructor
  · rintro ⟨v, hv, hname⟩
    obtain ⟨e, he, hv⟩ := List.mem_filterMap.1 hv
    cases e with
    | var u =>
      cases hv
      exact ⟨_, he, beq_iff_eq.1 hname⟩
    | scratch => cases hv
  · rintro ⟨v, hv, rfl⟩
    exact ⟨v, List.mem_filterMap.2 ⟨_, hv, rfl⟩, beq_self_eq_true _⟩

theorem consistent (h : Sound globals l) (hapart : (globals.map Entry.var).Pairwise Entry.Apart) :
    l.Consistent where
  apart := h.apart hapart
  below _ he _ hx := h.lt_offset he hx
  lookup name position := by
    rw [← h.find?]
    rfl
  declared name shape position hnew := by
    rw [Scopes.declare, if_neg]
    · exact ⟨_, rfl⟩
    · rw [h.isSome_find?_inner]
      rintro ⟨v, hv, hname⟩
      exact hnew v hv hname
  redeclared name shape position hv := by
    have hdeclare : l.scopes.declare name shape position = .error (.semantic position (.variableRedefined name)) :=
      if_pos (h.isSome_find?_inner.2 hv)
    exact ⟨hdeclare, by rw [Ledger.after, hdeclare]⟩
  exit := h.exit

end Sound

/-- In a run of any operations that starts without variables, or with globals that have cells of their
own, the scopes do what the ledger says. -/
theorem run_consistent {start : Ledger} (hstart : start = empty ∨
    ∃ globals : List Variable, (globals.map Entry.var).Pairwise Entry.Apart ∧ start = ofGlobals globals)
    (hrun : start.run actions = some l) : l.Consistent := by
  obtain rfl | ⟨globals, hapart, rfl⟩ := hstart
  · exact ((@sound_ofGlobals []).run hrun).consistent .nil
  · exact (sound_ofGlobals.run hrun).consistent hapart

/-- Globals with a gap between them; in a scope that leaves another gap a name is declared anew, then
once more in vain; cells are reserved and given back in between. -/
theorem run_consistent_of_shadowing : ∃ l : Ledger,
    (ofGlobals [⟨"a", ⟨.int, [2]⟩, 0⟩, ⟨"b", .cell, 5⟩]).run
      [.declare "c" .cell ⟨1, 1⟩, .reserve 3, .enterAt 12, .declare "a" .cell ⟨2, 1⟩, .declare "d" ⟨.int, [0]⟩ ⟨3, 1⟩,
        .declare "a" .cell ⟨4, 1⟩, .enter, .reserve 2, .release 2, .exit] = some l ∧
      l.scopes.offset = 13 ∧ l.entries.length = 6 ∧ l.Consistent := by
  have hapart : ([⟨"a", ⟨.int, [2]⟩, 0⟩, ⟨"b", .cell, 5⟩].map Entry.var).Pairwise Entry.Apart := by
    refine .cons (fun e he x hx hx' => ?_) (.cons (fun e he => nomatch he) .nil)
    obtain rfl := List.mem_singleton.1 he
    have hx : x < 2 := hx.2
    have hx' : 5 ≤ x := hx'.1
    omega
  refine .imp (fun l hl => ⟨hl.1, hl.2.1, hl.2.2, run_consistent (.inr ⟨_, hapart, rfl⟩) hl.1⟩)
    (show ∃ l : Ledger, Ledger.run _ _ = some l ∧ l.scopes.offset = 13 ∧ l.entries.length = 6 from ⟨_, rfl, rfl, rfl⟩)

end Ledger
end TapeC.Layout
