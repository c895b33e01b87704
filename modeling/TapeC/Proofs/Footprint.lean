import TapeC.Proofs.Loading
import TapeC.Proofs.Transfer

/-! What the programs that carry the content of a cell over a distance leave behind on the machine.
From every state they come to an end, and of all cells they change none but the two at both ends of
the distance and the scratch cell right of the head. -/

namespace TapeC.Routine

open Tape Code Config

/-- Where a program leaves the head, and what it leaves in the cells that it names. -/
structure Footprint where
  head : Nat
  cells : List (Nat × Cell)

/-- From `s` to `t` no cell has changed but those that are named. -/
structure Footprint.Left (f : Footprint) (s t : Config) : Prop where
  head : t.head = f.head
  named : ∀ x v, (x, v) ∈ f.cells → t.cells x = v
  others : ∀ x, (∀ v, (x, v) ∉ f.cells) → t.cells x = s.cells x
  input : t.input = s.input
  output : t.output = s.output

/-- Loaded as a text, the program ends from every state of the machine with the head on `p`, whatever
the tape holds, and leaves the footprint that is told from the cells as they are at the beginning. -/
def Imprints (c : Code) (p : Nat) (f : (Nat → Cell) → Footprint) : Prop :=
  ∃ m, Machine.ofString c.text = .ok m ∧ ∀ s : State, s.pc = 0 → s.head = p → p < s.tape.size →
    ∃ n, ∀ limit budget, n ≤ budget →
      ∃ t, m.runFrom limit budget s = .ok t ∧ (f s.config.cells).Left s.config t.config

variable {s : Config} {c : Code} {p n x : Nat} {v : Cell} {entries : List (Nat × Cell)}

/-! ### Footprints of stores -/

/-- Values put into cells, one after another. -/
def putAll (s : Config) (entries : List (Nat × Cell)) : Config := entries.foldl (fun s e => s.put e.1 e.2) s

theorem cells_putAll_of_not_mem (h : ∀ v, (x, v) ∉ entries) : (putAll s entries).cells x = s.cells x := by
  induction entries generalizing s with
  | nil => rfl
  | cons e entries ih =>
    have hne : x ≠ e.1 := fun hx => h e.2 (hx ▸ List.mem_cons_self)
    exact (ih fun v hv => h v (List.mem_cons_of_mem e hv)).trans (cells_put_of_ne hne)

theorem cells_putAll_of_mem (hnodup : (entries.map Prod.fst).Nodup) (h : (x, v) ∈ entries) :
    (putAll s entries).cells x = v := by
  induction entries generalizing s with
  | nil => cases h
  | cons e entries ih =>
    obtain ⟨hfirst, hnodup⟩ := List.nodup_cons.1 hnodup
    obtain rfl | h := List.mem_cons.1 h
    · have hlast : ∀ w, (x, w) ∉ entries := fun w hw => hfirst (List.mem_map.2 ⟨(x, w), hw, rfl⟩)
      exact (cells_putAll_of_not_mem hlast).trans cells_put_self
    · exact ih hnodup h

theorem putAll_frame : (putAll s entries).input = s.input ∧ (putAll s entries).output = s.output := by
  induction entries generalizing s with
  | nil => exact ⟨rfl, rfl⟩
  | cons e entries ih => exact ih

theorem Footprint.left_putAll {f : Footprint} (h : (f.cells.map Prod.fst).Nodup) :
    f.Left s ((putAll s f.cells).goto f.head) where
  head := rfl
  named _ _ hx := cells_putAll_of_mem h hx
  others _ hx := cells_putAll_of_not_mem hx
  input := putAll_frame.1
  output := putAll_frame.2

/-! ### Footprints of programs -/

theorem imprints_of_runs {f : (Nat → Cell) → Footprint} (hnodup : ∀ cells, ((f cells).cells.map Prod.fst).Nodup)
    (h : ∀ s : Config, s.head = p → Runs 0 c s ((putAll s (f s.cells).cells).goto (f s.cells).head)) :
    Imprints c p f := by
  obtain ⟨m, hm, hexecutes⟩ := Machine.ofString_text c
  refine ⟨m, hm, fun s hpc hhead hsize => ?_⟩
  have hrun := h s.config hhead
  -- the same run after the head has been on the first cell
  have hs : State.Sound 0 { s with lowest := 0 } := ⟨by rwa [← hhead] at hsize, rfl, Nat.zero_le _⟩
  obtain ⟨hends, -⟩ := hexecutes 0 _ hs hpc fun e he => nomatch he.unique hrun
  obtain ⟨n, t, ht, -, hend, -⟩ := hends _ hrun
  refine ⟨n, fun limit budget hn => ?_⟩
  obtain ⟨k, hk⟩ := Machine.runFrom_lowest (hend limit budget hn) s.lowest
  refine ⟨_, hk, ?_⟩
  rw [show State.config { t with lowest := k } = t.config from rfl, ht]
  exact Footprint.left_putAll (hnodup _)

/-- Copies, moves and updates over a distance `n` from the cell `p`, on every tape: they end with the
head on `p` or right of it, and change only the cells that are named here. -/
theorem carriers_imprint (hn : 0 < n) (hp : n ≤ p) :
    Imprints (copyFrom n) p (fun cells => ⟨p + 1, [(p, cells (p - n)), (p + 1, 0)]⟩) ∧
    Imprints (copyTo n) p (fun cells => ⟨p, [(p - n, cells p), (p + 1, 0)]⟩) ∧
    Imprints (moveTo n) p (fun cells => ⟨p, [(p - n, cells p), (p, 0)]⟩) ∧
    ∀ change : Change,
      Imprints (updateThenRead change n) p (fun cells => ⟨p + 1, [(p - n, change.apply (cells (p - n))),
        (p, change.apply (cells (p - n))), (p + 1, change.scratch (cells (p + 1)))]⟩) ∧
      Imprints (readThenUpdate change n) p (fun cells => ⟨p + 1, [(p - n, change.apply (cells (p - n))),
        (p, cells (p - n)), (p + 1, change.scratch (cells (p + 1)))]⟩) := by
  refine ⟨?_, ?_, ?_, fun change => ⟨?_, ?_⟩⟩
  · refine imprints_of_runs (fun cells => by simp) fun s hs => ?_
    subst hs
    exact (runs_copyFrom hn (by omega)).2 rfl
  · refine imprints_of_runs (fun cells => by simp; omega) fun s hs => ?_
    subst hs
    exact (runs_copyTo hn (by omega)).2 rfl
  · refine imprints_of_runs (fun cells => by simp; omega) fun s hs => ?_
    subst hs
    exact (runs_moveTo hn (by omega)).2 rfl
  · refine imprints_of_runs (fun cells => by simp; omega) fun s hs => ?_
    subst hs
    exact (runs_updateThenRead hn (by omega)).2 rfl
  · refine imprints_of_runs (fun cells => by simp; omega) fun s hs => ?_
    subst hs
    exact (runs_readThenUpdate hn (by omega)).2 rfl

/-- The old value of a cell that goes round from zero, on a tape on which all cells are used. -/
theorem carriers_imprint_decrement : 0 < 2 ∧ 2 ≤ 3 ∧
    let s : State := { head := 3, lowest := 1, tape := #[5, 0, 7, 8, 9], input := [] }
    ∃ m n, Machine.ofString (readThenUpdate .decrement 2).text = .ok m ∧ ∀ limit budget, n ≤ budget →
      ∃ t, m.runFrom limit budget s = .ok t ∧ t.head = 4 ∧
        (List.range 6).map (fun x => t.tape.getD x 0) = [5, 255, 7, 0, 0, 0] := by
  refine ⟨by decide, by decide, ?_⟩
  intro s
  obtain ⟨m, hm, hruns⟩ := ((carriers_imprint (n := 2) (p := 3) (by decide) (by decide)).2.2.2 .decrement).2
  obtain ⟨n, hends⟩ := hruns s rfl rfl (by decide)
  refine ⟨m, n, hm, fun limit budget hn => ?_⟩
  obtain ⟨t, ht, hleft⟩ := hends limit budget hn
  refine ⟨t, ht, hleft.head, ?_⟩
  change [0, 1, 2, 3, 4, 5].map t.config.cells = _
  have hupdated : t.config.cells 1 = 255 := hleft.named 1 255 (by decide)
  have hread : t.config.cells 3 = 0 := hleft.named 3 0 (by decide)
  have hscratch : t.config.cells 4 = 0 := hleft.named 4 0 (by decide)
  have hother : ∀ x ∈ [0, 2, 5], t.config.cells x = s.config.cells x := fun x hx => hleft.others x (by
    rintro v hv
    simp at hx hv
    omega)
  simp only [List.map_cons, List.map_nil, hupdated, hread, hscratch, hother 0 (by decide), hother 2 (by decide),
    hother 5 (by decide)]
  rfl

end TapeC.Routine
