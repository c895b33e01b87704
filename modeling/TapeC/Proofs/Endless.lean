import TapeC.Proofs.Course
import TapeC.Proofs.Loading

/-! Programs that never end. One hangs where the machine makes the same step forever; another goes on
because each round of a loop leads to a next one. What they have written is known at every step, and the
loaded program, which is never ahead of the text, uses up every budget. -/

namespace TapeC.Tape

open Config Code

namespace TextMachine

variable {cs : List Char} {u v : State} {H : Int → Prop} {n : Nat} {a b body : Code} {s t : Config} {bytes : List Cell}

/-! ### What has been written -/

theorem output_of_step (h : step cs u = some v) : u.output <+: v.output := by
  obtain ⟨c, -, rfl⟩ := Option.map_eq_some_iff.1 h
  unfold State.act
  split
  any_goals first | exact List.prefix_refl _ | exact List.prefix_append _ _
  all_goals split <;> exact List.prefix_refl _

theorem output_of_run (h : run cs n u = some v) : u.output <+: v.output := by
  induction n generalizing u with
  | zero =>
    cases h
    exact List.prefix_refl _
  | succ n ih =>
    obtain ⟨w, hw, hn⟩ := Option.bind_eq_some_iff.1 h
    exact (output_of_step hw).trans (ih hn)

/-- The text never ends, keeps the head in `H`, and writes what is in `bytes` and no more. -/
def WritesForever (cs : List Char) (H : Int → Prop) (bytes : List Cell) (u : State) (n : Nat) : Prop :=
  ∀ k, ∃ v, run cs k u = some v ∧ H v.head ∧ v.output <+: bytes ∧ (n ≤ k → v.output = bytes)

theorem WritesForever.mono {H' : Int → Prop} (h : WritesForever cs H bytes u n) (hH : ∀ x, H x → H' x) :
    WritesForever cs H' bytes u n := fun k => by
  obtain ⟨v, hv, hvH, hrest⟩ := h k
  exact ⟨v, hv, hH _ hvH, hrest⟩

/-! ### Programs that hang -/

theorem Hangs.writesForever (h : Hangs H b s t) (hb : b.charsThen [] = cs) (hu0 : u.place = 0) (hu : u.Shows s) :
    ∃ n, WritesForever cs H t.output u n := by
  obtain ⟨n, v, hv, hstay, hH, hvt⟩ := h cs u (by rw [hu0, hb]; exact List.prefix_refl _) hu
  have hrun (k) : run cs (n + k) u = some v := by
    induction k with
    | zero => exact hv.run
    | succ k ih => rw [← Nat.add_assoc, run_add, ih, Option.bind_some, run_one, hstay]
  refine ⟨n, fun k => ?_⟩
  rcases Nat.lt_or_ge k n with hlt | hge
  · -- on the way
    obtain ⟨m, rfl⟩ := Nat.exists_eq_add_of_lt hlt
    have hend := hv.run
    rw [Nat.add_assoc, run_add] at hend
    obtain ⟨w, hw, hend⟩ := Option.bind_eq_some_iff.1 hend
    exact ⟨w, hw, hv.through k hlt w hw, hvt.output ▸ output_of_run hend, fun hle => absurd hle (by omega)⟩
  · obtain ⟨m, rfl⟩ := Nat.exists_eq_add_of_le hge
    exact ⟨v, hrun m, hH, hvt.output ▸ List.prefix_refl _, fun _ => hvt.output⟩

/-! ### Programs that go on -/

/-- Wherever the text of the program stands, from the tape of `s` it takes more steps than any number,
with the head in `H`, and writes nothing. -/
def Endless (H : Int → Prop) (b : Code) (s : Config) : Prop :=
  ∀ (cs : List Char) (u : State), b.charsThen [] <+: cs.drop u.place → u.Shows s →
    ∀ k, ∃ n v, k ≤ n ∧ Way cs (fun w => H w.head) n u v ∧ v.output = s.output

theorem Endless.append (h : Endless H a s) : Endless H (a ++ b) s := by
  intro cs u hcs
  rw [show (a ++ b).charsThen [] = _ from charsThen_eq a _] at hcs
  exact h cs u (Block.prefix_of_append_prefix hcs).1

theorem Takes.endless (ha : Takes H a s t) (ht : t.output = s.output) (hb : Endless H b t) : Endless H (a ++ b) s := by
  intro cs u hcs hu k
  rw [show (a ++ b).charsThen [] = _ from charsThen_eq a _] at hcs
  obtain ⟨hacs, hbcs⟩ := Block.prefix_of_append_prefix hcs
  obtain ⟨n, v, hv, hplace, hvt⟩ := ha cs u hacs hu
  obtain ⟨m, w, hkm, hw, hout⟩ := hb cs v (hplace ▸ hbcs) hvt k
  exact ⟨n + m, w, Nat.le_add_left_of_le hkm, hv.trans hw, hout.trans ht⟩

/-- A loop in which each round leads to a next one. -/
theorem endless_loop {I : Config → Prop}
    (hI : ∀ s, I s → s.cell ≠ 0 ∧ H s.head ∧ ∃ t, Takes H body s t ∧ t.output = s.output ∧ I t) (hs : I s) :
    Endless H (loop body) s := by
  -- at either bracket the loop goes on for as long as asked
  have hrounds (cs : List Char) (p : Nat) (hcs : (loop body).charsThen [] <+: cs.drop p) (k : Nat) :
      ∀ s u, I s → (u.place = p ∨ u.place = p + 1 + (body.charsThen []).length) → u.Shows s →
        ∃ n v, k ≤ n ∧ Way cs (fun w => H w.head) n u v ∧ v.output = s.output := by
    induction k with
    | zero => exact fun s u _ _ hu => ⟨0, u, Nat.le_refl 0, .refl, hu.output⟩
    | succ k ih =>
      intro s u hs hplace hu
      obtain ⟨hne, hhead, t, hbody, ht, hIt⟩ := hI s hs
      have hstep := step_test hcs hplace
      rw [if_neg (hu.cell ▸ hne)] at hstep
      obtain ⟨n, v, hv, hvplace, hvt⟩ := hbody cs (u.goto (p + 1)) (prefix_of_loop hcs).2.1 hu.goto
      obtain ⟨m, w, hkm, hw, hout⟩ := ih t v hIt (.inr hvplace) hvt
      have hround : Way cs (fun w => H w.head) (1 + n) u v := Way.trans (.step (hu.head ▸ hhead) hstep) hv
      exact ⟨1 + n + m, w, by omega, hround.trans hw, hout.trans ht⟩
  exact fun cs u hcs hu k => hrounds cs u.place hcs k s u hs (.inl rfl) hu

theorem Endless.writesForever (h : Endless H b s) (hb : b.charsThen [] = cs) (hu0 : u.place = 0) (hu : u.Shows s) :
    WritesForever cs H u.output u 0 := by
  intro k
  obtain ⟨n, v, hkn, hv, hout⟩ := h cs u (by rw [hu0, hb]; exact List.prefix_refl _) hu (k + 1)
  -- the state after `k` steps is on the way
  obtain ⟨m, rfl⟩ := Nat.exists_eq_add_of_le (Nat.le_of_succ_le hkn)
  have hend := hv.run
  rw [run_add] at hend
  obtain ⟨w, hw, hend⟩ := Option.bind_eq_some_iff.1 hend
  have hwout : w.output = u.output := by
    refine (output_of_run hw).eq_of_length_le ?_ |>.symm
    rw [hu.output, ← hout]
    exact (output_of_run hend).length_le
  exact ⟨w, hw, hv.through k (by omega) w hw, hwout ▸ List.prefix_refl _, fun _ => hwout⟩

/-! ### The loaded program -/

theorem Matches.pc_lt {m : Machine} {s : Tape.State} (h : Matches cs m.code u s) (hu : RunsForever cs u) :
    s.pc < m.size := by
  by_contra hpc
  obtain ⟨n, v, hway, hstop, -⟩ := h.end (Nat.le_of_not_lt hpc)
  exact hu.not_halts ⟨⟨n, hway.run⟩, hstop⟩

/-- As long as the text goes on, so does the loaded program, which is never ahead of it. -/
theorem Matches.steps {m : Machine} {s : Tape.State} (h : Matches cs m.code u s) (hu : RunsForever cs u)
    (hhead : ∀ v, Reaches cs u v → 0 ≤ v.head) (k : Nat) :
    ∃ n v t, k ≤ n ∧ run cs n u = some v ∧ m.Steps k s t ∧ Matches cs m.code v t := by
  induction k with
  | zero => exact ⟨0, u, s, Nat.le_refl 0, rfl, .refl s, h⟩
  | succ k ih =>
    obtain ⟨n, v, t, hkn, hv, hsteps, hvt⟩ := ih
    have hpc : t.pc < m.code.size := hvt.pc_lt (hu.of_run hv)
    cases hvt.step (Array.getElem?_eq_getElem hpc) with
    | @done n' v' t' hway hstep ht' _ _ =>
      have hone : m.Steps 1 t t' := .step (Array.getElem?_eq_getElem hpc) hstep (.refl t')
      refine ⟨n + (n' + 1), v', t', by omega, ?_, hsteps.trans hone, ht'⟩
      rw [run_add, hv, Option.bind_some, hway.run]
    | left hway _ _ hneg => exact absurd (hhead _ (Reaches.of_run hv ⟨_, hway.run⟩)) (Int.not_le.2 hneg)

/-- Every budget is used up, and what has been written by then is what the text has written. -/
theorem WritesForever.runFrom {m : Machine} {s : Tape.State} (hw : WritesForever cs H bytes u n)
    (hH : ∀ x, H x → 0 ≤ x) (h : Matches cs m.code u s) (limit budget : Nat) :
    ∃ output, m.runFrom limit budget s = .error (.exhausted limit output) ∧ output <+: bytes ∧
      (n ≤ budget → output = bytes) := by
  have hu : RunsForever cs u := fun k hk => by
    obtain ⟨v, hv, -⟩ := hw k
    cases hk.symm.trans hv
  have hhead (v) : Reaches cs u v → 0 ≤ v.head := by
    rintro ⟨k, hk⟩
    obtain ⟨w, hw, hwH, -⟩ := hw k
    obtain rfl := Option.some.inj (hk.symm.trans hw)
    exact hH _ hwH
  obtain ⟨k, v, t, hle, hv, hsteps, hvt⟩ := h.steps hu hhead budget
  obtain ⟨w, hw, -, hprefix, hall⟩ := hw k
  obtain rfl := Option.some.inj (hv.symm.trans hw)
  have hend : m.runFrom limit (budget + 0) s = .error (.exhausted limit t.output.toList) :=
    hsteps.runFrom.trans (if_pos (hvt.pc_lt (hu.of_run hv)))
  refine ⟨v.output, ?_, hprefix, fun hn => hall (Nat.le_trans hn hle)⟩
  rw [hvt.shows.output]
  exact hend

end TextMachine
end TapeC.Tape

namespace TapeC.Routine

open Tape Code Config TextMachine

variable {c : Code} {bytes : List Cell} {u : TextMachine.State} {n : Nat} {s t : Config}

/-- The text of the program, executed one character at a time from `u`, writes the bytes and no others
and never ends, and the head never is left of where it starts; loaded as a program for the machine it
does so for every budget, from every state with the same tape. -/
def ReportsForever (c : Code) (bytes : List Cell) (u : TextMachine.State) : Prop :=
  ∃ n, WritesForever c.listing.chars (u.head ≤ ·) (u.output ++ bytes) u n ∧
    ∃ m, Machine.ofString c.text = .ok m ∧
      ∀ s : Tape.State, s.Sound s.lowest → s.pc = 0 → u.Shows s.config → ∀ limit budget,
        ∃ output, m.runFrom limit budget s = .error (.exhausted limit output) ∧
          output <+: u.output ++ bytes ∧ (n ≤ budget → output = u.output ++ bytes)

theorem reportsForever_of_writesForever (hu0 : u.place = 0)
    (hn : WritesForever c.listing.chars (u.head ≤ ·) (u.output ++ bytes) u n) (hu : 0 ≤ u.head) :
    ReportsForever c bytes u := by
  obtain ⟨b, hb, hlists⟩ := Block.ofChars_of_balanced c.balanced
  refine ⟨n, hn, ⟨b.emit #[]⟩, ?_, fun r hr hpc hur limit budget => ?_⟩
  · rw [Code.text, Listing.text, Machine.ofString_ofList, Machine.ofChars,
      show Block.ofChars c.listing.chars = .ok b from hb]
  · exact hn.runFrom (m := ⟨b.emit #[]⟩) (fun x hx => Int.le_trans hu hx) (matches_start hlists hu0 hpc hr hur)
      limit budget

theorem reportsForever_of_hangs (hu0 : u.place = 0) (hu : u.Shows s) (h : Hangs (Among s.head n) c s t)
    (ht : t.output = s.output ++ bytes) : ReportsForever c bytes u := by
  obtain ⟨k, hk⟩ := h.writesForever rfl hu0 hu
  rw [ht, ← hu.output] at hk
  exact reportsForever_of_writesForever hu0 (hk.mono fun x hx => hu.head ▸ hx.1) (hu.head ▸ Int.natCast_nonneg _)

theorem reportsForever_of_endless (hu0 : u.place = 0) (hu : u.Shows s) (h : Endless (Among s.head n) c s) :
    ReportsForever c [] u := by
  have hwrites : WritesForever c.listing.chars (u.head ≤ ·) u.output u 0 :=
    (h.writesForever rfl hu0 hu).mono fun x hx => hu.head ▸ hx.1
  rw [← List.append_nil u.output] at hwrites
  exact reportsForever_of_writesForever hu0 hwrites (hu.head ▸ Int.natCast_nonneg _)

end TapeC.Routine
