import TapeC.Proofs.Course
import TapeC.Proofs.Loading

/-! Programs that end and work on a few cells from the head on. Their text, executed one character at a
time on any tape, keeps the head there until it ends, and what is on other cells does not matter and
stays as it is. The loaded program comes to the same end. -/

namespace TapeC.Tape

open Config Code

namespace Code

variable {floor floor' : Nat} {c : Code} {s t : Config}

/-- A program that stays right of a cell also stays right of those before it. -/
theorem Runs.mono (h : Runs floor c s t) (hf : floor' ≤ floor) : Runs floor' c s t := by
  induction c generalizing s t with
  | skip | right | inc | dec | write | read | note | within | vacant => exact h
  | left n =>
    by_cases hle : floor + n ≤ s.head
    · exact (runs_left (by omega)).2 ((runs_left hle).1 h)
    · rw [Runs, exec, if_neg hle] at h
      cases Comp.wrong_ends.1 h
  | loop body ih =>
    refine Comp.loop_ends_induction (motive := fun s r => ∀ t, r = .ok t → Runs floor' (loop body) s t)
      ?stop ?fault ?round h t rfl
    case stop =>
      rintro s h0 _ ⟨⟩
      exact (runs_loop_of_zero (by simpa using h0)).2 rfl
    case fault =>
      rintro s e - - t ⟨⟩
    case round =>
      rintro s s' r hne hb - ih' t rfl
      exact .round (by simpa using hne) (ih hb) (ih' t rfl)
  | seq a b iha ihb =>
    obtain ⟨u, ha, hb⟩ := runs_append.1 h
    exact (iha ha).append (ihb hb)

end Code

namespace TextMachine

variable {cs : List Char} {u v w : State} {n i j : Nat} {y : Int} {b : Code} {s t : Config}

/-! ### The text -/

theorem cells_of_step (h : step cs u = some v) (hy : u.head ≠ y) : v.cells y = u.cells y := by
  obtain ⟨c, -, rfl⟩ := Option.map_eq_some_iff.1 h
  have hstore (place : Nat) (z : Cell) : ((u.goto place).store z).cells y = u.cells y :=
    Function.update_of_ne hy.symm ..
  unfold State.act
  split
  any_goals first | rfl | exact hstore _ _
  all_goals split <;> rfl

/-- A cell on which the head does not stand stays as it is. -/
theorem cells_of_run (h : run cs n u = some v) (hy : ∀ w, Reaches cs u w → w.head ≠ y) : v.cells y = u.cells y := by
  induction n generalizing u with
  | zero =>
    cases h
    rfl
  | succ n ih =>
    obtain ⟨w, hw, hn⟩ := Option.bind_eq_some_iff.1 h
    have hreach : run cs 1 u = some w := by rw [run_one, hw]
    rw [ih hn fun z hz => hy z (hz.of_run hreach), cells_of_step hw (hy u ⟨0, rfl⟩)]

/-- The text ends in `v`. Until then the head stands only on the `n` cells from where it starts on, and
all other cells stay as they are. -/
structure EndsAmong (cs : List Char) (n : Nat) (u v : State) : Prop where
  halts : Halts cs u v
  visited : ∀ w, Reaches cs u w → u.head ≤ w.head ∧ w.head < u.head + n
  others : ∀ y, y < u.head ∨ u.head + n ≤ y → v.cells y = u.cells y

theorem State.Shows.unique (h : u.Shows s) (h' : u.Shows t) : s = t :=
  Config.ext (Int.natCast_inj.1 (h.head.symm.trans h'.head)) (fun x => (h.cells x).symm.trans (h'.cells x))
    (h.input.symm.trans h'.input) (h.output.symm.trans h'.output)

theorem endsAmong_of_takes (hu0 : u.place = 0) (hu : u.Shows s) (ht : Among s.head n t.head)
    (h : Takes (Among s.head n) b s t) : ∃ v, EndsAmong b.listing.chars n u v ∧ v.Shows t := by
  obtain ⟨m, v, hv, hplace, hvt⟩ := h b.listing.chars u (by rw [hu0]; exact List.prefix_refl _) hu
  have hstop : step b.listing.chars v = none := by
    have hend : b.listing.chars.length ≤ v.place := by rw [hplace, hu0, Nat.zero_add]; rfl
    rw [step, List.getElem?_eq_none hend]
    rfl
  have hvisited (w) : Reaches b.listing.chars u w → u.head ≤ w.head ∧ w.head < u.head + n := by
    rintro ⟨k, hk⟩
    rw [hu.head]
    rcases Nat.lt_or_eq_of_le (le_of_stopped hv.run hstop hk) with hkm | rfl
    · exact hv.through k hkm w hk
    · obtain rfl := Option.some.inj (hk.symm.trans hv.run)
      exact hvt.head ▸ ht
  refine ⟨v, ⟨⟨⟨m, hv.run⟩, hstop⟩, hvisited, fun y hy => cells_of_run hv.run fun w hw => ?_⟩, hvt⟩
  have := hvisited w hw
  omega

end TextMachine

/-! ### The loaded program -/

namespace Machine

variable {m : Machine} {c : Code} {s : State} {t : Config} {floor : Nat}

/-- The machine runs from `s` to an end that satisfies `P`, with any budget that is large enough. -/
def RunsTo (m : Machine) (s : State) (P : State → Prop) : Prop :=
  ∃ n t, (∀ limit budget, n ≤ budget → m.runFrom limit budget s = .ok t) ∧ P t

theorem Executes.runsTo (h : m.Executes c) (hs : s.Sound s.lowest) (hpc : s.pc = 0)
    (hrun : Runs s.lowest c s.config t) : m.RunsTo s fun r => r.config = t ∧ r.lowest = s.lowest := by
  have hrealizes := h s.lowest s hs hpc fun e he => nomatch he.unique hrun
  obtain ⟨n, r, hr, hsound, hend, -⟩ := hrealizes.1 t hrun
  exact ⟨n, r, hend, hr, hsound.lowest⟩

/-- The text is loaded, and from every state with the tape of `u` the machine comes to the end `v` and
does not leave the cells where it has been on the left. -/
def ComesTo (c : Code) (u v : TextMachine.State) : Prop :=
  ∃ m, Machine.ofString c.text = .ok m ∧ ∀ s : State, s.Sound s.lowest → s.pc = 0 → u.Shows s.config →
    m.RunsTo s fun t => v.Shows t.config ∧ t.lowest = s.lowest

theorem comesTo_of_runs {u v : TextMachine.State} {r : Config} (hu : u.Shows r) (hv : v.Shows t)
    (h : Runs r.head c r t) : ComesTo c u v := by
  obtain ⟨m, hm, hexecutes⟩ := Machine.ofString_text c
  refine ⟨m, hm, fun s hs hpc hus => ?_⟩
  obtain rfl := hus.unique hu
  obtain ⟨n, w, hend, hw, hlowest⟩ := hexecutes.runsTo hs hpc (h.mono hs.head)
  exact ⟨n, w, hend, hw ▸ hv, hlowest⟩

end Machine

open TextMachine

/-- A program whose head can be followed among `n` cells ends there, from any tape, as it runs. -/
theorem endsAmong_of_stays {c : Code} {n j : Nat} {u : TextMachine.State} {s t : Config} (hn : 0 < n)
    (hstays : c.stays n 0 = some j) (hu0 : u.place = 0) (hu : u.Shows s) (h : Runs s.head c s t) :
    ∃ v, EndsAmong c.listing.chars n u v ∧ v.Shows t ∧ Machine.ComesTo c u v := by
  obtain ⟨ht, htakes⟩ := takes_of_stays hstays hn rfl h
  obtain ⟨v, hv, hvt⟩ := endsAmong_of_takes hu0 hu (among_add ht (stays_lt hstays hn)) htakes
  exact ⟨v, hv, hvt, Machine.comesTo_of_runs hu hvt h⟩

end TapeC.Tape
