import TapeC.Proofs.Listed
import TapeC.Proofs.Machine
import Mathlib.Order.Bounds.Basic
import Mathlib.Tactic.IntervalCases

/-! A loaded program does what its text does. Each operation of the machine stands for one
step or more of the machine that executes the text, so that one of them goes on as long as
the other. While a run of moves is under way the two heads may stand apart; at its end,
where the head rests, they do not. -/

namespace TapeC.Tape

open Config

namespace TextMachine

variable {cs : List Char} {c : Char} {i j k p : Nat} {b rest : Block} {d : Int} {x : Cell}
  {u v : State} {P : State → Prop} {s : Config}

/-! ### Characters -/

theorem State.move_goto_move {e : Int} :
    (((u.goto i).move d).goto k).move e = (u.goto k).move (d + e) := by
  simp only [State.move, State.goto, Int.add_assoc]

theorem State.act_of_distance? (h : distance? c = some d) : u.act cs c = (u.goto (u.place + 1)).move d := by
  unfold distance? at h
  split at h
  · cases h
    rfl
  · cases h
    rfl
  · cases h

theorem State.act_of_amount? (h : amount? c = some x) :
    u.act cs c = (u.goto (u.place + 1)).store (u.cell + x) := by
  unfold amount? at h
  split at h
  · cases h
    rfl
  · cases h
    rfl
  · cases h

theorem State.act_comment (h : isInstruction c = false) : u.act cs c = u.goto (u.place + 1) := by
  unfold State.act
  split <;> first | rfl | cases h

theorem act_open (h : closing cs k = p) :
    (u.goto k).act cs '[' = u.goto (if u.cell = 0 then p + 1 else k + 1) := by
  subst h
  change (if u.cell = 0 then _ else _) = _
  split <;> rfl

theorem act_close (h : opening cs k = p) :
    (u.goto k).act cs ']' = u.goto (if u.cell = 0 then k + 1 else p + 1) := by
  subst h
  change (if u.cell = 0 then _ else _) = _
  split <;> rfl

theorem step_eq (hc : cs[u.place]? = some c) : step cs u = some (u.act cs c) := by
  rw [step, hc, Option.map_some]

theorem State.store_goto_store {y : Cell} :
    (((u.goto i).store (u.cell + x)).goto k).store (((u.goto i).store (u.cell + x)).cell + y) =
      (u.goto k).store (u.cell + (x + y)) := by
  simp [State.store, State.goto, State.cell, UInt8.add_assoc]

/-- Comments are passed over. -/
theorem way_of_blank (hb : Blank cs u.place k) (hP : ∀ y, Blank cs y k → P (u.goto y)) :
    ∃ n, Way cs P n u (u.goto k) := by
  generalize hi : u.place = i at hb
  induction hb generalizing u with
  | refl =>
    subst hi
    exact ⟨0, .refl⟩
  | @cons i k c hc hcomment hb ih =>
    subst hi
    obtain ⟨n, h⟩ := ih (u := u.goto (u.place + 1)) hP rfl
    refine ⟨1 + n, Way.trans (.step (hP _ (.cons hc hcomment hb)) ?_) h⟩
    rw [step_eq hc, State.act_comment hcomment]

theorem way_of_char (hb : Blank cs u.place k) (hc : cs[k]? = some c)
    (hP : ∀ y, Blank cs y k → P (u.goto y)) : ∃ n, Way cs P (n + 1) u ((u.goto k).act cs c) := by
  obtain ⟨n, h⟩ := way_of_blank hb hP
  exact ⟨n, h.trans (.step (hP k (.refl k)) (step_eq hc))⟩

/-- The head stays where it is on the way to a character. -/
theorem way_in_place (hb : Blank cs u.place k) (hc : cs[k]? = some c) :
    ∃ n, Way cs (fun w => w.head = u.head) (n + 1) u ((u.goto k).act cs c) :=
  way_of_char hb hc fun _ _ => rfl

/-- No move comes next to one in the other direction. -/
def Straight (cs : List Char) : Prop :=
  ∀ i k c c' d d', cs[i]? = some c → distance? c = some d → Blank cs (i + 1) k → cs[k]? = some c' →
    distance? c' = some d' → d' = d

theorem distance?_cases (h : distance? c = some d) : d = 1 ∨ d = -1 := by
  unfold distance? at h
  split at h
  · exact .inl (Option.some.inj h).symm
  · exact .inr (Option.some.inj h).symm
  · cases h

/-- A run of moves in one direction goes where its first character goes. -/
theorem move_of_straight (hs : Straight cs) (h : b.Lists cs i j) (hb : b = .move p d rest) :
    ∃ c e, Blank cs i p ∧ cs[p]? = some c ∧ distance? c = some e ∧ (0 < e ∧ 0 < d ∨ e < 0 ∧ d < 0) := by
  induction h generalizing p d rest with
  | @move i j k c d b hblank hc hd =>
    cases hb
    rcases distance?_cases hd with rfl | rfl
    · exact ⟨c, _, hblank, hc, hd, .inl (by decide)⟩
    · exact ⟨c, _, hblank, hc, hd, .inr (by decide)⟩
  | @moves i j k p c d e b hblank hc hd h ih =>
    cases hb
    obtain ⟨c', d', hblank', hc', hd', hsign⟩ := ih rfl
    obtain rfl := hs k p c c' d d' hc hd hblank' hc' hd'
    exact ⟨c, _, hblank, hc, hd, by omega⟩
  | nil | add | adds | write | read | loop => cases hb

/-- A run of moves is executed; on the way the head does not rest, and if all go in the same
direction it is between the ends. -/
theorem way_of_moves (h : b.Lists cs u.place j) (hb : b = .move p d rest) :
    ∃ n k, Way cs (fun w => ¬ Resting cs w ∧ (Straight cs → min u.head (u.head + d) ≤ w.head)) (n + 1) u
      ((u.goto k).move d) ∧ rest.Lists cs k j ∧ rest.startsWithMove = false := by
  generalize hi : u.place = i at h
  induction h generalizing u p d rest with
  | @move i j k c d b hblank hc hd h hlast ih =>
    subst hi
    cases hb
    obtain ⟨n, hn⟩ := way_of_char (P := fun w => ¬ Resting cs w ∧ (Straight cs → min u.head (u.head + d) ≤ w.head))
      hblank hc fun y hy => ⟨not_resting hy hc hd, fun _ => Int.min_le_left _ _⟩
    exact ⟨n, k + 1, by rwa [State.act_of_distance? hd] at hn, h, hlast⟩
  | @moves i j k p c d e b hblank hc hd h ih =>
    subst hi
    cases hb
    obtain ⟨n, hn⟩ := way_of_char
      (P := fun w => ¬ Resting cs w ∧ (Straight cs → min u.head (u.head + (d + e)) ≤ w.head))
      hblank hc fun y hy => ⟨not_resting hy hc hd, fun _ => Int.min_le_left _ _⟩
    rw [State.act_of_distance? hd] at hn
    obtain ⟨m, k', hm, hrest⟩ := ih (u := (u.goto (k + 1)).move d) rfl rfl
    refine ⟨n + 1 + m, k', ?_, hrest⟩
    have hway := hn.trans (hm.mono fun w hw => ⟨hw.1, fun hs => ?_⟩)
    · rwa [State.move_goto_move] at hway
    obtain ⟨c', d', hblank', hc', hd', hsign⟩ := move_of_straight hs h rfl
    obtain rfl := hs k p c c' d d' hc hd hblank' hc' hd'
    have hle : min (u.head + d') (u.head + d' + e) ≤ w.head := hw.2 hs
    omega
  | nil | add | adds | write | read | loop => cases hb

/-- A run of additions is executed. -/
theorem way_of_adds (h : b.Lists cs u.place j) (hb : b = .add p x rest) :
    ∃ n k, Way cs (fun w => w.head = u.head) (n + 1) u ((u.goto k).store (u.cell + x)) ∧ rest.Lists cs k j := by
  generalize hi : u.place = i at h
  induction h generalizing u p x rest with
  | @add i j k c x b hblank hc hx h ih =>
    subst hi
    cases hb
    obtain ⟨n, hn⟩ := way_in_place hblank hc
    exact ⟨n, k + 1, by rwa [State.act_of_amount? hx] at hn, h⟩
  | @adds i j k p c x y b hblank hc hx h ih =>
    subst hi
    cases hb
    obtain ⟨n, hn⟩ := way_in_place hblank hc
    rw [State.act_of_amount? hx] at hn
    obtain ⟨m, k', hm, hrest⟩ := ih (u := (u.goto (k + 1)).store (u.cell + x)) rfl rfl
    refine ⟨n + 1 + m, k', ?_, hrest⟩
    have hway := hn.trans hm
    rwa [State.store_goto_store] at hway
  | nil | move | moves | write | read | loop => cases hb

/-! ### Tapes -/

/-- The tape from cell zero on, the head, the input and the output are those of `s`. -/
structure State.Shows (u : State) (s : Config) : Prop where
  head : u.head = s.head
  cells : ∀ y : Nat, u.cells y = s.cells y
  input : u.input = s.input
  output : u.output = s.output

namespace State.Shows

theorem cell (h : u.Shows s) : u.cell = s.cell := by
  rw [State.cell, h.head, h.cells]
  rfl

theorem goto (h : u.Shows s) : (u.goto k).Shows s := ⟨h.head, h.cells, h.input, h.output⟩

theorem store (h : u.Shows s) : (u.store x).Shows (s.store x) where
  head := h.head
  cells y := by
    simp only [State.store, Function.update_apply, store_def, cells_put, h.head, h.cells, Int.natCast_inj]
  input := h.input
  output := h.output

theorem write (h : u.Shows s) : ((u.goto k).act cs '.').Shows (s.emit [s.cell]) where
  head := h.head
  cells := h.cells
  input := h.input
  output := congrArg₂ _ h.output (congrArg (fun x => [x]) h.cell)

theorem read (h : u.Shows s) :
    ((u.goto k).act cs ',').Shows ((s.store (s.input.headD 0)).setInput s.input.tail) where
  head := h.head
  cells := by
    rw [← h.input]
    exact h.goto.store.cells
  input := congrArg List.tail h.input
  output := h.output

theorem move (h : u.Shows s) (hd : 0 ≤ s.head + d) : (u.move d).Shows (s.goto (s.head + d).toNat) where
  head := by
    rw [State.move, h.head, head_goto, Int.toNat_of_nonneg hd]
  cells := h.cells
  input := h.input
  output := h.output

end State.Shows

end TextMachine

namespace State

/-- A move ends left of cell zero or keeps account of the lowest cell. -/
theorem step_move (s : State) (d : Int) (p : Nat) :
    (s.head + d < 0 ∧ s.step ⟨.move d, p⟩ = .error (.underflow p)) ∨
      0 ≤ s.head + d ∧ ∃ t, s.step ⟨.move d, p⟩ = .ok t ∧ t.pc = s.pc + 1 ∧
        t.config = s.config.goto (s.head + d).toNat ∧ t.Sound t.lowest ∧ t.lowest = min s.lowest t.head := by
  by_cases h : (s.head : Int) + d < 0
  · exact .inl ⟨h, if_pos h⟩
  · refine .inr ⟨by omega, s.next.moveTo (s.head + d).toNat, if_neg h, rfl, config_moveTo, ?_, rfl⟩
    refine ⟨?_, rfl, Nat.min_le_right _ _⟩
    simp only [State.moveTo]
    split
    · assumption
    · simp only [Array.size_rightpad]
      omega

end State

namespace TextMachine

open Block

variable {cs : List Char} {code : Array Instruction} {i : Instruction} {j k pc stop n : Nat} {b : Block}
  {u v w : State} {s t : Tape.State} {c : Config}

/-! ### Where a run is -/

/-- What comes after the block that ends in the text at the place `j` and in the code at the
operation `stop`: nothing, or the end of a loop. -/
inductive Follows (cs : List Char) (code : Array Instruction) : Nat → Nat → Prop where
  | nothing : Follows cs code cs.length code.size
  | again {j p stop start j' stop' : Nat} {body rest : Block} (hcode : code[stop]? = some ⟨.again start, j⟩)
      (hclose : cs[j]? = some ']') (hopen : cs[p]? = some '[') (hlists : body.Lists cs (p + 1) j)
      (hat : body.At code (start + 1) stop) (hlists' : rest.Lists cs (j + 1) j')
      (hat' : rest.At code (stop + 1) stop') (h : Follows cs code j' stop') : Follows cs code j stop

/-- The text goes on from the place `k` as the code does from the operation `pc`. -/
def Ahead (cs : List Char) (code : Array Instruction) (k pc : Nat) : Prop :=
  ∃ b j stop, Block.Lists cs k j b ∧ b.At code pc stop ∧ Follows cs code j stop

theorem Follows.close (h : Follows cs code j stop) : cs[j]? = some ']' ∨ cs[j]? = none := by
  cases h with
  | nothing => exact .inr (List.getElem?_eq_none (Nat.le_refl _))
  | again _ hclose => exact .inl hclose

/-- The two machines are at the same place of a program, on the same tape. -/
structure Matches (cs : List Char) (code : Array Instruction) (u : State) (s : Tape.State) : Prop where
  ahead : Ahead cs code u.place s.pc
  shows : u.Shows s.config
  sound : s.Sound s.lowest

/-- An operation is matched by one step or more, on which the head is not left of both ends
where it rests or no moves turn back; a move ends at rest. -/
inductive Matched (cs : List Char) (code : Array Instruction) (u : State) (s : Tape.State) (i : Instruction) :
    Prop where
  | done {n : Nat} {v : State} {t : Tape.State}
      (hway : Way cs (fun w => Straight cs ∨ Resting cs w → min u.head v.head ≤ w.head) (n + 1) u v)
      (hstep : s.step i = .ok t) (h : Matches cs code v t) (hlow : t.lowest = min s.lowest t.head)
      (hrest : t.head = s.head ∨ Resting cs v)
  | left {n p : Nat} {v : State}
      (hway : Way cs (fun w => Straight cs ∨ Resting cs w → min u.head v.head ≤ w.head) (n + 1) u v)
      (hstep : s.step i = .error (.underflow p)) (hrest : Resting cs v) (hv : v.head < 0)

/-- An operation that leaves the head where it is. -/
theorem Matched.of_stepsTo (hsound : s.Sound s.lowest) (hway : Way cs (fun w => w.head = u.head) (n + 1) u v)
    (hs : s.StepsTo s.lowest i pc c) (hv : v.Shows c) (ha : Ahead cs code v.place pc) (hc : c.head = s.head) :
    Matched cs code u s i := by
  obtain ⟨t, ht, rfl, rfl, htsound⟩ := hs
  have hlow : t.lowest = s.lowest := htsound.lowest
  refine .done (hway.mono fun w hw _ => hw ▸ Int.min_le_left _ _) ht ⟨ha, hv, hlow.symm ▸ htsound⟩ ?_ (.inl hc)
  rw [hlow, show t.head = s.head from hc, Nat.min_eq_left hsound.head]

/-- Where a block has ended there is nothing left to do but to go on with the loop around it. -/
theorem Matched.of_close (hshows : u.Shows s.config) (hsound : s.Sound s.lowest) (hblank : Blank cs u.place j)
    (hfollows : Follows cs code j stop) (hpc : s.pc = stop) (hi : code[stop]? = some i) : Matched cs code u s i := by
  cases hfollows with
  | nothing => simp at hi
  | @again _ p _ start j' stop' body rest hcode hclose hopen hbody hbodyAt hrest hrestAt hfollows =>
    obtain rfl := Option.some.inj (hi.symm.trans hcode)
    obtain ⟨n, hway⟩ := way_in_place hblank hclose
    have hcell : u.cell = s.cell := hshows.cell
    rw [act_close (opening_of_passed hopen hbody.passed), hcell] at hway
    refine .of_stepsTo hsound hway (State.steps_again hsound) hshows.goto ?_ rfl
    rw [hpc]
    split
    · exact ⟨rest, j', stop', hrest, hrestAt, hfollows⟩
    · exact ⟨body, j, stop, hbody, hbodyAt, .again hcode hclose hopen hbody hbodyAt hrest hrestAt hfollows⟩

/-- Moves that are joined are made one by one, and the last of them ends at rest. -/
theorem Matched.of_move {p : Nat} {d : Int} {rest : Block} (hshows : u.Shows s.config)
    (hlists : Block.Lists cs u.place j (.move p d rest)) (hrest : rest.At code (s.pc + 1) stop)
    (hfollows : Follows cs code j stop) : Matched cs code u s ⟨.move d, p⟩ := by
  obtain ⟨n, k, hway, hlists, hmove⟩ := way_of_moves hlists rfl
  have hresting : Resting cs ((u.goto k).move d) := resting_of_lists hlists hmove hfollows.close
  have hway := hway.mono (Q := fun w => Straight cs ∨ Resting cs w → min u.head (u.head + d) ≤ w.head)
    fun w hw h => h.elim hw.2 fun h => absurd h hw.1
  rcases State.step_move s d p with ⟨hd, hstep⟩ | ⟨hd, t, hstep, hpc, hconfig, ht, hlowest⟩
  · exact .left hway hstep hresting (by rwa [State.move, State.goto, hshows.head])
  · refine .done hway hstep ⟨?_, ?_, ht⟩ hlowest (.inr hresting)
    · exact ⟨rest, j, stop, hlists, hpc ▸ hrest, hfollows⟩
    · exact hconfig ▸ hshows.goto.move hd

theorem Matches.step (h : Matches cs code u s) (hi : code[s.pc]? = some i) : Matched cs code u s i := by
  obtain ⟨⟨b, j, stop, hlists, hat, hfollows⟩, hshows, hsound⟩ := h
  have hcell : u.cell = s.cell := hshows.cell
  cases b with
  | nil =>
    have hpc : s.pc = stop := hat
    cases hlists with
    | nil hb => exact .of_close hshows hsound hb hfollows hpc (hpc ▸ hi)
  | move p d rest =>
    obtain ⟨hcode, hrest⟩ := hat
    obtain rfl : i = ⟨.move d, p⟩ := Option.some.inj (hi.symm.trans hcode)
    exact .of_move hshows hlists hrest hfollows
  | add p x rest =>
    obtain ⟨hcode, hrest⟩ := hat
    obtain rfl : i = ⟨.add x, p⟩ := Option.some.inj (hi.symm.trans hcode)
    obtain ⟨n, k, hway, hlists⟩ := way_of_adds hlists rfl
    refine .of_stepsTo hsound hway (State.steps_add hsound) ?_ ⟨rest, j, stop, hlists, hrest, hfollows⟩ rfl
    rw [hshows.cell]
    exact hshows.goto.store
  | write p rest =>
    obtain ⟨hcode, hrest⟩ := hat
    obtain rfl : i = ⟨.write, p⟩ := Option.some.inj (hi.symm.trans hcode)
    cases hlists with
    | write hb hc hlists =>
      obtain ⟨n, hway⟩ := way_in_place hb hc
      exact .of_stepsTo hsound hway (State.steps_write hsound) hshows.write ⟨rest, j, stop, hlists, hrest, hfollows⟩ rfl
  | read p rest =>
    obtain ⟨hcode, hrest⟩ := hat
    obtain rfl : i = ⟨.read, p⟩ := Option.some.inj (hi.symm.trans hcode)
    cases hlists with
    | read hb hc hlists =>
      obtain ⟨n, hway⟩ := way_in_place hb hc
      exact .of_stepsTo hsound hway (State.steps_read hsound) hshows.read ⟨rest, j, stop, hlists, hrest, hfollows⟩ rfl
  | loop p q body rest =>
    obtain ⟨close, hcode, hbodyAt, hagain, hrest⟩ := hat
    obtain rfl : i = ⟨.enter close, p⟩ := Option.some.inj (hi.symm.trans hcode)
    cases hlists with
    | loop hb hopen hbody hclose hlists =>
      obtain ⟨n, hway⟩ := way_in_place hb hopen
      rw [act_open (closing_of_passed hbody.passed hclose), hcell] at hway
      refine .of_stepsTo hsound hway (State.steps_enter hsound) hshows.goto ?_ rfl
      split
      · exact ⟨rest, j, stop, hlists, hrest, hfollows⟩
      · exact ⟨body, q, close, hbody, hbodyAt, .again hagain hclose hopen hbody hbodyAt hlists hrest hfollows⟩

/-- Where the machine has ended there are but comments left. -/
theorem Matches.end (h : Matches cs code u s) (hpc : code.size ≤ s.pc) :
    ∃ n v, Way cs (fun w => w.head = u.head) n u v ∧ TextMachine.step cs v = none ∧ v.Shows s.config := by
  obtain ⟨⟨b, j, stop, hlists, hat, hfollows⟩, hshows, -⟩ := h
  have hnone : code[s.pc]? = none := Array.getElem?_eq_none hpc
  cases b with
  | nil =>
    have hpc : s.pc = stop := hat
    rw [hpc] at hnone
    cases hlists with
    | nil hb =>
      cases hfollows with
      | nothing =>
        obtain ⟨n, hway⟩ := way_of_blank (P := fun w => w.head = u.head) hb fun y _ => rfl
        refine ⟨n, _, hway, ?_, hshows.goto⟩
        rw [TextMachine.step, State.goto, List.getElem?_eq_none (Nat.le_refl _)]
        rfl
      | again hcode => cases hnone.symm.trans hcode
  | move | add | write | read => cases hnone.symm.trans hat.1
  | loop =>
    obtain ⟨close, hcode, -⟩ := hat
    cases hnone.symm.trans hcode

/-! ### Runs -/

/-- How a run of the machine with so many operations left ends, and what the text does then.
`s.lowest` is the lowest cell that the head has rested on. -/
inductive Outcome (cs : List Char) (u : State) (s : Tape.State) (limit budget : Nat) : Except Fault Tape.State → Prop where
  | halted {n : Nat} {v : State} {t : Tape.State}
      (hway : Way cs (fun w => Straight cs ∨ Resting cs w → t.lowest ≤ w.head) n u v)
      (hstop : TextMachine.step cs v = none) (h : v.Shows t.config) (hhead : t.lowest ≤ t.head)
      (hle : t.lowest ≤ s.lowest)
      (hlow : t.lowest = s.lowest ∨ ∃ w, Reaches cs u w ∧ Resting cs w ∧ w.head = t.lowest) :
      Outcome cs u s limit budget (.ok t)
  | left {v : State} {p : Nat} (h : Reaches cs u v) (hrest : Resting cs v) (hhead : v.head < 0) :
      Outcome cs u s limit budget (.error (.underflow p))
  | exhausted {n : Nat} {v : State} {output : List Cell} (hn : budget ≤ n) (h : TextMachine.run cs n u = some v) :
      Outcome cs u s limit budget (.error (.exhausted limit output))

theorem Reaches.of_run (hn : TextMachine.run cs n u = some v) (h : Reaches cs v w) : Reaches cs u w := by
  obtain ⟨m, hm⟩ := h
  exact ⟨n + m, by rw [run_add, hn, Option.bind_some, hm]⟩

theorem Matches.halted {limit budget : Nat} (h : Matches cs code u s) (hpc : code.size ≤ s.pc) :
    Outcome cs u s limit budget (.ok s) := by
  obtain ⟨n, v, hway, hstop, hv⟩ := h.end hpc
  refine .halted (hway.mono fun w hw _ => ?_) hstop hv h.sound.head (Nat.le_refl _) (.inl rfl)
  rw [hw, h.shows.head]
  exact Int.ofNat_le.2 h.sound.head

/-- An operation in front of a run. -/
theorem Outcome.of_step {limit budget : Nat} {r : Except Fault Tape.State} (hs : Matches cs code u s)
    (hway : Way cs (fun w => Straight cs ∨ Resting cs w → min u.head v.head ≤ w.head) (n + 1) u v)
    (ht : Matches cs code v t)
    (hlow : t.lowest = min s.lowest t.head) (hrest : t.head = s.head ∨ Resting cs v)
    (h : Outcome cs v t limit budget r) : Outcome cs u s limit (budget + 1) r := by
  have hhead : s.lowest ≤ s.head := hs.sound.head
  have hle : t.lowest ≤ s.lowest := hlow ▸ Nat.min_le_left _ _
  cases h with
  | halted hway' hstop hv hhead' hle' hlow' =>
    have hle := Nat.le_trans hle' hle
    refine .halted (Way.trans (hway.mono fun w hw hw' => ?_) hway') hstop hv hhead' hle ?_
    · have hu : u.head = s.head := hs.shows.head
      have hv : v.head = t.head := ht.shows.head
      have ht : t.lowest ≤ t.head := ht.sound.head
      have hw := hw hw'
      omega
    rcases hlow' with hlow' | ⟨w, hw, hw', hlow'⟩
    · by_cases hmin : s.lowest ≤ t.head
      · exact .inl (by rw [hlow', hlow, Nat.min_eq_left hmin])
      · refine .inr ⟨v, ⟨_, hway.run⟩, hrest.resolve_left (by omega), ?_⟩
        rw [hlow', hlow, Nat.min_eq_right (by omega), ht.shows.head]
        rfl
    · exact .inr ⟨w, hw.of_run hway.run, hw', hlow'⟩
  | left h hrest hhead => exact .left (h.of_run hway.run) hrest hhead
  | @exhausted m w _ hm h => exact .exhausted (n := n + 1 + m) (by omega) (by rw [run_add, hway.run, Option.bind_some, h])

theorem Matches.runFrom {m : Machine} {limit budget : Nat} (h : Matches cs m.code u s) :
    Outcome cs u s limit budget (m.runFrom limit budget s) := by
  induction budget generalizing u s with
  | zero =>
    rw [Machine.runFrom]
    split
    · exact .exhausted (Nat.le_refl 0) rfl
    next hpc => exact h.halted (Nat.le_of_not_lt hpc)
  | succ budget ih =>
    rw [Machine.runFrom]
    split
    next hpc => exact h.halted (Array.getElem?_eq_none_iff.1 hpc)
    next i hi =>
      cases h.step hi with
      | left hway hstep hrest hv =>
        rw [hstep]
        exact .left ⟨_, hway.run⟩ hrest hv
      | done hway hstep ht hlow hrest =>
        rw [hstep]
        exact .of_step h hway ht hlow hrest (ih ht)

/-- Where both machines start, on any tape. -/
theorem matches_start (h : Block.Lists cs 0 cs.length b) (hplace : u.place = 0) (hpc : s.pc = 0) (hs : s.Sound s.lowest)
    (hu : u.Shows s.config) : Matches cs (b.emit #[]) u s where
  ahead := by
    rw [hplace, hpc]
    refine ⟨b, cs.length, (b.emit #[]).size, h, ?_, .nothing⟩
    rw [Block.size_emit]
    exact Block.at_emit fun _ _ => rfl
  shows := hu
  sound := hs

theorem matches_initial {start : Nat} {input : List Cell} (h : Block.Lists cs 0 cs.length b) :
    Matches cs (b.emit #[]) (.initial start input) (.initial start input) := by
  refine matches_start h rfl rfl ⟨by simp [Tape.State.initial], rfl, Nat.le_refl _⟩ ⟨rfl, fun y => ?_, rfl, rfl⟩
  simp only [State.initial, Tape.State.initial, Tape.State.config, Array.getD_eq_getD_getElem?, Array.getElem?_replicate]
  split <;> rfl

/-- A run ends in an underflow if one of the cells is left of cell zero, and otherwise the lowest
cell it counts is the least of them. -/
def Accounts (r : Except Fault Tape.State) (cells : Set Int) : Prop :=
  ((∃ p, r = .error (.underflow p)) ↔ ∃ x ∈ cells, x < 0) ∧
    ((∀ x ∈ cells, 0 ≤ x) → ∃ s, r = .ok s ∧ IsLeast cells s.lowest)

theorem Outcome.accounts {limit budget : Nat} {r : Except Fault Tape.State} {cells : Set Int}
    (h : Outcome cs u s limit budget r) (hr : ∀ output, r ≠ .error (.exhausted limit output))
    (hstart : (s.lowest : Int) ∈ cells) (hrest : ∀ w, Reaches cs u w → Resting cs w → w.head ∈ cells)
    (hcells : ∀ x ∈ cells, x = s.lowest ∨ ∃ w, Reaches cs u w ∧ (Straight cs ∨ Resting cs w) ∧ w.head = x) :
    Accounts r cells := by
  cases h with
  | @halted n v t hway hstop hv hhead hle hlow =>
    have hlow' (x) (hx : x ∈ cells) : t.lowest ≤ x := by
      obtain rfl | ⟨w, ⟨m, hm⟩, hw, rfl⟩ := hcells x hx
      · exact Int.ofNat_le.2 hle
      rcases Nat.lt_or_eq_of_le (le_of_stopped hway.run hstop hm) with hmn | rfl
      · exact hway.through m hmn w hm hw
      · obtain rfl := Option.some.inj (hm.symm.trans hway.run)
        exact hv.head ▸ Int.ofNat_le.2 hhead
    have hmem : (t.lowest : Int) ∈ cells := by
      obtain hlow | ⟨w, hw, hw', hlow⟩ := hlow
      · exact hlow ▸ hstart
      · exact hlow ▸ hrest w hw hw'
    refine ⟨⟨fun ⟨p, hp⟩ => (nomatch hp), fun ⟨x, hx, hneg⟩ => ?_⟩, fun _ => ⟨t, rfl, hmem, hlow'⟩⟩
    have := hlow' x hx
    omega
  | @left v p hv hv' hneg =>
    have hmem := hrest v hv hv'
    exact ⟨⟨fun _ => ⟨_, hmem, hneg⟩, fun _ => ⟨p, rfl⟩⟩, fun h => absurd (h _ hmem) (Int.not_le.2 hneg)⟩
  | exhausted => exact absurd rfl (hr _)

theorem outcome_of_balanced (h : Balanced cs) : ∃ m, Machine.ofChars cs = .ok m ∧
    ∀ start input limit, Outcome cs (.initial start input) (.initial start input) limit limit (m.run limit start input) := by
  obtain ⟨b, hb, hlists⟩ := Block.ofChars_of_balanced h
  exact ⟨⟨b.emit #[]⟩, by rw [Machine.ofChars, hb], fun _ _ _ => (matches_initial hlists).runFrom⟩

end TextMachine

open TextMachine

variable {cs : List Char}

/-- A text with balanced brackets is loaded. As long as the head does not go left of cell zero when
its characters are executed one by one, the loaded program ends where they end, for every budget
from some number of operations on, and uses up every budget if they go on forever. -/
theorem Machine.run_of_text (h : Balanced cs) : ∃ m, Machine.ofChars cs = .ok m ∧
    ∀ (start : Nat) (input : List Cell), (∀ u, Reaches cs (.initial start input) u → 0 ≤ u.head) →
      (∀ u, Halts cs (.initial start input) u → ∃ n, ∀ limit ≥ n, ∃ s, m.run limit start input = .ok s ∧
        s.output.toList = u.output ∧ s.head = u.head ∧ ∀ x : Nat, s.tape.getD x 0 = u.cells x) ∧
      (RunsForever cs (.initial start input) →
        ∀ limit, ∃ output, m.run limit start input = .error (.exhausted limit output)) := by
  obtain ⟨m, hm, hrun⟩ := outcome_of_balanced h
  refine ⟨m, hm, fun start input hhead => ⟨fun u ⟨⟨n, hn⟩, hstop⟩ => ⟨n + 1, fun limit hlimit => ?_⟩,
    fun hforever limit => ?_⟩⟩
  · have hr := hrun start input limit
    generalize m.run limit start input = r at hr
    cases hr with
    | @halted _ v s hway hstop' hv =>
      obtain rfl := Halts.unique ⟨⟨n, hn⟩, hstop⟩ ⟨⟨_, hway.run⟩, hstop'⟩
      exact ⟨s, rfl, hv.output.symm, hv.head.symm, fun x => (hv.cells x).symm⟩
    | left hv _ hneg => exact absurd (hhead _ hv) (Int.not_le.2 hneg)
    | exhausted hle hv =>
      have := le_of_stopped hn hstop hv
      omega
  · have hr := hrun start input limit
    generalize m.run limit start input = r at hr
    cases hr with
    | halted hway hstop => exact absurd ⟨⟨_, hway.run⟩, hstop⟩ hforever.not_halts
    | left hv _ hneg => exact absurd (hhead _ hv) (Int.not_le.2 hneg)
    | exhausted => exact ⟨_, rfl⟩

theorem Machine.run_of_text_echo : Balanced "+>a>,.[]".toList ∧ ∃ m, Machine.ofChars "+>a>,.[]".toList = .ok m ∧
    (∃ n, ∀ limit ≥ n, ∃ s, m.run limit 0 [] = .ok s ∧ s.output.toList = [0] ∧ s.head = 2 ∧ s.tape.getD 0 0 = 1) ∧
    ∀ limit, ∃ output, m.run limit 0 [7] = .error (.exhausted limit output) := by
  have hbalanced : Balanced "+>a>,.[]".toList :=
    .cons (by decide) (by decide) <| .cons (by decide) (by decide) <| .cons (by decide) (by decide) <|
      .cons (by decide) (by decide) <| .cons (by decide) (by decide) <| .cons (by decide) (by decide) <|
        .loop .nil .nil
  have hhead (input) (u) (hu : Reaches "+>a>,.[]".toList (.initial 0 input) u) : 0 ≤ u.head :=
    hu.head_le (by decide)
  obtain ⟨m, hm, hrun⟩ := Machine.run_of_text hbalanced
  refine ⟨hbalanced, m, hm, ?_, (hrun 0 [7] (hhead _)).2 ?_⟩
  · obtain ⟨n, hn⟩ := (hrun 0 [] (hhead _)).1 ⟨8, 2, Function.update (Function.update (fun _ => 0) 0 1) 2 0, [], [0]⟩
      ⟨⟨7, rfl⟩, rfl⟩
    refine ⟨n, fun limit hlimit => ?_⟩
    obtain ⟨s, hs, houtput, hhead, htape⟩ := hn limit hlimit
    exact ⟨s, hs, houtput, Int.natCast_inj.1 hhead, htape 0⟩
  · exact .of_step_self (n := 7)
      (v := ⟨7, 2, Function.update (Function.update (fun _ => 0) 0 1) 2 7, [], [7]⟩) rfl rfl

/-- How a run finds itself left of cell zero, and the lowest cell it counts. As moves that meet are
one, the cells that count are the first one and those where the head rests. In a text whose moves do
not turn back these are no less than all cells where the head has been. -/
theorem Machine.lowest_of_text (h : Balanced cs) : ∃ m, Machine.ofChars cs = .ok m ∧
    ∀ (start : Nat) (input : List Cell) (limit : Nat),
      (∀ output, m.run limit start input ≠ .error (.exhausted limit output)) →
        Accounts (m.run limit start input)
          {x | x = start ∨ ∃ u, Reaches cs (.initial start input) u ∧ Resting cs u ∧ u.head = x} ∧
        (Straight cs → Accounts (m.run limit start input)
          {x | ∃ u, Reaches cs (.initial start input) u ∧ u.head = x}) := by
  obtain ⟨m, hm, hrun⟩ := outcome_of_balanced h
  refine ⟨m, hm, fun start input limit hr => ⟨?_, fun hs => ?_⟩⟩
  · refine (hrun start input limit).accounts hr (.inl rfl) (fun w hw hw' => .inr ⟨w, hw, hw', rfl⟩) fun x hx => ?_
    exact hx.imp_right fun ⟨w, hw, hw', hx⟩ => ⟨w, hw, .inr hw', hx⟩
  · refine (hrun start input limit).accounts hr ⟨_, ⟨0, rfl⟩, rfl⟩ (fun w hw _ => ⟨w, hw, rfl⟩) fun x hx => ?_
    obtain ⟨w, hw, hx⟩ := hx
    exact .inr ⟨w, hw, .inl hs, hx⟩

theorem Machine.lowest_of_text_there_and_back : Balanced "<+>".toList ∧ ∃ m, Machine.ofChars "<+>".toList = .ok m ∧
    (∀ output, m.run 3 1 [] ≠ .error (.exhausted 3 output)) ∧ ∃ s, m.run 3 1 [] = .ok s ∧
      IsLeast {x | ∃ u, Reaches "<+>".toList (.initial 1 []) u ∧ u.head = x} s.lowest := by
  have hbalanced : Balanced "<+>".toList :=
    .cons (by decide) (by decide) <| .cons (by decide) (by decide) <| .cons (by decide) (by decide) .nil
  have hstraight : Straight "<+>".toList := by
    intro i k c c' d d' hc hd hblank hc' hd'
    have hi : i < 3 := (List.getElem?_eq_some_iff.1 hc).1
    interval_cases i
    · cases hblank with
      | refl =>
        cases hc'
        cases hd'
      | cons hc hcomment =>
        cases hc
        cases hcomment
    · cases hc
      cases hd
    · cases hblank with
      | refl => cases hc'
      | cons hc => cases hc
  obtain ⟨m, hm, hrun⟩ := Machine.lowest_of_text hbalanced
  obtain rfl : m = ⟨#[⟨.move (-1), 0⟩, ⟨.add 1, 1⟩, ⟨.move 1, 2⟩]⟩ := by
    cases hm
    rfl
  have hend (output) : Machine.run ⟨#[⟨.move (-1), 0⟩, ⟨.add 1, 1⟩, ⟨.move 1, 2⟩]⟩ 3 1 [] ≠
      .error (.exhausted 3 output) := fun h => nomatch h
  have haccounts := (hrun 1 [] 3 hend).2 hstraight
  obtain ⟨s, hs, hleast⟩ := haccounts.2 fun x hx => by
    by_contra hneg
    obtain ⟨p, hp⟩ := haccounts.1.2 ⟨x, hx, Int.not_le.1 hneg⟩
    cases hp
  exact ⟨hbalanced, _, hm, hend, s, hs, hleast⟩

/-- Moves that turn back are joined, so that the cells where they turn do not count: the head goes
left of cell zero and no underflow is found, or stands left of the lowest cell. -/
theorem Machine.turning_cells_uncounted : Balanced "<>".toList ∧ ∃ m, Machine.ofChars "<>".toList = .ok m ∧
    (∃ u, Reaches "<>".toList (.initial 0 []) u ∧ u.head = -1) ∧ (∃ s, m.run 1 0 [] = .ok s) ∧
    (∃ u, Reaches "<>".toList (.initial 1 []) u ∧ u.head = 0) ∧ ∃ s, m.run 1 1 [] = .ok s ∧ s.lowest = 1 :=
  ⟨.cons (by decide) (by decide) <| .cons (by decide) (by decide) .nil, ⟨#[⟨.move 0, 0⟩]⟩, rfl,
    ⟨_, ⟨1, rfl⟩, rfl⟩, ⟨_, rfl⟩, ⟨_, ⟨1, rfl⟩, rfl⟩, _, rfl, rfl⟩

end TapeC.Tape
