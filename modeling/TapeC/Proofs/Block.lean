import TapeC.Proofs.Execution
import TapeC.Tape.Block

/-! Loading a text keeps its meaning. A text that lists a structured program is read into
a block that does the same, whether moves and additions that meet are joined or each
character stays an instruction of its own. A joined move may skip the cells in between,
so that what is shown supposes that the program itself does not stray. -/

namespace TapeC.Tape

open Config

namespace Block

/-- Runs a block in which moves to the left may not go left of the cell `floor`. -/
def exec (floor : Nat) : Block → Config → Comp Stray Config
  | nil, s => pure s
  | move _ d rest, s =>
    if 0 ≤ d ∨ floor ≤ s.head + d then rest.exec floor (s.goto (s.head + d).toNat) else .wrong .left
  | add _ v rest, s => rest.exec floor (s.store (s.cell + v))
  | write _ rest, s => rest.exec floor (s.emit [s.cell])
  | read _ rest, s => rest.exec floor ((s.store (s.input.headD 0)).setInput s.input.tail)
  | loop _ _ body rest, s => Comp.loop (fun s => s.cell != 0) (body.exec floor) s >>= rest.exec floor

/-- The block does what the program does, and then what the rest does. -/
def Follows (b : Block) (c : Code) (rest : Block) : Prop :=
  ∀ floor s, Comp.Sim Eq (b.exec floor s) (c.exec floor s >>= rest.exec floor)

/-! ### Reading, with any way to join instructions -/

/-- A way to put a move and an addition in front of a block. -/
structure Joining where
  move : Nat → Int → Block → Block
  add : Nat → Cell → Block → Block

/-- Instructions that meet are joined. -/
def Joining.full : Joining := ⟨consMove, consAdd⟩

/-- Each character is an instruction. -/
def Joining.none : Joining := ⟨Block.move, Block.add⟩

/-- A joined instruction does what the character does and then what follows. -/
structure Joining.Sound (j : Joining) : Prop where
  right : ∀ p b, (j.move p 1 b).Follows (.right 1) b
  left : ∀ p b, (j.move p (-1) b).Follows (.left 1) b
  inc : ∀ p b, (j.add p 1 b).Follows (.inc 1) b
  dec : ∀ p b, (j.add p (-1) b).Follows (.dec 1) b

/-- `Reader.cons` with any way to join instructions. -/
def Joining.cons (j : Joining) (position : Nat) (c : Char) (r : Reader) : Reader :=
  match c with
  | '>' => { r with current := j.move position 1 r.current }
  | '<' => { r with current := j.move position (-1) r.current }
  | '+' => { r with current := j.add position 1 r.current }
  | '-' => { r with current := j.add position (-1) r.current }
  | c => r.cons position c

theorem Joining.cons_full : Joining.full.cons = Reader.cons := by
  funext p c r
  unfold Joining.cons
  split <;> rfl

variable {j : Joining} {a b c rest : Block} {x y body : Code} {k n : Nat} {r : Reader} {cs ds : List Char}

/-- Reads characters in front of what has been read, the first of which is at `k`. -/
def Joining.read (j : Joining) (k : Nat) (cs : List Char) (r : Reader) : Reader :=
  (cs.zipIdx k).foldr (fun (c, position) r => j.cons position c r) r

theorem Joining.read_cons {ch : Char} :
    j.read k (ch :: cs) r = j.cons k ch (j.read (k + 1) cs r) := rfl

theorem Joining.read_append :
    j.read k (cs ++ ds) r = j.read k cs (j.read (k + cs.length) ds r) := by
  simp only [read, List.zipIdx_append, List.foldr_append]

theorem Joining.cons_of_not_instruction {ch : Char} (h : isInstruction ch = false) :
    j.cons k ch r = r := by
  have hne (c : Char) (hc : c ∈ instructions) : ch ≠ c := by
    rintro rfl
    simp [isInstruction, hc] at h
  simp only [cons, Reader.cons]
  split
  iterate 4 exact absurd rfl (hne _ (by simp [instructions]))
  split
  iterate 8 exact absurd rfl (hne _ (by simp [instructions]))
  rfl

/-! ### Programs one after another -/

theorem Follows.skip : b.Follows .skip b := fun _ _ => .refl

theorem Follows.seq (hb : b.Follows x c) (hc : c.Follows y rest) : b.Follows (x ++ y) rest := by
  intro floor s
  refine (hb floor s).trans ?_
  rw [Code.exec_append, bind_assoc]
  exact Comp.Sim.refl.bind fun t _ ht => ht ▸ hc floor t

theorem Follows.loop {p q : Nat} (hb : b.Follows body nil) : (b.loop p q rest).Follows (.loop body) rest := by
  intro floor s
  refine Comp.Sim.bind (R := Eq) ?_ fun t _ ht => ht ▸ .refl
  refine (Comp.Sim.loop (R := Eq) (fun _ _ h => h ▸ rfl) (fun t _ ht _ => ?_) rfl).mono fun _ _ h => h.1
  subst ht
  have h := hb floor t
  rwa [show (Block.nil.exec floor) = pure from rfl, bind_pure] at h

theorem Follows.mono (hb : b.Follows x rest)
    (h : ∀ floor s, Comp.Sim Eq (x.exec floor s) (y.exec floor s)) : b.Follows y rest :=
  fun floor s => (hb floor s).trans ((h floor s).bind fun _ _ ht => ht ▸ .refl)

/-! ### Reading the text of a program -/

/-- The text of `c` is read in front of `r`. -/
def Joining.Reads (j : Joining) (c : Code) (cs : List Char) : Prop :=
  ∀ k r, (j.read k cs r).outer = r.outer ∧ (j.read k cs r).unclosed = r.unclosed ∧
    (j.read k cs r).current.Follows c r.current

theorem Joining.Reads.append (hx : j.Reads x cs) (hy : j.Reads y ds) :
    j.Reads (x ++ y) (cs ++ ds) := by
  intro k r
  rw [read_append]
  obtain ⟨ho, hu, hf⟩ := hy (k + cs.length) r
  obtain ⟨ho', hu', hf'⟩ := hx k (j.read (k + cs.length) ds r)
  exact ⟨ho'.trans ho, hu'.trans hu, hf'.seq hf⟩

theorem Joining.Reads.mono (hx : j.Reads x cs)
    (h : ∀ floor s, Comp.Sim Eq (x.exec floor s) (y.exec floor s)) : j.Reads y cs := fun k r => by
  obtain ⟨ho, hu, hf⟩ := hx k r
  exact ⟨ho, hu, hf.mono h⟩

theorem Joining.reads_skip : j.Reads .skip [] := fun _ _ => ⟨rfl, rfl, .skip⟩

/-- A run of equal instructions. -/
theorem Joining.reads_replicate {ch : Char} {x : Nat → Code} (h1 : j.Reads (x 1) [ch])
    (h0 : ∀ floor s, Comp.Sim Eq (Code.skip.exec floor s) ((x 0).exec floor s))
    (hs : ∀ n floor s, Comp.Sim Eq ((x 1 ++ x n).exec floor s) ((x (n + 1)).exec floor s)) :
    j.Reads (x n) (List.replicate n ch) := by
  induction n with
  | zero => exact reads_skip.mono h0
  | succ n ih => exact (h1.append ih).mono (hs n)

theorem Joining.reads_ignored (h : ∀ c ∈ cs, isInstruction c = false) : j.Reads .skip cs := by
  intro k r
  induction cs generalizing k with
  | nil => exact reads_skip k r
  | cons c cs ih =>
    rw [read_cons, cons_of_not_instruction (h c (by simp))]
    exact ih (fun c hc => h c (by simp [hc])) (k + 1)

theorem Joining.reads_loop (hb : j.Reads body cs) :
    j.Reads (.loop body) ('[' :: (cs ++ [']'])) := by
  intro k r
  rw [read_cons, read_append]
  obtain ⟨ho, hu, hf⟩ := hb (k + 1) (j.read (k + 1 + cs.length) [']'] r)
  generalize j.read (k + 1) cs _ = r' at ho hu hf
  have hc : j.cons k '[' r' = { r' with
      current := .loop k (k + 1 + cs.length) r'.current r.current, outer := r.outer } := by
    obtain ⟨current, outer, unclosed⟩ := r'
    subst ho
    rfl
  rw [hc]
  exact ⟨rfl, hu, hf.loop⟩

theorem exec_left_succ (n floor : Nat) (s : Config) :
    Comp.Sim Eq ((Code.left 1 ++ .left n).exec floor s) ((Code.left (n + 1)).exec floor s) := by
  by_cases h : floor + (n + 1) ≤ s.head
  · refine .of_ends (a := s.goto (s.head - (n + 1))) ?_ ((Code.runs_left h).2 rfl) rfl
    refine ((Code.runs_left (by omega)).2 rfl).append ((Code.runs_left ?_).2 ?_)
    · simp only [head_goto]
      omega
    · simp only [head_goto, goto_goto, show s.head - 1 - n = s.head - (n + 1) by omega]
  · exact .of_wrong (e := .left) (by simp [Code.exec, h])

theorem Joining.Sound.reads (hj : j.Sound) (c : Code) : j.Reads c (c.charsThen []) := by
  induction c with
  | skip => exact reads_skip
  | right n =>
    rw [Code.charsThen, List.append_nil]
    refine reads_replicate (fun k r => ⟨rfl, rfl, hj.right k _⟩) (fun _ _ => .refl) fun n floor s => ?_
    refine .of_ends ?_ (Code.runs_right.2 rfl) rfl
    exact (Code.runs_right.2 rfl).append (Code.runs_right.2 (by simp [Nat.add_comm, Nat.add_left_comm]))
  | left n =>
    rw [Code.charsThen, List.append_nil]
    refine reads_replicate (fun k r => ⟨rfl, rfl, hj.left k _⟩) (fun floor s => ?_) exec_left_succ
    by_cases h : floor ≤ s.head
    · exact .of_ends (Code.runs_skip.2 rfl) ((Code.runs_left h).2 rfl) rfl
    · exact .of_wrong (e := .left) (by simp [Code.exec, h])
  | inc n =>
    rw [Code.charsThen, List.append_nil]
    refine reads_replicate (fun k r => ⟨rfl, rfl, hj.inc k _⟩) (fun _ s => ?_) fun n floor s => ?_
    · exact .of_ends (Code.runs_skip.2 rfl) (Code.runs_inc.2 rfl) (by simp [store_def, put_cell])
    · refine .of_ends ((Code.runs_inc.2 rfl).append (Code.runs_inc.2 rfl)) (Code.runs_inc.2 rfl) ?_
      simp only [store_def, Config.cell, head_put, cells_put_self, put_put_self, UInt8.ofNat_add]
      congr 1
      grind
  | dec n =>
    rw [Code.charsThen, List.append_nil]
    refine reads_replicate (fun k r => ⟨rfl, rfl, hj.dec k _⟩) (fun _ s => ?_) fun n floor s => ?_
    · exact .of_ends (Code.runs_skip.2 rfl) (Code.runs_dec.2 rfl) (by simp [store_def, put_cell])
    · refine .of_ends ((Code.runs_dec.2 rfl).append (Code.runs_dec.2 rfl)) (Code.runs_dec.2 rfl) ?_
      simp only [store_def, Config.cell, head_put, cells_put_self, put_put_self, UInt8.ofNat_add]
      congr 1
      grind
  | write => exact fun k r => ⟨rfl, rfl, fun _ _ => .refl⟩
  | read => exact fun k r => ⟨rfl, rfl, fun _ _ => .refl⟩
  | loop body ih =>
    rw [Code.charsThen, Code.charsThen_eq]
    exact reads_loop ih
  | seq a b iha ihb => exact Code.charsThen_eq a _ ▸ iha.append ihb
  | within n | vacant n => exact reads_skip.mono fun _ _ => .refl
  | note text =>
    rw [Code.charsThen, List.append_nil]
    refine (reads_ignored fun c hc => ?_).mono (x := .skip) fun _ _ => .refl
    have h : c ∉ strip (commentChars text.toList) := by simp
    simpa [strip, hc] using h

/-! ### Ways to join -/

theorem move_right_follows {p : Nat} : (b.move p 1).Follows (.right 1) b := by
  intro floor s
  rw [exec, if_pos (.inl (by omega))]
  exact .refl

theorem move_left_follows {p : Nat} : (b.move p (-1)).Follows (.left 1) b := by
  intro floor s
  by_cases h : floor + 1 ≤ s.head
  · rw [exec, if_pos (.inr (by omega)), Code.exec, if_pos h, pure_bind,
      show ((s.head : Int) + -1).toNat = s.head - 1 by omega]
    exact .refl
  · refine .of_wrong (e := .left) (Comp.bind_ends.2 (.inl ⟨.left, ?_, rfl⟩))
    simp [Code.exec, h]

theorem add_one_follows {p : Nat} : (b.add p 1).Follows (.inc 1) b := fun _ _ => .refl

theorem add_neg_one_follows {p : Nat} : (b.add p (-1)).Follows (.dec 1) b := by
  intro floor s
  rw [exec, ← UInt8.sub_eq_add_neg]
  exact .refl

theorem Joining.none_sound : Joining.none.Sound where
  right _ _ := move_right_follows
  left _ _ := move_left_follows
  inc _ _ := add_one_follows
  dec _ _ := add_neg_one_follows

/-- Moves that meet are one move. -/
theorem consMove_exec {p : Nat} {d : Int} (floor : Nat) (s : Config) :
    Comp.Sim Eq ((consMove p d b).exec floor s) ((b.move p d).exec floor s) := by
  cases b
  case move q more rest =>
    rw [consMove, exec, exec]
    by_cases h : 0 ≤ d ∨ floor ≤ s.head + d
    · have hd : ((s.head + d).toNat : Int) = s.head + d := Int.toNat_of_nonneg (by omega)
      rw [if_pos h, exec, head_goto, hd]
      by_cases h' : 0 ≤ more ∨ (floor : Int) ≤ s.head + d + more
      · rw [if_pos (by omega), if_pos h', goto_goto, Int.add_assoc]
        exact .refl
      · rw [if_neg h']
        exact .of_wrong (e := .left) (by simp)
    · rw [if_neg h]
      exact .of_wrong (e := .left) (by simp)
  all_goals exact .refl

theorem consAdd_exec {p : Nat} {v : Cell} (floor : Nat) (s : Config) :
    (consAdd p v b).exec floor s = (b.add p v).exec floor s := by
  cases b
  case add q more rest => simp [consAdd, exec, store_def, Config.cell, UInt8.add_assoc]
  all_goals rfl

theorem Joining.full_sound : Joining.full.Sound where
  right p b floor s := (consMove_exec floor s).trans (move_right_follows floor s)
  left p b floor s := (consMove_exec floor s).trans (move_left_follows floor s)
  inc p b floor s := by
    rw [full, consAdd_exec]
    exact add_one_follows floor s
  dec p b floor s := by
    rw [full, consAdd_exec]
    exact add_neg_one_follows floor s

/-- Loads a text so that each of its instructions is one of the machine. -/
def plain (cs : List Char) : Except Nat Block :=
  match Joining.none.read 0 cs {} with
  | { outer := (position, _) :: _, .. } => .error position
  | { unclosed := some position, .. } => .error position
  | { current, .. } => .ok current

theorem plain_charsThen (c : Code) :
    ∃ b, plain (c.charsThen []) = .ok b ∧ b.Follows c nil := by
  obtain ⟨ho, hu, hf⟩ := Joining.none_sound.reads c 0 {}
  refine ⟨_, ?_, hf⟩
  unfold plain
  generalize Joining.none.read 0 (c.charsThen []) {} = r at ho hu
  obtain ⟨current, outer, unclosed⟩ := r
  cases ho
  cases hu
  rfl

/-- A text in which no bracket lacks its partner is loaded. -/
theorem ofChars_of_read (ho : (Joining.full.read 0 cs {}).outer = [])
    (hu : (Joining.full.read 0 cs {}).unclosed = none) :
    ofChars cs = .ok (Joining.full.read 0 cs {}).current := by
  have hr : Reader.ofChars cs = Joining.full.read 0 cs {} := by
    rw [Joining.read, Joining.cons_full]
    rfl
  rw [ofChars, hr]
  generalize Joining.full.read 0 cs {} = r at ho hu
  obtain ⟨current, outer, unclosed⟩ := r
  cases ho
  cases hu
  rfl

/-- The text of a program is loaded, its brackets matching. -/
theorem ofChars_charsThen (c : Code) :
    ∃ b, ofChars (c.charsThen []) = .ok b ∧ b.Follows c nil := by
  obtain ⟨ho, hu, hf⟩ := Joining.full_sound.reads c 0 {}
  exact ⟨_, ofChars_of_read ho hu, hf⟩

end Block

/-! ### Programs without comments -/

namespace Code

/-- The program without its notes. -/
def bare : Code → Code
  | loop body => loop body.bare
  | seq a b => seq a.bare b.bare
  | note _ => skip
  | c => c

theorem strip_charsThen (c : Code) : strip (c.charsThen []) = c.bare.charsThen [] := by
  induction c with
  | loop body ih =>
    rw [charsThen, charsThen_eq, bare, charsThen, charsThen_eq body.bare, ← ih]
    simp [strip, isInstruction, instructions]
  | seq a b iha ihb =>
    rw [charsThen, charsThen_eq, bare, charsThen, charsThen_eq a.bare, ← iha, ← ihb, strip_append]
  | note text =>
    rw [charsThen, List.append_nil, strip_commentChars]
    rfl
  | right n | left n | inc n | dec n | skip | write | read | within n | vacant n =>
    simp [charsThen, bare, strip, isInstruction, instructions]

theorem exec_bare (c : Code) (floor : Nat) : c.bare.exec floor = c.exec floor := by
  induction c with
  | loop body ih => simp only [bare, exec, ih]
  | seq a b iha ihb => simp only [bare, exec, iha, ihb]
  | _ => rfl

end Code
end TapeC.Tape
