import TapeC.Proofs.Block
import TapeC.Tape.Machine

/-! The machine runs a loaded program as the block it was made from: it ends in the same
configuration, for every budget from some number of operations on, or uses up every
budget. -/

namespace TapeC.Tape

open Config

/-! ### States as configurations -/

namespace State

def config (s : State) : Config := ⟨s.head, fun x => s.tape.getD x 0, s.input, s.output.toList⟩

/-- The tape holds the cell under the head, which has been at `floor` and not left of it. -/
structure Sound (floor : Nat) (s : State) : Prop where
  held : s.head < s.tape.size
  lowest : s.lowest = floor
  head : floor ≤ s.head

variable {floor : Nat} {s t : State} {d : Int} {v : Cell} {p h : Nat}

theorem cell_config : s.config.cell = s.cell := rfl

theorem config_moveTo : (s.moveTo h).config = s.config.goto h := by
  refine Config.ext rfl (fun x => ?_) rfl rfl
  simp only [config, moveTo, cells_goto]
  split
  · rfl
  · simp only [Array.getD_eq_getD_getElem?, Array.rightpad, Array.getElem?_append]
    grind

theorem Sound.moveTo (hs : s.Sound floor) (hh : floor ≤ h) : (s.moveTo h).Sound floor := by
  refine ⟨?_, ?_, hh⟩
  · simp only [State.moveTo]
    split
    · assumption
    · simp only [Array.size_rightpad]
      omega
  · simp [State.moveTo, hs.lowest, hh]

theorem config_store (hs : s.Sound floor) : (s.store v).config = s.config.store v := by
  refine Config.ext rfl (fun x => ?_) rfl rfl
  have := hs.held
  simp only [config, State.store, store_def, cells_put, Array.getD_eq_getD_getElem?,
    Array.getElem?_setIfInBounds]
  grind

theorem Sound.store (hs : s.Sound floor) : (s.store v).Sound floor :=
  ⟨by simpa [State.store] using hs.held, hs.lowest, hs.head⟩

/-- The instruction leads from `s` to the operation `pc` and the configuration `c`. -/
def StepsTo (floor : Nat) (s : State) (i : Instruction) (pc : Nat) (c : Config) : Prop :=
  ∃ s', s.step i = .ok s' ∧ s'.pc = pc ∧ s'.config = c ∧ s'.Sound floor

/-- The state in which an operation takes effect. -/
def next (s : State) : State := { s with steps := s.steps + 1, pc := s.pc + 1 }

theorem Sound.next (hs : s.Sound floor) : s.next.Sound floor := ⟨hs.held, hs.lowest, hs.head⟩

theorem steps_move (hs : s.Sound floor) (hd : 0 ≤ d ∨ floor ≤ s.head + d) :
    s.StepsTo floor ⟨.move d, p⟩ (s.pc + 1) (s.config.goto (s.head + d).toNat) := by
  have := hs.head
  refine ⟨s.next.moveTo (s.head + d).toNat, ?_, rfl, config_moveTo, hs.next.moveTo (by omega)⟩
  exact if_neg (by change ¬ (s.head : Int) + d < 0; omega)

theorem steps_add (hs : s.Sound floor) :
    s.StepsTo floor ⟨.add v, p⟩ (s.pc + 1) (s.config.store (s.cell + v)) :=
  ⟨s.next.store (s.cell + v), rfl, rfl, config_store hs.next, hs.next.store⟩

theorem steps_write (hs : s.Sound floor) :
    s.StepsTo floor ⟨.write, p⟩ (s.pc + 1) (s.config.emit [s.cell]) := by
  refine ⟨_, rfl, rfl, ?_, hs.held, hs.lowest, hs.head⟩
  refine Config.ext rfl (fun _ => rfl) rfl ?_
  simp [config, cell]

theorem steps_read (hs : s.Sound floor) : s.StepsTo floor ⟨.read, p⟩ (s.pc + 1)
    ((s.config.store (s.config.input.headD 0)).setInput s.config.input.tail) := by
  obtain ⟨pc, head, lowest, tape, input, output, steps⟩ := s
  cases input with
  | nil => exact ⟨_, rfl, rfl, config_store hs.next, hs.next.store⟩
  | cons byte rest =>
    refine ⟨_, rfl, rfl, ?_, hs.next.store.held, hs.lowest, hs.head⟩
    exact congrArg (·.setInput rest) (config_store hs.next)

theorem steps_enter {close : Nat} (hs : s.Sound floor) : s.StepsTo floor ⟨.enter close, p⟩
    (if s.cell = 0 then close + 1 else s.pc + 1) s.config := by
  refine ⟨if s.cell = 0 then { s.next with pc := close + 1 } else s.next, rfl, ?_⟩
  split
  · exact ⟨rfl, rfl, hs.held, hs.lowest, hs.head⟩
  · exact ⟨rfl, rfl, hs.next⟩

theorem steps_again {start : Nat} (hs : s.Sound floor) : s.StepsTo floor ⟨.again start, p⟩
    (if s.cell = 0 then s.pc + 1 else start + 1) s.config := by
  refine ⟨if s.cell = 0 then s.next else { s.next with pc := start + 1 }, rfl, ?_⟩
  split
  · exact ⟨rfl, rfl, hs.next⟩
  · exact ⟨rfl, rfl, hs.held, hs.lowest, hs.head⟩

end State

/-! ### Where the operations of a block are -/

namespace Block

/-- The operations of the block are in the code from `start` to `stop`. -/
def At (code : Array Instruction) : Block → Nat → Nat → Prop
  | nil, start, stop => start = stop
  | move p d rest, start, stop => code[start]? = some ⟨.move d, p⟩ ∧ rest.At code (start + 1) stop
  | add p v rest, start, stop => code[start]? = some ⟨.add v, p⟩ ∧ rest.At code (start + 1) stop
  | write p rest, start, stop => code[start]? = some ⟨.write, p⟩ ∧ rest.At code (start + 1) stop
  | read p rest, start, stop => code[start]? = some ⟨.read, p⟩ ∧ rest.At code (start + 1) stop
  | loop p q body rest, start, stop => ∃ close, code[start]? = some ⟨.enter close, p⟩ ∧
      body.At code (start + 1) close ∧ code[close]? = some ⟨.again start, q⟩ ∧
      rest.At code (close + 1) stop

variable {code pre : Array Instruction} {b : Block}

theorem size_emit : (b.emit pre).size = b.sizeFrom pre.size := by
  induction b generalizing pre with
  | nil => rfl
  | loop p q body rest ihb ih => simp [emit, sizeFrom, ihb, ih]
  | _ => simp [emit, sizeFrom, *]

/-- The code begins with the operations `pre`. -/
def Begins (code pre : Array Instruction) : Prop := ∀ i < pre.size, code[i]? = pre[i]?

theorem Begins.of_push {i : Instruction} (h : Begins code (pre.push i)) : Begins code pre := by
  intro k hk
  rw [h k (by rw [Array.size_push]; omega), Array.getElem?_push_lt hk, Array.getElem?_eq_getElem hk]

theorem Begins.last {i : Instruction} (h : Begins code (pre.push i)) : code[pre.size]? = some i := by
  rw [h pre.size (by simp), Array.getElem?_push_size]

theorem Begins.of_emit (h : Begins code (b.emit pre)) : Begins code pre := by
  induction b generalizing pre with
  | nil => exact h
  | loop p q body rest ihb ih => exact (ihb (ih h).of_push).of_push
  | move _ _ _ ih | add _ _ _ ih | write _ _ ih | read _ _ ih => exact (ih h).of_push

theorem at_emit (h : Begins code (b.emit pre)) : b.At code pre.size (b.sizeFrom pre.size) := by
  induction b generalizing pre with
  | nil => rfl
  | loop p q body rest ihb ih =>
    have hr : Begins code ((body.emit (pre.push ⟨.enter (body.sizeFrom (pre.size + 1)), p⟩)).push
      ⟨.again pre.size, q⟩) := Begins.of_emit (b := rest) h
    have hb := ihb hr.of_push
    have h' := ih h
    have hq := hr.last
    simp only [Array.size_push, size_emit] at hb h' hq
    exact ⟨_, hr.of_push.of_emit.last, hb, hq, h'⟩
  | move _ _ rest ih | add _ _ rest ih | write _ rest ih | read _ rest ih =>
    have hr := ih h
    rw [Array.size_push] at hr
    exact ⟨(Begins.of_emit (b := rest) h).last, hr⟩

end Block

/-! ### Runs -/

namespace Machine

variable {m : Machine} {s t u : State} {n k limit budget floor : Nat}

/-- So many operations lead from one state to another. -/
inductive Steps (m : Machine) : Nat → State → State → Prop where
  | refl (s : State) : Steps m 0 s s
  | step {n : Nat} {s t u : State} {i : Instruction} (hi : m.code[s.pc]? = some i)
      (hs : s.step i = .ok t) (h : Steps m n t u) : Steps m (n + 1) s u

theorem Steps.trans (h : m.Steps n s t) (h' : m.Steps k t u) : m.Steps (n + k) s u := by
  induction h with
  | refl => rwa [Nat.zero_add]
  | step hi hs _ ih => rw [Nat.add_right_comm]; exact .step hi hs (ih h')

theorem Steps.runFrom (h : m.Steps n s t) :
    m.runFrom limit (n + budget) s = m.runFrom limit budget t := by
  induction h with
  | refl => rw [Nat.zero_add]
  | step hi hs _ ih => rw [Nat.add_right_comm, Machine.runFrom, hi]; simp only [hs, ih]

/-- A budget that is too small is used up. -/
theorem Steps.exhausts (h : m.Steps n s t) (hn : budget < n) :
    ∃ output, m.runFrom limit budget s = .error (.exhausted limit output) := by
  induction h generalizing budget with
  | refl => omega
  | @step _ s _ _ i hi hs _ ih =>
    have hpc : s.pc < m.size := (Array.getElem?_eq_some_iff.1 hi).1
    cases budget with
    | zero => exact ⟨_, if_pos hpc⟩
    | succ budget =>
      obtain ⟨output, ho⟩ := @ih budget (by omega)
      refine ⟨output, ?_⟩
      rw [Machine.runFrom, hi]
      simp only [hs, ho]

theorem runFrom_of_end (h : m.size ≤ s.pc) : m.runFrom limit budget s = .ok s := by
  cases budget with
  | zero => exact if_neg (by omega)
  | succ budget =>
    rw [Machine.runFrom, Array.getElem?_eq_none h]

/-- A run that looks its operations up in a list: the kernel evaluates it in fewer steps. -/
def runListed (code : List Instruction) (limit : Nat) : Nat → State → Except Fault State
  | 0, s => if s.pc < code.length then .error (.exhausted limit s.output.toList) else .ok s
  | budget + 1, s =>
    match code[s.pc]? with
    | none => .ok s
    | some i =>
      match s.step i with
      | .ok s => runListed code limit budget s
      | .error fault => .error fault

theorem runFrom_eq_runListed : m.runFrom limit budget s = runListed m.code.toList limit budget s := by
  induction budget generalizing s with
  | zero => rfl
  | succ budget ih =>
    rw [Machine.runFrom, runListed, Array.getElem?_toList]
    cases m.code[s.pc]? with
    | none => rfl
    | some i =>
      dsimp only
      cases s.step i with
      | ok t => exact ih
      | error fault => rfl

/-! ### Runs of a block -/

variable {b : Block} {start stop : Nat} {c : Config}

/-- So many operations lead from `s` to the operation `pc` in the configuration `c`. -/
def Leads (m : Machine) (floor n : Nat) (s : State) (pc : Nat) (c : Config) : Prop :=
  ∃ t, m.Steps n s t ∧ t.pc = pc ∧ t.config = c ∧ t.Sound floor

theorem Leads.of_step {i : Instruction} {pc : Nat} (hi : m.code[s.pc]? = some i)
    (h : s.StepsTo floor i pc c) : m.Leads floor 1 s pc c := by
  obtain ⟨t, ht, hpc, hc, hs⟩ := h
  exact ⟨t, .step hi ht (.refl t), hpc, hc, hs⟩

/-- A run from `s` as far as the block goes: to its end, if the block ends, and for at
least as many operations as the block has not ended within. -/
def Follows (m : Machine) (floor : Nat) (b : Block) (stop : Nat) (s : State) : Prop :=
  (∀ c, (b.exec floor s.config).Ends (.ok c) → ∃ n, m.Leads floor n s stop c) ∧
    ∀ n, (b.exec floor s.config).run n = none → ∃ k t, n ≤ k ∧ m.Steps k s t

theorem Follows.of_leads {b' : Block} (h : m.Leads floor n s start c)
    (hb : ∀ t : State, t.Sound floor → t.pc = start → m.Follows floor b' stop t)
    (he : b.exec floor s.config = b'.exec floor c) : m.Follows floor b stop s := by
  obtain ⟨t, ht, hpc, rfl, hs⟩ := h
  obtain ⟨h₁, h₂⟩ := hb t hs hpc
  rw [Follows, he]
  refine ⟨fun c hc => ?_, fun k hk => ?_⟩
  · obtain ⟨n', u, hu, h⟩ := h₁ c hc
    exact ⟨n + n', u, ht.trans hu, h⟩
  · obtain ⟨k', u, hk', hu⟩ := h₂ k hk
    exact ⟨n + k', u, by omega, ht.trans hu⟩

/-- One of the two operations that test whether a loop goes on. -/
def Tests (m : Machine) (floor start close : Nat) (s : State) : Prop :=
  s.Sound floor ∧ m.Leads floor 1 s (if s.cell = 0 then close + 1 else start + 1) s.config

variable {close : Nat} {body rest : Block}

theorem loop_leads (hbody : ∀ s : State, s.Sound floor → s.pc = start + 1 → m.Follows floor body close s)
    (hclose : ∀ s : State, s.Sound floor → s.pc = close → m.Tests floor start close s)
    (hs : m.Tests floor start close s)
    (h : (Comp.loop (fun s => s.cell != 0) (body.exec floor) s.config).Ends (.ok c)) :
    ∃ n, m.Leads floor n s (close + 1) c := by
  refine Comp.loop_ends_induction (motive := fun c r => ∀ c' s, r = .ok c' → s.config = c →
    m.Tests floor start close s → ∃ n, m.Leads floor n s (close + 1) c') ?_ ?_ ?_ h c s rfl rfl hs
  · rintro _ h0 c' s hc rfl hs
    cases hc
    have h0 : s.cell = 0 := by simpa [State.cell_config] using h0
    exact ⟨1, by simpa only [h0, if_true] using hs.2⟩
  · rintro _ e _ _ c' s he
    cases he
  · rintro _ d r h0 hb _ ih c' s rfl rfl hs
    have h0 : s.cell ≠ 0 := by simpa [State.cell_config] using h0
    obtain ⟨t, ht, htpc, htc, hts⟩ := hs.2
    rw [if_neg h0] at htpc
    obtain ⟨n, u, hu, hupc, huc, hus⟩ := (hbody t hts htpc).1 d (htc ▸ hb)
    obtain ⟨k, w, hw, h⟩ := ih c' u rfl huc (hclose u hus hupc)
    exact ⟨1 + (n + k), w, ht.trans (hu.trans hw), h⟩

theorem loop_goes_on (hbody : ∀ s : State, s.Sound floor → s.pc = start + 1 → m.Follows floor body close s)
    (hclose : ∀ s : State, s.Sound floor → s.pc = close → m.Tests floor start close s)
    (hs : m.Tests floor start close s)
    (h : (Comp.loop (fun s => s.cell != 0) (body.exec floor) s.config).run n = none) :
    ∃ k t, n ≤ k ∧ m.Steps k s t := by
  induction n generalizing s with
  | zero => exact ⟨0, s, Nat.le_refl 0, .refl s⟩
  | succ n ih =>
    have h0 : s.cell ≠ 0 := by
      intro h0
      simp [Comp.loop, Comp.loopRun, State.cell_config, h0] at h
    obtain ⟨t, ht, htpc, htc, hts⟩ := hs.2
    rw [if_neg h0] at htpc
    have h0' : t.config.cell ≠ 0 := by rwa [htc]
    rw [← htc] at h
    simp only [Comp.loop, Comp.loopRun, bne_iff_ne, ne_eq, h0', not_false_eq_true, if_true] at h
    cases hb : (body.exec floor t.config).run n with
    | none =>
      obtain ⟨k, u, hk, hu⟩ := (hbody t hts htpc).2 n hb
      exact ⟨1 + k, u, by omega, ht.trans hu⟩
    | some r =>
      cases r with
      | error e => simp [hb] at h
      | ok c =>
        obtain ⟨k, u, hu, hupc, huc, hus⟩ := (hbody t hts htpc).1 c ⟨n, hb⟩
        obtain ⟨k', w, hk', hw⟩ := ih (hclose u hus hupc) (by simpa [hb, huc, Comp.loop] using h)
        exact ⟨1 + (k + k'), w, by omega, ht.trans (hu.trans hw)⟩

theorem loop_follows {q q' : Nat}
    (hbody : ∀ s : State, s.Sound floor → s.pc = start + 1 → m.Follows floor body close s)
    (hclose : ∀ s : State, s.Sound floor → s.pc = close → m.Tests floor start close s)
    (hs : m.Tests floor start close s)
    (hrest : ∀ s : State, s.Sound floor → s.pc = close + 1 → m.Follows floor rest stop s) :
    m.Follows floor (.loop q q' body rest) stop s := by
  constructor
  · intro c hc
    rcases Comp.bind_ends.1 hc with ⟨_, _, h⟩ | ⟨d, hd, hc⟩
    · cases h
    · obtain ⟨n, t, ht, htpc, htc, hts⟩ := loop_leads hbody hclose hs hd
      obtain ⟨k, u, hu, h⟩ := (hrest t hts htpc).1 c (htc ▸ hc)
      exact ⟨n + k, u, ht.trans hu, h⟩
  · intro n hn
    rw [Block.exec, Comp.run_bind] at hn
    cases hl : (Comp.loop (fun s => s.cell != 0) (body.exec floor) s.config).run n with
    | none => exact loop_goes_on hbody hclose hs hl
    | some r =>
      cases r with
      | error e => simp [hl] at hn
      | ok d =>
        obtain ⟨k, t, ht, htpc, htc, hts⟩ := loop_leads hbody hclose hs ⟨n, hl⟩
        obtain ⟨k', u, hk', hu⟩ := (hrest t hts htpc).2 n (by simpa [hl, htc] using hn)
        exact ⟨k + k', u, by omega, ht.trans hu⟩

theorem follows (hb : b.At m.code start stop) (hs : s.Sound floor) (hpc : s.pc = start) :
    m.Follows floor b stop s := by
  induction b generalizing start stop s with
  | nil =>
    cases hb
    refine ⟨fun c hc => ⟨0, s, .refl s, hpc, ?_, hs⟩, fun n hn => by cases hn⟩
    cases Comp.pure_ends.1 hc
    rfl
  | move p d rest ih =>
    by_cases hd : 0 ≤ d ∨ floor ≤ s.head + d
    · refine .of_leads (.of_step (hpc ▸ hb.1) (State.steps_move hs hd)) (fun t ht htpc => ?_) (if_pos hd)
      exact ih hb.2 ht (hpc ▸ htpc)
    · have he : (Block.move p d rest).exec floor s.config = .wrong .left := if_neg hd
      unfold Follows
      rw [he]
      refine ⟨fun c hc => ?_, fun n hn => ?_⟩
      · cases Comp.wrong_ends.1 hc
      · cases hn
  | add p v rest ih =>
    refine .of_leads (.of_step (hpc ▸ hb.1) (State.steps_add hs)) (fun t ht htpc => ?_) rfl
    exact ih hb.2 ht (hpc ▸ htpc)
  | write p rest ih =>
    refine .of_leads (.of_step (hpc ▸ hb.1) (State.steps_write hs)) (fun t ht htpc => ?_) rfl
    exact ih hb.2 ht (hpc ▸ htpc)
  | read p rest ih =>
    refine .of_leads (.of_step (hpc ▸ hb.1) (State.steps_read hs)) (fun t ht htpc => ?_) rfl
    exact ih hb.2 ht (hpc ▸ htpc)
  | loop p q body rest ihb ih =>
    obtain ⟨close, henter, hbody, hagain, hrest⟩ := hb
    have hbody' (s : State) (hs : s.Sound floor) (hpc : s.pc = start + 1) := ihb hbody hs hpc
    have hclose (s : State) (hs : s.Sound floor) (hpc : s.pc = close) : m.Tests floor start close s :=
      ⟨hs, .of_step (hpc ▸ hagain) (hpc ▸ State.steps_again hs)⟩
    have hstart : m.Tests floor start close s :=
      ⟨hs, .of_step (hpc ▸ henter) (hpc ▸ State.steps_enter hs)⟩
    exact loop_follows hbody' hclose hstart fun t ht htpc => ih hrest ht htpc

/-! ### Runs of a program -/

/-- A run from `s` that ends as the computation does, for every budget that is large
enough, and otherwise uses up its budget. -/
def Realizes (m : Machine) (floor : Nat) (s : State) (x : Comp Stray Config) : Prop :=
  (∀ c, x.Ends (.ok c) → ∃ n t, t.config = c ∧ t.Sound floor ∧
    (∀ limit budget, n ≤ budget → m.runFrom limit budget s = .ok t) ∧
    ∀ limit budget, budget < n → ∃ output, m.runFrom limit budget s = .error (.exhausted limit output)) ∧
  ((∀ r, ¬ x.Ends r) → ∀ limit budget, ∃ output,
    m.runFrom limit budget s = .error (.exhausted limit output))

theorem realizes_of_follows {c : Code} (hb : b.Follows c .nil)
    (hc : ∀ e, ¬ (c.exec floor s.config).Ends (.error e)) (hs : s.Sound floor) (hpc : s.pc = 0) :
    (⟨b.emit #[]⟩ : Machine).Realizes floor s (c.exec floor s.config) := by
  have hsim := hb floor s.config
  rw [show Block.nil.exec floor = pure from rfl, bind_pure] at hsim
  obtain ⟨h₁, h₂⟩ := hsim hc
  have hat : b.At (b.emit #[]) 0 (b.emit #[]).size := by
    rw [Block.size_emit]
    exact Block.at_emit fun _ _ => rfl
  obtain ⟨hf, hg⟩ := follows (m := ⟨b.emit #[]⟩) hat hs hpc
  constructor
  · intro t ht
    obtain ⟨t', ht', rfl⟩ := h₂ t ht
    obtain ⟨n, u, hu, hupc, huc, hus⟩ := hf t' ht'
    refine ⟨n, u, huc, hus, fun limit budget hn => ?_, fun limit budget hn => hu.exhausts hn⟩
    obtain ⟨k, rfl⟩ := Nat.exists_eq_add_of_le hn
    rw [hu.runFrom, runFrom_of_end (Nat.le_of_eq hupc.symm)]
  · intro hnever limit budget
    have hrun : (b.exec floor s.config).run (budget + 1) = none := by
      cases h : (b.exec floor s.config).run (budget + 1) with
      | none => rfl
      | some r =>
        obtain ⟨_, t, _, ht, _⟩ := h₁ r ⟨_, h⟩
        exact absurd ht (hnever _)
    obtain ⟨k, t, hk, ht⟩ := hg _ hrun
    exact ht.exhausts (by omega)

end Machine
end TapeC.Tape
