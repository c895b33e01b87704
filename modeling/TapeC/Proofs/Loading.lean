import TapeC.Proofs.Machine

/-! Structured programs on the machine. The text of a program is loaded, and the machine
then does what the program does from every state; so it does if comments are left out of
the text, and if each character is an operation of its own. -/

namespace TapeC.Tape

open Code

namespace Machine

/-- From its first operation on the machine does what the program does. -/
def Executes (m : Machine) (c : Code) : Prop :=
  ∀ floor (s : State), s.Sound floor → s.pc = 0 → (∀ e, ¬ (c.exec floor s.config).Ends (.error e)) →
    m.Realizes floor s (c.exec floor s.config)

/-- Loads a text so that each of its instructions is an operation. -/
def ofCharsPlain (cs : List Char) : Except Fault Machine :=
  match Block.plain cs with
  | .ok block => .ok ⟨block.emit #[]⟩
  | .error position => .error (.unmatchedBracket position)

variable {c : Code}

theorem executes_of_follows {b : Block} (hb : b.Follows c .nil) : (⟨b.emit #[]⟩ : Machine).Executes c :=
  fun _ _ hs hpc hc => realizes_of_follows hb hc hs hpc

theorem ofChars_executes (c : Code) :
    ∃ m, ofChars (c.charsThen []) = .ok m ∧ m.Executes c := by
  obtain ⟨b, hb, hfollows⟩ := Block.ofChars_charsThen c
  exact ⟨⟨b.emit #[]⟩, by rw [ofChars, hb], executes_of_follows hfollows⟩

theorem ofCharsPlain_executes (c : Code) :
    ∃ m, ofCharsPlain (c.charsThen []) = .ok m ∧ m.Executes c := by
  obtain ⟨b, hb, hfollows⟩ := Block.plain_charsThen c
  exact ⟨⟨b.emit #[]⟩, by rw [ofCharsPlain, hb], executes_of_follows hfollows⟩

theorem ofString_ofList (cs : List Char) : ofString (String.ofList cs) = ofChars cs := by
  rw [ofString, String.toList_ofList]

theorem ofString_text (c : Code) : ∃ m, ofString c.text = .ok m ∧ m.Executes c := by
  rw [text, Listing.text, ofString_ofList]
  exact ofChars_executes c

/-- What a run does is the same wherever the head has been before. -/
theorem step_lowest (s : State) (i : Instruction) (k : Nat) :
    ∃ k', State.step { s with lowest := k } i = (s.step i).map ({ · with lowest := k' }) := by
  obtain ⟨op, position⟩ := i
  cases op with
  | move distance =>
    refine ⟨min k (s.head + distance).toNat, ?_⟩
    simp only [State.step]
    split <;> rfl
  | add | write => exact ⟨k, rfl⟩
  | read =>
    refine ⟨k, ?_⟩
    simp only [State.step]
    split <;> rfl
  | enter | again =>
    refine ⟨k, ?_⟩
    by_cases h : s.tape.getD s.head 0 = 0 <;> simp only [State.step, State.cell, h, if_true, if_false, Except.map]

theorem runFrom_lowest {m : Machine} {limit budget : Nat} {s t : State} (h : m.runFrom limit budget s = .ok t)
    (k : Nat) : ∃ k', m.runFrom limit budget { s with lowest := k } = .ok { t with lowest := k' } := by
  induction budget generalizing s k with
  | zero =>
    rw [runFrom] at h ⊢
    split at h
    · cases h
    next hpc =>
      cases h
      exact ⟨k, if_neg hpc⟩
  | succ budget ih =>
    rw [runFrom] at h ⊢
    cases hi : m.code[s.pc]? with
    | none =>
      rw [hi] at h
      cases h
      exact ⟨k, rfl⟩
    | some i =>
      obtain ⟨k', hstep⟩ := step_lowest s i k
      simp only [hi, hstep] at h ⊢
      cases hs : s.step i with
      | error fault =>
        simp only [hs] at h
        cases h
      | ok next =>
        simp only [hs] at h
        exact ih h k'

/-- A program without its notes does the same. -/
theorem Executes.of_bare {m : Machine} (h : m.Executes c.bare) : m.Executes c := by
  intro floor s hs hpc hc
  rw [← exec_bare] at hc ⊢
  exact h floor s hs hpc hc

end Machine
end TapeC.Tape
