import TapeC.Proofs.Diagnostics
import TapeC.Proofs.Function
import TapeC.Proofs.Vicinity

/-! What is printed. A text is written byte by byte from one cell, with a second one to count in, and
no other cell is looked at. A number is written in decimal from the cell right of the head, without a
look at the cells to its left. A statement that prints a constant number may therefore print the text
of that number instead. -/

namespace TapeC.Tape

/-- From `s` to `t` the bytes are written, the head comes back, and the cells before the `n`-th stay as
they are. -/
structure Config.Writes (bytes : List Cell) (n : Nat) (s t : Config) : Prop where
  head : t.head = s.head
  output : t.output = s.output ++ bytes
  input : t.input = s.input
  below : ∀ x < n, t.cells x = s.cells x

/-- The text of the program is loaded, and from the state `s` the machine comes to an end where it has
written the bytes. It has not been left of where it was before. -/
def Machine.Writes (c : Code) (bytes : List Cell) (n : Nat) (s : State) : Prop :=
  ∃ m, Machine.ofString c.text = .ok m ∧
    m.RunsTo s fun t => s.config.Writes bytes n t.config ∧ t.lowest = s.lowest

theorem Machine.writes_of_runs {c : Code} {bytes : List Cell} {n : Nat} {s : State} {t : Config}
    (hs : s.Sound s.lowest) (hpc : s.pc = 0) (h : Code.Runs s.head c s.config t)
    (ht : s.config.Writes bytes n t) : Machine.Writes c bytes n s := by
  obtain ⟨m, hm, hexecutes⟩ := Machine.ofString_text c
  obtain ⟨k, w, hend, rfl, hlowest⟩ := hexecutes.runsTo hs hpc (h.mono hs.head)
  exact ⟨m, hm, k, w, hend, ht, hlowest⟩

end TapeC.Tape

namespace TapeC.Routine

open Tape Code Config TextMachine

variable {s : Config} {v : Cell}

/-! ### Texts -/

/-- From any tape the bytes of a text are written and nothing else, and the head comes back. It stands
only on the cell where it starts and the next one, which end with the last byte and empty. -/
theorem writeBytes_exact (p : Nat) (cells : Int → Cell) (input output bytes : List Cell) :
    ∃ v, EndsAmong (writeBytes bytes).listing.chars 2 ⟨0, p, cells, input, output⟩ v ∧
      Machine.ComesTo (writeBytes bytes) ⟨0, p, cells, input, output⟩ v ∧
      v.head = p ∧ v.cells p = bytes.getLastD 0 ∧ v.cells (p + 1) = 0 ∧ v.input = input ∧
      v.output = output ++ bytes := by
  obtain ⟨v, hv, hvt, hcomes⟩ := endsAmong_of_stays (n := 2) Nat.two_pos (stays_writeBytes (by decide)) rfl shows_cells
    (runs_writeBytes (s := ⟨p, fun y => cells y, input, output⟩) (Nat.le_refl p) bytes)
  refine ⟨v, hv, hcomes, hvt.head, ?_, ?_, hvt.input, hvt.output⟩
  · exact (hvt.cells p).trans (cells_window_add (j := 0) (by simp))
  · exact (hvt.cells (p + 1)).trans (cells_window_add (j := 1) (by simp))

/-! ### Numbers -/

/-- The bytes of a number in decimal, which has no leading zeros. -/
def decimal (v : Cell) : List Cell := Text.bytes (toString v.toNat).toList

/-- The cell of the returned value stays as it is, and so do the cells before it. -/
theorem printInt_runs (hs : s.cells (s.head + 1) = v) :
    ∃ t, Runs s.head Builtin.printInt.body s t ∧ s.Writes (decimal v) (s.head + 1) t := by
  refine ⟨(s.emit (decimal v)).window s.head [s.cell, 0, 0, 0, 0, 0, 0, 0, 0, 0] 0, ?_, rfl, rfl, rfl, fun x hx => ?_⟩
  · rw [decimal, Builtin.bytes_toString, ← hs]
    conv => arg 3; rw [eq_window s 10]
    exact (Builtin.runs_printInt (Nat.le_refl _)).2 rfl
  · rcases Nat.lt_or_eq_of_le (Nat.le_of_lt_succ hx) with hlt | rfl
    · exact cells_window_of_lt hlt
    · exact cell_window (by simp)

end TapeC.Routine

namespace TapeC.Lowering

open Layout Program Tape Routine Code Config Evaluation

variable {act : Activation} {scopes : Scopes} {e : Expr} {p : Nat} {v : Cell} {c : Code} {s : Config}

/-! ### Statements -/

theorem expr_runs_of_constant (he : e.constant? = some v) (hc : expr act scopes e s.head = pure c) :
    ∃ t, Runs s.head c s t ∧ Leaves s.head v s t := by
  have hsim := expr_evaluatesAt_of_closed ⟨act.definitions, fun _ _ => never⟩ (Expr.isClosed_of_constant he) s.head
    (Nat.le_refl _) c ⟨[], [], by rw [hc]; rfl⟩ s ⟨[], [], 0, s.input, s.output⟩ rfl ⟨rfl, rfl⟩
  rw [expr_of_constant he] at hsim
  obtain ⟨-, hends⟩ := hsim fun e h => by cases Comp.pure_ends.1 h
  obtain ⟨t, ht, hy⟩ := hends (v, _) (Comp.pure_ends.2 rfl)
  exact ⟨t, ht, hy.head, hy.value, fun x hx => hy.keeps x hx fun h => h, hy.holds.1, hy.holds.2⟩

/-- A call that prints a number with a constant value. The head goes back to the cell of the returned
value. -/
theorem call_printInt_runs (he : e.constant? = some v) (position : Position) (s : Config) :
    ∃ c t, expr act scopes (.call "printint" [e] position) s.head = pure c ∧
      Runs s.head (c ++ left 1) s t ∧ s.Writes (decimal v) s.head t := by
  have hcallable : act.definitions.callable? "printint" = some (.builtin .printInt) := rfl
  obtain ⟨a, ha⟩ : ∃ c, expr act scopes e (s.head + 1) = pure c := expr_pure_of_constant he _
  -- the argument is put behind the cell of the returned value
  obtain ⟨r, hr, hleaves⟩ := expr_runs_of_constant (s := (s.put s.head 0).goto (s.head + 1)) he ha
  have hargument : Runs s.head (clear ++ right 1 ++ (a ++ skip)) s r :=
    ((runs_clear.2 rfl).append (runs_right.2 rfl)).append ((hr.mono (Nat.le_succ _)).append (runs_skip.2 rfl))
  have hhead : r.head = s.head + 2 := hleaves.head
  have hback : Runs s.head (left 2) r (r.goto s.head) :=
    (runs_left (by omega)).2 (by rw [hhead, Nat.add_sub_cancel])
  -- the body runs on it
  obtain ⟨t, ht, hwrites⟩ := printInt_runs (s := r.goto s.head) hleaves.value
  have hplace : t.head = s.head := hwrites.head
  have hright : Runs s.head (right 1 ++ left 1) t t := by
    refine (runs_right.2 rfl).append ((runs_left ?_).2 ?_)
    · rw [head_goto, hplace]
    · rw [goto_goto, head_goto, Nat.add_sub_cancel, goto_head]
  refine ⟨_, t, by simp only [expr, exprs, call, hcallable, arguments, ha]; rfl, ?_, hplace, ?_, ?_, fun x hx => ?_⟩
  · have hrun := ((hargument.append hback).append ht).append hright
    rwa [Runs, ← exec_append_assoc] at hrun
  · rw [hwrites.output, output_goto, hleaves.output]
    rfl
  · rw [hwrites.input, input_goto, hleaves.input]
    rfl
  · rw [hwrites.below x (Nat.lt_succ_of_lt hx), cells_goto, hleaves.below x (Nat.lt_succ_of_lt hx), cells_goto,
      cells_put_of_ne (Nat.ne_of_lt hx)]

/-- The comment of a statement does nothing. -/
theorem noted_runs (act : Activation) (st : Statement) {code : CodeIn} {t : Config} {floor : Nat}
    (hcode : code scopes = pure (c, scopes)) (h : Runs floor c s t) :
    ∃ c', noted act st code scopes = pure (c', scopes) ∧ Runs floor c' s t := by
  refine ⟨((noteText? st).map act.note).getD skip ++ c, by rw [noted, hcode, pure_bind], .append ?_ h⟩
  cases noteText? st with
  | none => exact runs_skip.2 rfl
  | some text => exact runs_note_of_activation

/-- A statement without a fault or a warning writes the bytes and leaves the scopes as they are. -/
def PlainlyPrints (act : Activation) (scopes : Scopes) (st : Statement) (bytes : List Cell) (s : Config) : Prop :=
  ∃ c t, statement act st scopes = pure (c, scopes) ∧ Runs s.head c s t ∧ s.Writes bytes s.head t

theorem number_printed (act : Activation) (he : e.constant? = some v) (position : Position)
    (hoffset : scopes.offset = s.head) :
    PlainlyPrints act scopes (.expr (.call "printint" [e] position)) (decimal v) s := by
  obtain ⟨c, t, hc, ht, hwrites⟩ := call_printInt_runs he position s
  have hcode : plain (discard fun scopes => expr act scopes (.call "printint" [e] position)) scopes =
      pure (c ++ left 1, scopes) := by
    rw [plain, discard, hoffset, hc, pure_bind, pure_bind]
  obtain ⟨c', hc', ht'⟩ := noted_runs act (.expr (.call "printint" [e] position)) hcode ht
  exact ⟨c', t, hc', ht', hwrites⟩

theorem text_printed (act : Activation) (scopes : Scopes) (text : String) (position : Position) (s : Config) :
    PlainlyPrints act scopes (.print text position) (Text.bytes text.toList) s := by
  have hcode : plain (fun _ => return writeBytes (Text.bytes text.toList)) scopes =
      pure (writeBytes (Text.bytes text.toList), scopes) := rfl
  obtain ⟨c, hc, hrun⟩ := noted_runs act (.print text position) hcode (runs_writeBytes (Nat.le_refl s.head) _)
  exact ⟨c, _, hc, hrun, rfl, rfl, rfl, fun x => cells_window_of_lt⟩

/-- From any tape the machine prints a number in decimal and changes no cell up to that of the returned
value. If it is a constant number, the statement that prints it and the one that is put in its place
both have code, which writes the same, and leaves the head and the cells before it as they are. -/
theorem printInt_prints (s : Tape.State) (hs : s.Sound s.lowest) (hpc : s.pc = 0) :
    Machine.Writes Builtin.printInt.body (decimal (s.tape.getD (s.head + 1) 0)) (s.head + 1) s ∧
    ∀ act scopes e v position, scopes.offset = s.head → Expr.constant? e = some v →
      let called : Statement := .expr (.call "printint" [e] position)
      called.printConstants = .print (toString v.toNat) position ∧
      ∃ c c', statement act called scopes = pure (c, scopes) ∧
        statement act called.printConstants scopes = pure (c', scopes) ∧
        Machine.Writes c (decimal v) s.head s ∧ Machine.Writes c' (decimal v) s.head s := by
  constructor
  · obtain ⟨t, ht, hwrites⟩ := printInt_runs (s := s.config) rfl
    exact Machine.writes_of_runs hs hpc ht hwrites
  · intro act scopes e v position hoffset he called
    have hprinted : called.printConstants = .print (toString v.toNat) position := by
      simp only [called, Statement.printConstants, Expr.printed?, he]
      rfl
    obtain ⟨c, t, hc, hrun, hwrites⟩ := number_printed act he position (s := s.config) hoffset
    obtain ⟨c', t', hc', hrun', hwrites'⟩ := text_printed act scopes (toString v.toNat) position s.config
    exact ⟨hprinted, c, c', hc, hprinted ▸ hc', Machine.writes_of_runs hs hpc hrun hwrites,
      Machine.writes_of_runs hs hpc hrun' hwrites'⟩

/-- The product of six and seven, printed from cell one of a tape that is not empty. -/
theorem printInt_prints_product :
    let s : Tape.State := { head := 1, lowest := 0, tape := #[5, 6, 7, 8], input := [9] }
    let scopes := Scopes.empty.reserve 1
    let product : Expr := .binary .multiply (.number 6 .start) (.number 7 .start) .start
    let called : Statement := .expr (.call "printint" [product] .start)
    s.Sound s.lowest ∧ s.pc = 0 ∧ scopes.offset = s.head ∧ product.constant? = some 42 ∧ decimal 42 = [52, 50] ∧
      Machine.Writes Builtin.printInt.body [55] 2 s ∧ called.printConstants = .print "42" .start ∧
      ∃ c c', statement (outermost {} true 0) called scopes = pure (c, scopes) ∧
        statement (outermost {} true 0) called.printConstants scopes = pure (c', scopes) ∧
        Machine.Writes c [52, 50] 1 s ∧ Machine.Writes c' [52, 50] 1 s := by
  intro s scopes product called
  have hs : s.Sound s.lowest := ⟨by decide, rfl, Nat.zero_le _⟩
  have hargument : decimal (s.tape.getD (s.head + 1) 0) = [55] := by decide
  have hproduct : decimal 42 = [52, 50] := by decide
  obtain ⟨hbody, hstatement⟩ := printInt_prints s hs rfl
  rw [hargument] at hbody
  have hprinted := hstatement (outermost {} true 0) scopes product 42 .start rfl (by decide)
  rw [hproduct] at hprinted
  exact ⟨hs, rfl, rfl, by decide, hproduct, hbody, hprinted⟩

end TapeC.Lowering
