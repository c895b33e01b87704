import TapeC.Proofs.Locality
import TapeC.Proofs.Output

/-! Safety of compiled programs. The head never leaves the tape and ends behind the cell of the
value that `main` leaves, even if indices lead out of their arrays. What can upset it is an
assignment to an array element, which counts the cells that it passes in a cell of its own: if
its value is computed by another assignment that writes there, it does not find back. -/

namespace TapeC

open Layout Program Tape Lowering Routine Code

variable {bounded annotate : Bool} {i : Nat} {p : Program} {definitions : Definitions}
  {options : Options} {c : Compiled}

/-! ### Global variables -/

namespace Layout.Definitions

theorem track_concat_cons {a : Code} {as : List Code} :
    (concat (a :: as)).track i = a.track i >>= (concat as).track := by
  cases as with
  | nil => cases h : a.track i <;> simp [concat, h]
  | cons b as => rfl

theorem track_writeCells {values : List Cell} : (writeCells values).track i = some (i + values.length) := by
  induction values generalizing i with
  | nil => rfl
  | cons v values ih =>
    rw [writeCells, List.map_cons, track_concat_cons, track_seq track_setCell track_right]
    exact (ih (i := i + 1)).trans (by rw [List.length_cons, Nat.add_assoc, Nat.add_comm 1])

theorem track_globalContents {d : Declaration} {shape : Shape} {code : Code} (h : globalContents d shape = .ok code) :
    code.track i = some (i + shape.size) := by
  rw [globalContents] at h
  split at h
  · cases h
    rfl
  · obtain ⟨cells, hcells, h⟩ := bind_eq_ok.1 h
    obtain ⟨values, hvalues, h⟩ := bind_eq_ok.1 h
    cases h
    rw [track_writeCells, length_mapM hvalues, length_layOutContents hcells]

theorem track_addGlobal {structs : List StructLayout} {g g' : Globals} {d : Declaration}
    (hg : g.code.track 0 = some g.scopes.offset) (h : addGlobal structs g d = .ok g') :
    g'.code.track 0 = some g'.scopes.offset := by
  obtain ⟨type, -, h⟩ := bind_eq_ok.1 h
  obtain ⟨⟨v, scopes⟩, hdeclare, h⟩ := bind_eq_ok.1 h
  obtain ⟨code, hcode, h⟩ := bind_eq_ok.1 h
  cases h
  rw [Scopes.declare] at hdeclare
  split at hdeclare
  · cases hdeclare
  cases hdeclare
  exact track_seq hg (track_globalContents hcode)

/-- The code for the first contents of the global variables leads behind them. -/
theorem track_globalCode (h : ofProgram p = .ok definitions) :
    definitions.globalCode.track 0 = some definitions.globalsSize := by
  obtain ⟨structs, -, h⟩ := bind_eq_ok.1 h
  obtain ⟨g, hg, h⟩ := bind_eq_ok.1 h
  obtain ⟨functions, -, h⟩ := bind_eq_ok.1 h
  cases h
  exact foldlM_keeps (P := fun g => g.code.track 0 = some g.scopes.offset)
    (fun _ _ _ _ hg h => track_addGlobal hg h) rfl hg

end Layout.Definitions

/-! ### Whole programs -/

namespace Program

theorem callMain_confined {body : Code} (h : Definitions.ofProgram p = .ok definitions)
    (hc : Lowers (callMain definitions annotate) body) :
    Confined bounded (fun _ => True) definitions.globalsSize definitions.globalsSize
      (definitions.globalsSize + 1) body := by
  obtain ⟨main, -, hcall⟩ := callMain_lowers hc
  have hexpanded : Expanded (outermost definitions annotate definitions.globalsSize) :=
    ⟨⟨p, h⟩, Nat.le_refl _, annotate, _, [], rfl⟩
  exact call_confined hexpanded.contained hexpanded.prepared (fun _ h => absurd h List.not_mem_nil)
    (fun _ _ _ _ => trivial) _ (Nat.le_refl _) _ hcall

theorem lower_confined {body : Code} {size : Nat} {warnings : List Warning}
    (h : p.lower annotate = .ok (body, size, warnings)) : Confined bounded (fun _ => True) 0 0 (size + 1) body := by
  obtain ⟨definitions, hdefinitions, h⟩ := bind_eq_ok.1 h
  obtain ⟨⟨main, _⟩, hmain, h⟩ := bind_eq_ok.1 h
  cases h
  have hglobals : Confined bounded (fun _ => True) 0 0 definitions.globalsSize definitions.globalCode := by
    simpa using Confined.track 0 (Definitions.track_globalCode hdefinitions)
  exact hglobals.append ((callMain_confined hdefinitions ⟨_, _, hmain⟩).narrow (Nat.zero_le _))

theorem compile_confined (h : p.compile options = .ok c) :
    Confined bounded (fun _ => True) 0 0 (c.globalsSize + 1) c.code := by
  obtain ⟨⟨code, size, warnings⟩, hlower, h⟩ := bind_eq_ok.1 h
  cases h
  exact lower_confined hlower

end Program

/-! ### Runs of machines -/

namespace Tape.Machine

variable {m : Machine} {input : List Cell} {q : Nat}

/-- A run on an empty tape never leaves the tape. For each budget it uses that up, or it halts with
the head on `q`. -/
def StaysOnTape (m : Machine) (input : List Cell) (q : Nat) : Prop :=
  ∀ limit, (∃ t, m.run limit 0 input = .ok t ∧ t.head = q) ∨
    ∃ written, m.run limit 0 input = .error (.exhausted limit written)

theorem Executes.staysOnTape {c : Code} (hm : m.Executes c) (hstray : ∀ e, ¬ (c.exec 0 (blank input)).Ends (.error e))
    (hq : ∀ t, (c.exec 0 (blank input)).Ends (.ok t) → t.head = q) : m.StaysOnTape input q := by
  intro limit
  have hrealizes : m.Realizes 0 (State.initial 0 input) (c.exec 0 (blank input)) := by
    rw [← config_initial] at hstray ⊢
    exact hm 0 _ initial_sound rfl hstray
  by_cases hends : ∃ t, (c.exec 0 (blank input)).Ends (.ok t)
  · obtain ⟨t, ht⟩ := hends
    obtain ⟨n, u, rfl, -, hrun, hshort⟩ := hrealizes.1 t ht
    rcases Nat.lt_or_ge limit n with hlt | hle
    · exact .inr (hshort limit limit hlt)
    · exact .inl ⟨u, hrun limit limit hle, hq _ ht⟩
  · refine .inr (hrealizes.2 (fun r hr => ?_) limit limit)
    cases r with
    | ok t => exact hends ⟨t, hr⟩
    | error e => exact hstray e hr

end Tape.Machine

/-- The text of a compiled program is also loaded without taking its moves together. -/
theorem Compiled.loads_plain (c : Compiled) :
    ∃ m, Machine.ofCharsPlain c.text.toList = .ok m ∧ m.Executes c.code := by
  rw [Compiled.text]
  split
  · rw [String.toList_ofList, Code.listing, Code.strip_charsThen]
    obtain ⟨m, hm, h⟩ := Machine.ofCharsPlain_executes c.code.bare
    exact ⟨m, hm, h.of_bare⟩
  · rw [Code.text, Listing.text, String.toList_ofList]
    exact Machine.ofCharsPlain_executes c.code

namespace Program

/-- A run on an empty tape keeps all its indices in their arrays. -/
def InBounds (c : Compiled) (input : List Cell) : Prop := ¬ (c.code.checked true (blank input)).Ends (.error .outside)

/-- A run on an empty tape may have indices lead out of their arrays, if these have elements. But
when an assignment sets out for an array element, the cell that is going to count its way is still
as empty as it was before its value was computed. -/
def CountersKept (c : Compiled) (input : List Cell) : Prop :=
  ¬ (c.code.checked false (blank input)).Ends (.error .outside) ∧
    ¬ (c.code.checked false (blank input)).Ends (.error .occupied)

theorem compile_exec (h : p.compile options = .ok c) {input : List Cell}
    (hc : InBounds c input ∨ CountersKept c input) :
    (∀ e, ¬ (c.code.exec 0 (blank input)).Ends (.error e)) ∧
      ∀ t, (c.code.exec 0 (blank input)).Ends (.ok t) → t.head = c.globalsSize + 1 := by
  have hexec (bounded : Bool) (hkept : ∀ b, Breach.Expected bounded b →
      ¬ (c.code.checked bounded (blank input)).Ends (.error b)) :=
    (compile_confined h).exec (s := blank input) rfl hkept
  rcases hc with hbounds | ⟨houtside, hoccupied⟩
  · obtain ⟨hstray, hhead⟩ := hexec true fun b hb => by
      cases b with
      | left => exact hb.elim
      | outside => exact hbounds
      | occupied => cases hb
    exact ⟨hstray, fun t ht => (hhead t ht).1⟩
  · obtain ⟨hstray, hhead⟩ := hexec false fun b hb => by
      cases b with
      | left => exact hb.elim
      | outside => exact houtside
      | occupied => exact hoccupied
    exact ⟨hstray, fun t ht => (hhead t ht).1⟩

/-- Compiled programs are loaded, with or without taking moves together, and do not leave the
tape. When they halt, the head is behind the cell of the value of `main`. -/
theorem compile_stays_on_tape (h : p.compile options = .ok c) :
    ∃ m m', Machine.ofString c.text = .ok m ∧ Machine.ofCharsPlain c.text.toList = .ok m' ∧
      ∀ input, InBounds c input ∨ CountersKept c input →
        m.StaysOnTape input (c.globalsSize + 1) ∧ m'.StaysOnTape input (c.globalsSize + 1) := by
  obtain ⟨m, hm, hexecutes⟩ := c.loads
  obtain ⟨m', hm', hexecutes'⟩ := c.loads_plain
  refine ⟨m, m', hm, hm', fun input hc => ?_⟩
  obtain ⟨hstray, hhead⟩ := compile_exec h hc
  exact ⟨hexecutes.staysOnTape hstray hhead, hexecutes'.staysOnTape hstray hhead⟩

/-! ### Indices outside their arrays -/

/-- What a run on an empty tape comes to that looks at promises: the head, if it ends. -/
def checkedHead? (bounded : Bool) (p : Program) (fuel : Nat) : Option (Except Breach Nat) :=
  match p.compile {} with
  | .error _ => none
  | .ok c => ((c.code.checked bounded (blank [])).run fuel).map (·.map Config.head)

theorem ends_of_checkedHead? {fuel : Nat} {r : Except Breach Nat} (h : p.checkedHead? bounded fuel = some r)
    (hc : p.compile {} = .ok c) : ∃ r', (c.code.checked bounded (blank [])).Ends r' ∧ r'.map Config.head = r := by
  rw [checkedHead?, hc] at h
  obtain ⟨r', hr', h⟩ := Option.map_eq_some_iff.1 h
  exact ⟨r', ⟨fuel, hr'⟩, h⟩

theorem countersKept_of_checkedHead? {fuel q : Nat} (h : p.checkedHead? false fuel = some (.ok q))
    (hc : p.compile {} = .ok c) : CountersKept c [] := by
  obtain ⟨r, hr, hq⟩ := ends_of_checkedHead? h hc
  cases r with
  | error b => cases hq
  | ok t => exact ⟨fun h => (by cases h.unique hr), fun h => (by cases h.unique hr)⟩

theorem not_inBounds_of_checkedHead? {fuel : Nat} (h : p.checkedHead? true fuel = some (.error .outside))
    (hc : p.compile {} = .ok c) : ¬ InBounds c [] := by
  obtain ⟨r, hr, hq⟩ := ends_of_checkedHead? h hc
  cases r with
  | error b => cases hq; exact fun h => h hr
  | ok t => cases hq

/-- An index leads out of its array: `int a[1]; int i = 2; a[i] = 5;` -/
def assignsOutside : Program :=
  { functions := [⟨.void, "main", [],
      [.declare ⟨.int, "a", [1], none, .start⟩,
        .declare ⟨.int, "i", [], some (.single (.number 2 .start)), .start⟩,
        .expr (.assign (.access "a" [.index (.access "i" [] .start)] .start) none (.number 5 .start) .start)],
      .start⟩] }

/-- The value goes to the first of the cells that are passed on the way, and the head finds back. -/
theorem compile_stays_on_tape_of_outside :
    ∃ c m m', assignsOutside.compile {} = .ok c ∧ Machine.ofString c.text = .ok m ∧
      Machine.ofCharsPlain c.text.toList = .ok m' ∧ ¬ InBounds c [] ∧ CountersKept c [] ∧
      m.StaysOnTape [] (c.globalsSize + 1) ∧ m'.StaysOnTape [] (c.globalsSize + 1) := by
  have hlax : assignsOutside.checkedHead? false 10 = some (.ok 1) := by decide +kernel
  have hstrict : assignsOutside.checkedHead? true 10 = some (.error .outside) := by decide +kernel
  cases hc : assignsOutside.compile {} with
  | error fault =>
    rw [checkedHead?, hc] at hlax
    cases hlax
  | ok c =>
    have hkept := countersKept_of_checkedHead? hlax hc
    obtain ⟨m, m', hm, hm', hstays⟩ := compile_stays_on_tape hc
    obtain ⟨h, h'⟩ := hstays [] (.inr hkept)
    exact ⟨c, m, m', rfl, hm, hm', not_inBounds_of_checkedHead? hstrict hc, hkept, h, h'⟩

/-- The fault that ends a run on an empty tape, with a budget of `limit` operations. -/
def fault? (p : Program) (limit : Nat) : Option Tape.Fault :=
  match p.compile {} with
  | .error _ => none
  | .ok c =>
    match Machine.ofChars (textChars c) with
    | .error _ => none
    | .ok m =>
      match m.run limit 0 [] with
      | .error fault => some fault
      | .ok _ => none

theorem fault?_eq (p : Program) (limit : Nat) :
    p.fault? limit = (p.ending? {} limit []).bind fun
      | .error fault => some fault
      | .ok _ => none := by
  rw [ending?_bind]
  rfl

theorem underflows_of_fault? {limit position : Nat} (h : p.fault? limit = some (.underflow position)) :
    ∃ c m, p.compile {} = .ok c ∧ Machine.ofString c.text = .ok m ∧
      m.run limit 0 [] = .error (.underflow position) ∧ ¬ m.StaysOnTape [] (c.globalsSize + 1) := by
  unfold fault? at h
  split at h
  · cases h
  next c hc =>
    split at h
    · cases h
    next m hm =>
      split at h
      next fault hrun =>
        cases h
        refine ⟨c, m, hc, (ofString_text_eq c).trans hm, hrun, fun hstays => ?_⟩
        rcases hstays limit with ⟨t, ht, -⟩ | ⟨written, hwritten⟩
        · rw [hrun] at ht
          cases ht
        · rw [hrun] at hwritten
          cases hwritten
      · cases h

/-- The value of an assignment is computed by another one that writes into the counter of the
first: `int a[1]; int i = 3; a[i] = (a[i] = 2);` -/
def upsetsCounter : Program :=
  let element : Expr := .access "a" [.index (.access "i" [] .start)] .start
  { functions := [⟨.void, "main", [],
      [.declare ⟨.int, "a", [1], none, .start⟩,
        .declare ⟨.int, "i", [], some (.single (.number 3 .start)), .start⟩,
        .expr (.assign element none (.assign element none (.number 2 .start) .start) .start)],
      .start⟩] }

/-- The second field of an element of an array without elements, in place of which there is the
counter: `struct S { int x; int y; }; int i = 0; struct S a[0]; a[i].y = 9;` -/
def assignsNowhere : Program :=
  { structs := [⟨"S", [⟨.int, "x", [], .start⟩, ⟨.int, "y", [], .start⟩], .start⟩]
    functions := [⟨.void, "main", [],
      [.declare ⟨.int, "i", [], some (.single (.number 0 .start)), .start⟩,
        .declare ⟨.struct "S", "a", [0], none, .start⟩,
        .expr (.assign (.access "a" [.index (.access "i" [] .start), .field "y"] .start) none
          (.number 9 .start) .start)],
      .start⟩] }

theorem upsetsCounter_fault : upsetsCounter.fault? 692 = some (.underflow 310) := by
  rw [fault?_eq]
  decide +kernel

theorem assignsNowhere_fault : assignsNowhere.fault? 1000 = some (.underflow 191) := by
  rw [fault?_eq]
  decide +kernel

/-- Programs whose counters are upset leave the tape. -/
theorem upset_counters_leave_tape :
    (∃ c m, upsetsCounter.compile {} = .ok c ∧ Machine.ofString c.text = .ok m ∧
        m.run 692 0 [] = .error (.underflow 310) ∧ ¬ m.StaysOnTape [] (c.globalsSize + 1)) ∧
      ∃ c m, assignsNowhere.compile {} = .ok c ∧ Machine.ofString c.text = .ok m ∧
        m.run 1000 0 [] = .error (.underflow 191) ∧ ¬ m.StaysOnTape [] (c.globalsSize + 1) :=
  ⟨underflows_of_fault? upsetsCounter_fault, underflows_of_fault? assignsNowhere_fault⟩

end Program
end TapeC
