import TapeC.Proofs.Access

/-! Elements of arrays whose index is only known at run time. The code of an index leaves a distance;
what is done after that to the element at this distance, the last one left of the place where the
code works at most, is done to this cell and to no other one. -/

namespace TapeC.Lowering

open Layout Program Tape Routine Code Config Evaluation

variable {p base : Nat} {s : Config} {name : String} {v : Variable} {position : Position}
  {path : List (Selector (Index CodeAt))} {scopes : Scopes} {c : Code} {f g : Cell → Cell}
  {place : Place CodeAt} {t : Term CodeAt} {ts : List (Term CodeAt)} {work : Nat → Code} {value : CodeAt}

/-- Wherever the code of `index` leaves a distance that ends left of `p`, the program `c` changes the
cell there by `f` and leaves `g` of what it held. -/
def WorksOnElement (index : Code) (p base : Nat) (f g : Cell → Cell) (c : Code) : Prop :=
  ∀ s u, Runs 0 index s u → u.head = p + 1 → base + (u.cells p).toNat < p →
    ∃ r, Runs 0 c s r ∧
      Accesses p (base + (u.cells p).toNat) f (g (u.cells (base + (u.cells p).toNat))) u r

/-- As `WorksOnElement`, where the cell gets the value that the code of `operand` leaves. -/
def StoresToElement (index operand : Code) (p base : Nat) (c : Code) : Prop :=
  ∀ s u w, Runs 0 index s u → u.head = p + 1 → Runs 0 operand ((u.put (p + 1) 0).goto (p + 2)) w →
    w.head = p + 3 → w.cells (p + 1) = 0 → base + (w.cells p).toNat < p →
    ∃ r, Runs 0 c s r ∧
      Accesses p (base + (w.cells p).toNat) (fun _ => w.cells (p + 2)) (w.cells (p + 2)) w r

theorem onPlace_worksOnElement (hterms : place.terms = t :: ts) (hbase : place.base < p)
    (hw : ∀ n, 0 < n → Work 0 n (work n) f g) (hc : Lowers (onPlace place work p) c) :
    ∃ index, Lowers (sum (term t) ts p) index ∧ WorksOnElement index p place.base f g c := by
  rw [onPlace, hterms] at hc
  obtain ⟨index, hindex, hc⟩ := hc.bind
  cases lowers_pure.1 hc
  refine ⟨index, hindex, fun s u hu hhead hlt => ?_⟩
  obtain ⟨r, hr, ha⟩ := walk_accesses (Nat.zero_le _) hbase hhead (hw (p + 2 - place.base) (by omega))
  rw [reached, if_pos hlt] at ha
  refine ⟨r, ?_, ha⟩
  have hrun : Runs 0 (index ++ (within (place.stop - place.base) ++
      (walkRight ++ work (p + 2 - place.base) ++ left 1 ++ bringBack))) s r :=
    hu.append ((runs_within.2 rfl).append hr)
  simpa only [Runs, exec_append_eq, bind_assoc] using hrun

theorem lowers_place_eq {place' : Place CodeAt} (hv : scopes.find? name = some v)
    (hp : Place.ofPath v position path = .ok place) (h : Lowers (Lowering.place scopes name path position) place') :
    place' = place := by
  obtain ⟨v', hv', hp'⟩ := lowers_place h
  cases hv.symm.trans hv'
  cases hp.symm.trans hp'
  rfl

theorem read_worksOnElement (hv : scopes.find? name = some v) (hp : Place.ofPath v position path = .ok place)
    (hterms : place.terms = t :: ts) (hbase : place.base < p) (hc : Lowers (Lowering.read scopes name path position p) c) :
    ∃ index, Lowers (sum (term t) ts p) index ∧ WorksOnElement index p place.base id id c := by
  obtain ⟨place', hplace, hc⟩ := hc.bind
  obtain ⟨-, hc⟩ := Lowers.of_guard hc fun _ => not_lowers_fail
  cases lowers_place_eq hv hp hplace
  exact onPlace_worksOnElement hterms hbase (fun _ => copyFrom_work) hc

theorem assign_storesToElement (hv : scopes.find? name = some v) (hp : Place.ofPath v position path = .ok place)
    (hterms : place.terms = t :: ts) (hbase : place.base < p)
    (hc : Lowers (Lowering.assign scopes name path position value p) c) :
    ∃ index operand, Lowers (sum (term t) ts p) index ∧ Lowers (value (p + 2)) operand ∧
      StoresToElement index operand p place.base c := by
  obtain ⟨place', hplace, hc⟩ := hc.bind
  obtain ⟨-, hc⟩ := Lowers.of_guard hc fun _ => not_lowers_fail
  cases lowers_place_eq hv hp hplace
  rw [hterms] at hc
  obtain ⟨index, hindex, hc⟩ := hc.bind
  obtain ⟨operand, hoperand, hc⟩ := hc.bind
  cases lowers_pure.1 hc
  refine ⟨index, operand, hindex, hoperand, fun s u w hu hhead hw hhead' h0 hlt => ?_⟩
  have hclear : Runs 0 (clear ++ right 1) u ((u.put (p + 1) 0).goto (p + 2)) :=
    (runs_clear.2 rfl).append (runs_right.2 (by rw [store_def, head_put, hhead]))
  obtain ⟨r, hr, ha⟩ := walk_stores (Nat.zero_le _) hbase hhead' h0
  rw [reached, if_pos hlt] at ha
  refine ⟨r, ?_, ha⟩
  have hrun : Runs 0 (index ++ (within (place.stop - place.base) ++ ((clear ++ right 1) ++
      (operand ++ (walkRightCarrying ++ copyTo (p + 2 - place.base) ++ bringBack))))) s r :=
    hu.append ((runs_within.2 rfl).append (hclear.append (hw.append hr)))
  simpa only [Runs, exec_append_eq, bind_assoc] using hrun

theorem update_worksOnElement {op : UpdateOp} {before : Bool} (hv : scopes.find? name = some v)
    (hp : Place.ofPath v position path = .ok place) (hterms : place.terms = t :: ts) (hbase : place.base < p)
    (hc : Lowers (Lowering.update scopes name path position op before p) c) :
    ∃ index, Lowers (sum (term t) ts p) index ∧
      WorksOnElement index p place.base (updated op) (if before then updated op else id) c := by
  obtain ⟨place', hplace, hc⟩ := hc.bind
  obtain ⟨-, hc⟩ := Lowers.of_guard hc fun _ => not_lowers_fail
  cases lowers_place_eq hv hp hplace
  refine onPlace_worksOnElement hterms hbase (fun n hn => ?_) hc
  rw [← change_apply]
  cases before with
  | true => exact updateThenRead_work _ hn
  | false => exact readThenUpdate_work _ hn

/-- Reading, assigning and updating at an index that is computed at run time reaches the element at
this index and no other cell, on every tape. -/
theorem indexing_reaches_element (hv : scopes.find? name = some v) (hp : Place.ofPath v position path = .ok place)
    (hterms : place.terms = t :: ts) (hbase : place.base < p) :
    (∀ c, Lowers (Lowering.read scopes name path position p) c →
      ∃ index, Lowers (sum (term t) ts p) index ∧ WorksOnElement index p place.base id id c) ∧
    (∀ value c, Lowers (Lowering.assign scopes name path position value p) c →
      ∃ index operand, Lowers (sum (term t) ts p) index ∧ Lowers (value (p + 2)) operand ∧
        StoresToElement index operand p place.base c) ∧
    ∀ op before c, Lowers (Lowering.update scopes name path position op before p) c →
      ∃ index, Lowers (sum (term t) ts p) index ∧
        WorksOnElement index p place.base (updated op) (if before then updated op else id) c :=
  ⟨fun _ hc => read_worksOnElement hv hp hterms hbase hc, fun _ _ hc => assign_storesToElement hv hp hterms hbase hc,
    fun _ _ _ hc => update_worksOnElement hv hp hterms hbase hc⟩

/-- The element of an array of three cells, from the cell 1 on, at the index in the cell 0. -/
theorem indexing_reaches_element_of_three : ∃ c,
    Lowers (Lowering.read { inner := ⟨0, 4, [⟨"a", ⟨.int, [3]⟩, 1⟩]⟩ } "a"
      [.index ⟨none, ⟨1, 1⟩, fun p => return copyFrom p⟩] ⟨1, 1⟩ 4) c ∧
    ∀ s, s.head = 4 → (s.cells 0).toNat < 3 → ∃ r, Runs 0 c s r ∧ r.head = 5 ∧
      r.cells 4 = s.cells (1 + (s.cells 0).toNat) ∧ ∀ x < 4, r.cells x = s.cells x := by
  refine .imp (fun c hc => ⟨hc, fun s hs hlt => ?_⟩) ⟨_, [], _, rfl⟩
  obtain ⟨index, hindex, hworks⟩ := (indexing_reaches_element (v := ⟨"a", ⟨.int, [3]⟩, 1⟩) (p := 4) rfl rfl rfl
    (by decide)).1 c hc
  obtain rfl := lowers_pure.1 hindex
  obtain ⟨u, hu, hindex⟩ := (copyFrom_work (n := 4) (by decide)).accesses (s := s) (by omega)
  rw [hs] at hindex
  have hvalue : u.cells 4 = s.cells 0 := hindex.value
  obtain ⟨r, hr, ha⟩ := hworks s u hu hindex.head (by rw [hvalue]; change 1 + _ < 4; omega)
  rw [hvalue] at ha
  exact ⟨r, hr, ha.head, ha.value.trans (hindex.keeps (by change 1 + _ < 4; omega)),
    fun x hx => (ha.keeps hx).trans (hindex.keeps hx)⟩

end TapeC.Lowering
