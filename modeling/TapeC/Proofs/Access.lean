import TapeC.Proofs.Distance
import TapeC.Proofs.Walk

/-! Reading, updating and assigning cells of variables. -/

namespace TapeC.Lowering

open Layout Program Tape Routine Code Config Comp Evaluation

variable {F : Frame} {p q : Nat} {s : Config} {σ : Store} {name : String} {v : Variable}
  {position : Position} {P : List (Selector (Index CodeAt))} {E : List (Selector (Index (Eval Cell)))}
  {scopes : Scopes} {c : Code} {f g : Cell → Cell}

/-- The scopes around code at `p` or right of it and the frame that they make. -/
structure Describes (F : Frame) (scopes : Scopes) (p : Nat) : Prop where
  find : ∀ name, scopes.find? name = F.vars.find? (·.name == name)
  fits : F.Fits p
  sound : ∀ v ∈ F.vars, v.shape.type.Sound

theorem Describes.stop_le (hF : Describes F scopes p) (hv : scopes.find? name = some v) : v.cell + v.size ≤ p := by
  rw [hF.find] at hv
  exact hF.fits.below v (List.mem_of_find?_eq_some hv)

theorem lowers_place {place : Place CodeAt}
    (h : Lowers (Lowering.place scopes name P position) place) :
    ∃ v, scopes.find? name = some v ∧ Place.ofPath v position P = .ok place := by
  obtain ⟨v, hv, h⟩ := h.bind
  obtain ⟨place', hp, h⟩ := h.bind
  have h := h.of_warning
  cases lowers_pure.1 h
  refine ⟨v, ?_, lowers_lift.1 hp⟩
  have hv := lowers_lift.1 hv
  rw [Scopes.lookup] at hv
  split at hv
  next u hu => cases hv; exact hu
  next => cases hv

/-- The cell of a variable that a place is found to be. -/
structure Reached (F : Frame) (name : String) (v : Variable) (target : Target) : Prop where
  name : target.name = name
  inside : target.offset < v.size

theorem isCell_size {shape : Shape} (h : shape.isCell = true) : shape.size = 1 := by
  obtain ⟨type, dims⟩ := shape
  simp only [Shape.isCell, Bool.and_eq_true] at h
  match type, dims with
  | .int, [] => rfl
  | .struct _ _, [] => cases h.2
  | _, _ :: _ => cases h.1

/-- The terms of a place are the indices of its path that have a value only when the program runs. -/
theorem terms_evaluate {place : Place CodeAt} (hP : PathEvaluates 0 F.matching p P E)
    (hp : Place.ofPath v position P = .ok place) : TermsEvaluate 0 F.matching p place.terms (runtime E) := by
  have h := runtime_evaluate hP
  rwa [← Place.ofPath_terms hp, List.forall₂_map_left_iff] at h

theorem runtime_of_static {place : Place CodeAt} (hP : PathEvaluates 0 F.matching p P E)
    (hp : Place.ofPath v position P = .ok place) (ht : place.terms = []) : runtime P = [] ∧ runtime E = [] := by
  have hE := terms_evaluate hP hp
  rw [ht] at hE
  exact ⟨by rw [← Place.ofPath_terms hp, ht, List.map_nil], List.forall₂_nil_left_iff.1 hE⟩

theorem cellPlace_run (hP : PathEvaluates 0 F.matching p P E) :
    (cellPlace name E position).run σ = (Evaluation.arguments (runtime E)).run σ >>= fun r =>
      (do
        let (target, shape) ← select name position (filled P []) (filled P r.1)
        if shape.isCell then return target else never : Eval Target).run r.2 := by
  rw [cellPlace, Evaluation.place, evaluated_eq hP, filled_eq hP]
  simp

/-- The cell at the distance that the tape holds. -/
theorem cellPlace_ends {place : Place CodeAt} {vs : List Cell} (hF : Describes F scopes p)
    (hσ : F.Holds s σ) (hv : scopes.find? name = some v)
    (hp : Place.ofPath v position P = .ok place) (hcell : place.shape.isCell = true)
    (hlen : vs.length = (runtime P).length) {y : Comp Wrong (Target × Store)}
    (hy : y = (do
      let (target, shape) ← select name position (filled P []) (filled P vs)
      if shape.isCell then return target else never : Eval Target).run σ) :
    (∃ w, y.Ends (.error w)) ∨ ∃ i, y.Ends (.ok (⟨name, i⟩, σ)) ∧ i < v.size ∧
      v.cell + i = place.base + (weighted place.terms vs).toNat := by
  subst hy
  rw [hF.find] at hv
  have hsound := hF.sound v (List.mem_of_find?_eq_some hv)
  have hsize := isCell_size hcell
  rw [StateT.run_bind]
  rcases select_ends hσ hv hsound hp hlen with
    ⟨w, hw⟩ | ⟨i, hi, hle, hbase⟩
  · exact .inl ⟨w, bind_ends.2 (.inl ⟨w, hw, rfl⟩)⟩
  · refine .inr ⟨i, bind_ends.2 (.inr ⟨_, hi, ?_⟩), by omega, hbase⟩
    simp only [hcell, if_true]
    exact pure_ends.2 rfl

/-- A place without terms is known at once. -/
theorem cellPlace_static {place : Place CodeAt} (hF : Describes F scopes p) (hσ : F.Holds s σ)
    (hP : PathEvaluates 0 F.matching p P E) (hv : scopes.find? name = some v)
    (hp : Place.ofPath v position P = .ok place) (hcell : place.shape.isCell = true)
    (ht : place.terms = []) :
    (∃ w, ((cellPlace name E position).run σ).Ends (.error w)) ∨
      ∃ i, ((cellPlace name E position).run σ).Ends (.ok (⟨name, i⟩, σ)) ∧ i < v.size ∧
        v.cell + i = place.base := by
  obtain ⟨hrun, hE⟩ := runtime_of_static hP hp ht
  have hlen : ([] : List Cell).length = (runtime P).length := by rw [hrun]; rfl
  have h := cellPlace_ends hF hσ hv hp hcell hlen rfl
  rw [ht] at h
  rw [cellPlace_run hP, hE]
  exact h

/-- The code for a distance leaves the sum of the terms. -/
theorem distance_sim {t : Term CodeAt} {ts : List (Term CodeAt)} {d : Code} (hF : F.Fits p)
    (hpq : p ≤ q) (h : TermsEvaluate 0 F.matching p (t :: ts) (runtime E)) (hd : Lowers (sum (term t) ts q) d)
    (hs : s.head = q) (hσ : F.Holds s σ) :
    Sim (fun u r => F.matching.Yields q s u (weighted (t :: ts) r.1) r.2) (d.exec 0 s)
      ((Evaluation.arguments (runtime E)).run σ) := by
  have hsum := distance_evaluatesAt (Nat.zero_le p) hF.below_matching h q hpq d hd s σ hs hσ
  rw [StateT.run_map] at hsum
  exact hsum.of_map

/-! ### Work on a place -/

/-- A run that works on the cell `x`, from a tape that matches the state. -/
structure Works (F : Frame) (p x : Nat) (f g : Cell → Cell) (s t : Config) (σ : Store) : Prop where
  accesses : ∃ u, F.Holds u σ ∧ F.matching.Keeps p s u ∧ Accesses p x f (g (u.cells x)) u t

theorem onPlace_sim {place : Place CodeAt} {work : Nat → Code} (hF : Describes F scopes p) (hpq : p ≤ q)
    (hP : PathEvaluates 0 F.matching p P E) (hv : scopes.find? name = some v)
    (hp : Place.ofPath v position P = .ok place) (hcell : place.shape.isCell = true)
    (hw : ∀ n, 0 < n → Work 0 n (work n) f g) (hc : Lowers (onPlace place work q) c)
    (hs : s.head = q) (hσ : F.Holds s σ) :
    Sim (fun t r => Reached F name v r.1 ∧ Works F q (v.cell + r.1.offset) f g s t r.2) (c.exec 0 s)
      ((cellPlace name E position).run σ) := by
  have hstop := hF.stop_le hv
  rw [onPlace] at hc
  split at hc
  next ht =>
    cases lowers_pure.1 hc
    rcases cellPlace_static hF hσ hP hv hp hcell ht with ⟨w, h⟩ | ⟨i, h, hi, hbase⟩
    · exact .of_wrong h
    · obtain ⟨t, ht, ha⟩ := (hw (q - place.base) (by omega)).accesses (s := s) (by omega)
      rw [hs, show q - (q - place.base) = v.cell + i by omega] at ha
      exact .of_ends ht h ⟨⟨rfl, hi⟩, ⟨s, hσ, .refl, ha⟩⟩
  next t ts ht =>
    obtain ⟨d, hd, hc⟩ := hc.bind
    cases lowers_pure.1 hc
    have hterms : TermsEvaluate 0 F.matching p (t :: ts) (runtime E) := ht ▸ terms_evaluate hP hp
    have hdist := distance_sim hF.fits hpq hterms hd hs hσ
    rw [cellPlace_run hP]
    simp only [exec_append_eq, bind_assoc]
    refine hdist.and_ends.bind fun u r ⟨hu, hr⟩ => ?_
    have hlen : r.1.length = (runtime P).length := by
      rw [arguments_length hr, (runtime_evaluate hP).length_eq]
    rcases cellPlace_ends hF hu.holds hv hp hcell hlen rfl with ⟨w, h⟩ | ⟨i, h, hi, hbase⟩
    · exact .of_wrong h
    · rw [ht, ← hu.value] at hbase
      obtain ⟨t, ht, ha⟩ := walk_accesses (s := u) (Nat.zero_le place.base) (show place.base < q by omega)
        hu.head (hw (q + 2 - place.base) (by omega))
      rw [← hbase, reached, if_pos (show v.cell + i < q by omega)] at ha
      have hrun : Runs 0 (within (place.stop - place.base) ++
          (walkRight ++ work (q + 2 - place.base) ++ left 1 ++ bringBack)) u t :=
        (runs_within.2 rfl).append ht
      refine Sim.of_ends ?_ h ⟨⟨rfl, hi⟩, ⟨u, hu.holds, hu.keeps, ha⟩⟩
      simpa only [Runs, exec_append_eq, bind_assoc] using hrun

theorem copyFrom_work {n : Nat} (hn : 0 < n) : Work 0 n (copyFrom n) id id := by
  intro s hs
  refine ⟨0, (runs_copyFrom hn (by omega)).2 ?_⟩
  rw [show s.put (s.head - n) (id (s.cells (s.head - n))) = s from by
    refine Config.ext rfl (fun x => ?_) rfl rfl
    rw [cells_put]
    split
    next hx => rw [hx, id]
    next => rfl]
  rfl

theorem updateThenRead_work {n : Nat} (k : Change) (hn : 0 < n) :
    Work 0 n (updateThenRead k n) k.apply k.apply :=
  fun _ _ => ⟨_, (runs_updateThenRead hn (by omega)).2 rfl⟩

theorem readThenUpdate_work {n : Nat} (k : Change) (hn : 0 < n) :
    Work 0 n (readThenUpdate k n) k.apply id :=
  fun _ _ => ⟨_, (runs_readThenUpdate hn (by omega)).2 rfl⟩

theorem change_apply (op : UpdateOp) : (Lowering.change op).apply = updated op := by
  funext v
  cases op with
  | increment | decrement => rfl
  | timesOne => exact (UInt8.mul_one v).symm
  | overOne => exact (UInt8.div_one (a := v)).symm
  | moduloOne => exact UInt8.mod_one.symm

/-! ### Loads and stores -/

theorem load_ends {i : Nat} (hF : Describes F scopes p) (hσ : F.Holds s σ)
    (hv : scopes.find? name = some v) (hi : i < v.size) :
    (∃ w, ((load ⟨name, i⟩).run σ).Ends (.error w)) ∨
      ((load ⟨name, i⟩).run σ).Ends (.ok (s.cells (v.cell + i), σ)) := by
  rw [hF.find] at hv
  obtain ⟨o, ho, hvo⟩ := hσ.find hv
  obtain ⟨k, hk⟩ : ∃ k, o.cells[i]? = some k :=
    Option.ne_none_iff_exists'.1 (by rw [ne_eq, List.getElem?_eq_none_iff, hvo.length]; omega)
  simp only [load, StateT.run_bind, StateT.run_get, pure_bind, ho, Option.bind_some, hk]
  cases k with
  | none => exact .inl ⟨.unset, wrong_ends.2 rfl⟩
  | some w =>
    rw [hvo.cells i w hk]
    exact .inr (pure_ends.2 rfl)

theorem store_run {target : Target} {w : Cell} :
    (Evaluation.store target w).run σ = pure ((), σ.change target.name (·.set target.offset w)) := rfl

/-- A store to the cell of a variable that an access ends with. -/
theorem accesses_holds {i : Nat} {w w' : Cell} {u t : Config} (hF : Describes F scopes p) (hpq : p ≤ q)
    (hσ : F.Holds u σ) (hv : scopes.find? name = some v) (hi : i < v.size)
    (h : Accesses q (v.cell + i) f w u t) (hw : w' = f (u.cells (v.cell + i))) :
    F.Holds t (σ.change name (·.set i w')) := by
  rw [hF.find] at hv
  subst hw
  exact hσ.change hF.fits hv hi (fun x hx => h.below x (by omega)) h.input h.output

theorem accesses_keeps {i : Nat} {w : Cell} {u t : Config} (hF : Describes F scopes p)
    (hv : scopes.find? name = some v) (hi : i < v.size)
    (h : Accesses q (v.cell + i) f w u t) (hk : F.matching.Keeps q s u) : F.matching.Keeps q s t := by
  intro x hx hc
  rw [hF.find] at hv
  have hne : x ≠ v.cell + i := by
    rintro rfl
    refine hc (.inl ⟨v, List.mem_of_find?_eq_some hv, by omega, ?_⟩)
    rw [Variable.stop]
    omega
  rw [h.below x hx, if_neg hne, hk x hx hc]

theorem accesses_yields {i : Nat} {w w' : Cell} {u t : Config} (hF : Describes F scopes p) (hpq : p ≤ q)
    (hσ : F.Holds u σ) (hv : scopes.find? name = some v) (hi : i < v.size) (h : Accesses q (v.cell + i) f w u t)
    (hk : F.matching.Keeps q s u) (hw : w' = f (u.cells (v.cell + i))) :
    F.matching.Yields q s t w (σ.change name (·.set i w')) :=
  ⟨h.head, h.value, accesses_holds hF hpq hσ hv hi h hw, accesses_keeps hF hv hi h hk⟩

/-! ### Expressions on a place -/

theorem read_evaluatesAt (hF : Describes F scopes p) (hP : PathEvaluates 0 F.matching p P E) :
    EvaluatesAt 0 F.matching p (Lowering.read scopes name P position)
      (do load (← cellPlace name E position)) := by
  intro q hpq c hc s σ hs hσ
  obtain ⟨place, hplace, hc⟩ := hc.bind
  obtain ⟨hcell, hc⟩ := Lowers.of_guard hc fun _ => not_lowers_fail
  obtain ⟨v, hv, hp⟩ := lowers_place hplace
  rw [StateT.run_bind]
  refine (onPlace_sim hF hpq hP hv hp (by simpa using hcell) (fun _ => copyFrom_work) hc hs hσ).then_right ?_
  rintro t ⟨target, τ⟩ ⟨⟨rfl, hi⟩, u, hu, hk, ha⟩
  rcases load_ends hF hu hv hi with ⟨w, h⟩ | h
  · exact .of_wrong h
  · refine .of_ends (pure_ends.2 rfl) h ⟨ha.head, ha.value, ?_, accesses_keeps hF hv hi ha hk⟩
    exact F.matching.holds_of_below (hF.fits.below_matching.mono hpq) hu (fun _ => ha.keeps) ha.input ha.output

theorem update_evaluatesAt {op : UpdateOp} {before : Bool} (hF : Describes F scopes p)
    (hP : PathEvaluates 0 F.matching p P E) :
    EvaluatesAt 0 F.matching p (Lowering.update scopes name P position op before)
      (Evaluation.update name E position op before) := by
  intro q hpq c hc s σ hs hσ
  obtain ⟨place, hplace, hc⟩ := hc.bind
  obtain ⟨hcell, hc⟩ := Lowers.of_guard hc fun _ => not_lowers_fail
  obtain ⟨v, hv, hp⟩ := lowers_place hplace
  have hwork : ∀ n, 0 < n →
      Work 0 n ((if before then updateThenRead (Lowering.change op) else readThenUpdate (Lowering.change op)) n)
        (updated op) (if before then updated op else id) := by
    intro n hn
    rw [← change_apply]
    cases before with
    | true => exact updateThenRead_work _ hn
    | false => exact readThenUpdate_work _ hn
  rw [Evaluation.update, StateT.run_bind]
  refine (onPlace_sim hF hpq hP hv hp (by simpa using hcell) hwork hc hs hσ).then_right ?_
  rintro t ⟨target, τ⟩ ⟨⟨rfl, hi⟩, u, hu, hk, ha⟩
  rw [StateT.run_bind]
  refine .of_start ((load_ends hF hu hv hi).imp_right fun h => ⟨_, h, ?_⟩)
  rw [StateT.run_bind, store_run, pure_bind]
  have hyields := accesses_yields hF hpq hu hv hi ha hk rfl
  refine .pure ⟨hyields.head, hyields.value.trans ?_, hyields.holds, hyields.keeps⟩
  cases before <;> rfl

/-! ### Assignments -/

/-- The value under the head is copied to a cell at a fixed distance. -/
theorem runs_copyBack {x : Nat} (hs : s.head = q + 1) (hx : x < q) :
    ∃ t, Runs 0 (left 1 ++ copyTo (q - x) ++ right 1) s t ∧
      Accesses q x (fun _ => s.cells q) (s.cells q) s t := by
  have hleft : Runs 0 (left 1) s (s.goto q) := (runs_left (by omega)).2 (by rw [hs]; rfl)
  have hcopy : Runs 0 (copyTo (q - x)) (s.goto q) (((s.goto q).put x (s.cells q)).put (q + 1) 0) := by
    refine (runs_copyTo (by omega) (by rw [head_goto]; omega)).2 ?_
    rw [head_goto, show q - (q - x) = x by omega]
    rfl
  refine ⟨_, (hleft.append hcopy).append (runs_right.2 rfl), rfl, ?_, fun y hy => ?_, rfl, rfl⟩
  · simp only [cells_goto, cells_put, show q ≠ q + 1 by omega, show q ≠ x by omega, if_false]
  · simp only [cells_goto, cells_put, show y ≠ q + 1 by omega, if_false]

variable {value : CodeAt} {y : Eval Cell} {i base : Nat} {d : Code}

/-- A store to a cell at a fixed distance. -/
theorem assign_fixed_sim (hF : Describes F scopes p) (hpq : p ≤ q) (hy : EvaluatesAt 0 F.matching p value y)
    (hd : Lowers (value q) d) (hv : scopes.find? name = some v) (hi : i < v.size) (hs : s.head = q)
    (hσ : F.Holds s σ) :
    Sim (fun t r => F.matching.Yields q s t r.1 r.2)
      ((d ++ left 1 ++ copyTo (q - (v.cell + i)) ++ right 1).exec 0 s)
      ((do
        let w ← y
        Evaluation.store ⟨name, i⟩ w
        return w).run σ) := by
  have hstop := hF.stop_le hv
  rw [StateT.run_bind]
  simp only [exec_append_eq, bind_assoc]
  refine (hy q hpq d hd s σ hs hσ).bind fun u r hu => ?_
  obtain ⟨t, ht, ha⟩ := runs_copyBack (x := v.cell + i) hu.head (by omega)
  rw [hu.value] at ha
  have hsim := ht.sim (v := (r.1, r.2.change name (·.set i r.1)))
    (S := fun t (r : Cell × Store) => F.matching.Yields q s t r.1 r.2) (δ := Wrong)
    (accesses_yields hF hpq hu.holds hv hi ha hu.keeps rfl)
  simp only [exec_append_eq, bind_assoc] at hsim
  exact hsim

/-- A store to the cell at the end of a walk, whose distance the tape holds. -/
theorem assign_walked_sim {k : Cell} {u : Config} (hF : Describes F scopes p) (hpq : p ≤ q)
    (hy : EvaluatesAt 0 F.matching p value y) (hd : Lowers (value (q + 2)) d) (hv : scopes.find? name = some v)
    (hi : i < v.size) (hbase : v.cell + i = base + k.toNat) (hu : F.matching.Yields q s u k σ) :
    Sim (fun t r => F.matching.Yields q s t r.1 r.2)
      ((clear ++ right 1 ++ d ++ walkRightCarrying ++ copyTo (q + 2 - base) ++ bringBack).exec 0 u)
      ((do
        let w ← y
        Evaluation.store ⟨name, i⟩ w
        return w).run σ) := by
  have hstop := hF.stop_le hv
  have hM := hF.fits.below_matching
  -- the cell between the distance and the value is emptied
  let u' : Config := (u.put (q + 1) 0).goto (q + 2)
  have hclear : Runs 0 clear u (u.put (q + 1) 0) := runs_clear.2 (by rw [store_def, hu.head])
  have hright : Runs 0 (right 1) (u.put (q + 1) 0) u' := runs_right.2 (by rw [head_put, hu.head])
  have hbelow (x : Nat) (hx : x < q + 1) : u'.cells x = u.cells x := by
    rw [cells_goto, cells_put_of_ne (by omega)]
  have hσ : F.Holds u' σ :=
    F.matching.holds_of_below (hM.mono (by omega : p ≤ q + 1)) hu.holds hbelow rfl rfl
  rw [StateT.run_bind]
  simp only [exec_append_eq, bind_assoc]
  refine hclear.bind_sim (hright.bind_sim ((hy (q + 2) (by omega) d hd u' σ rfl hσ).bind fun w r hw => ?_))
  have hzero : w.cells (q + 1) = 0 := by
    rw [hw.keeps.cell hM (by omega) (by omega), cells_goto, cells_put_self]
  have hcount : w.cells q = k := by
    rw [hw.keeps.cell hM (by omega) (by omega), hbelow q (by omega), hu.value]
  have hkeeps : F.matching.Keeps q s w := fun x hx hc => by
    rw [hw.keeps x (by omega) hc, hbelow x (by omega), hu.keeps x hx hc]
  obtain ⟨t, ht, ha⟩ := walk_stores (s := w) (Nat.zero_le base) (show base < q by omega) hw.head hzero
  rw [hcount, ← hbase, hw.value, reached, if_pos (show v.cell + i < q by omega)] at ha
  have hsim := ht.sim (v := (r.1, r.2.change name (·.set i r.1)))
    (S := fun t (r : Cell × Store) => F.matching.Yields q s t r.1 r.2) (δ := Wrong)
    (accesses_yields hF hpq hw.holds hv hi ha hkeeps rfl)
  simp only [exec_append_eq, bind_assoc] at hsim
  exact hsim

theorem assign_evaluatesAt (hF : Describes F scopes p) (hP : PathEvaluates 0 F.matching p P E)
    (hy : EvaluatesAt 0 F.matching p value y) :
    EvaluatesAt 0 F.matching p (Lowering.assign scopes name P position value)
      (Evaluation.assign name E position y) := by
  intro q hpq c hc s σ hs hσ
  obtain ⟨place, hplace, hc⟩ := hc.bind
  obtain ⟨hcell, hc⟩ := Lowers.of_guard hc fun _ => not_lowers_fail
  obtain ⟨v, hv, hp⟩ := lowers_place hplace
  have hcell : place.shape.isCell = true := by simpa using hcell
  rw [Evaluation.assign, StateT.run_bind]
  split at hc
  next ht =>
    obtain ⟨d, hd, hc⟩ := hc.bind
    cases lowers_pure.1 hc
    refine .of_start ((cellPlace_static hF hσ hP hv hp hcell ht).imp_right fun ⟨i, h, hi, hbase⟩ => ⟨_, h, ?_⟩)
    rw [← hbase]
    exact assign_fixed_sim hF hpq hy hd hv hi hs hσ
  next t ts ht =>
    obtain ⟨d, hd, hc⟩ := hc.bind
    obtain ⟨e, he, hc⟩ := hc.bind
    cases lowers_pure.1 hc
    have hterms : TermsEvaluate 0 F.matching p (t :: ts) (runtime E) := ht ▸ terms_evaluate hP hp
    rw [cellPlace_run hP]
    simp only [exec_append_eq, bind_assoc]
    refine (distance_sim hF.fits hpq hterms hd hs hσ).and_ends.bind fun u r ⟨hu, hr⟩ => ?_
    have hlen : r.1.length = (runtime P).length := by
      rw [arguments_length hr, (runtime_evaluate hP).length_eq]
    refine .of_start ((cellPlace_ends hF hu.holds hv hp hcell hlen rfl).imp_right
      fun ⟨i, h, hi, hbase⟩ => ⟨_, h, ?_⟩)
    rw [ht] at hbase
    have hsim := assign_walked_sim hF hpq hy he hv hi hbase hu
    simp only [exec_append_eq, bind_assoc] at hsim
    exact hsim

end TapeC.Lowering
