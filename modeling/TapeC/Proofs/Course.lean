import TapeC.Proofs.Joined
import TapeC.Proofs.Track

/-! The course of a structured program as its text is executed one character at a time: the text
stands anywhere in a longer one, leads from one tape to another, and on the way the head is among
certain cells. Where the head of a program can be followed, its course is known from what it does.
A program that never ends may hang: from some step on, the machine makes the same step forever. -/

namespace TapeC.Tape

open Config Code

variable {cs part : List Char} {c : Char} {k : Nat}

/-! ### Balanced texts -/

theorem balanced_of_forall (h : ∀ c ∈ cs, c ≠ '[' ∧ c ≠ ']') : Balanced cs := by
  induction cs with
  | nil => exact .nil
  | cons c cs ih =>
    obtain ⟨⟨hopen, hclose⟩, h⟩ := List.forall_mem_cons.1 h
    exact .cons hopen hclose (ih h)

theorem balanced_replicate (hopen : c ≠ '[') (hclose : c ≠ ']') (n : Nat) : Balanced (List.replicate n c) :=
  balanced_of_forall fun _ hd => (List.eq_of_mem_replicate hd).symm ▸ ⟨hopen, hclose⟩

theorem isInstruction_of_mem_comment {text : List Char} (h : c ∈ commentChars text) : isInstruction c = false := by
  have hstrip := strip_commentChars text
  rw [strip, List.filter_eq_nil_iff] at hstrip
  simpa using hstrip c h

theorem Code.balanced (b : Code) : Balanced (b.charsThen []) := by
  induction b with
  | skip | within | vacant => exact .nil
  | right n | left n | inc n | dec n =>
    rw [charsThen, List.append_nil]
    exact balanced_replicate (by decide) (by decide) n
  | write | read => exact .cons (by decide) (by decide) .nil
  | loop body ih =>
    rw [charsThen, charsThen_eq]
    exact .loop ih .nil
  | seq a b iha ihb =>
    rw [charsThen, charsThen_eq]
    exact iha.append ihb
  | note text =>
    rw [charsThen, List.append_nil]
    exact balanced_of_forall fun c hc => Block.ne_bracket_of_not_instruction (isInstruction_of_mem_comment hc)

namespace TextMachine

variable {H : Int → Prop} {u v w : State} {a b body : Code} {s t r : Config} {floor n m i j p : Nat}

/-- A tape without an end on the left shows what it has from cell zero on. -/
theorem shows_cells {place : Nat} {cells : Int → Cell} {input output : List Cell} :
    State.Shows ⟨place, p, cells, input, output⟩ ⟨p, fun y => cells y, input, output⟩ :=
  ⟨rfl, fun _ => rfl, rfl, rfl⟩

/-! ### Courses -/

/-- Wherever the text of the program stands, it leads from the tape of `s` to that of `t`, and on the
way the head is in `H`. -/
def Takes (H : Int → Prop) (b : Code) (s t : Config) : Prop :=
  ∀ (cs : List Char) (u : State), b.charsThen [] <+: cs.drop u.place → u.Shows s →
    ∃ n v, Way cs (fun w => H w.head) n u v ∧ v.place = u.place + (b.charsThen []).length ∧ v.Shows t

theorem Takes.append (ha : Takes H a s t) (hb : Takes H b t r) : Takes H (a ++ b) s r := by
  intro cs u hcs hu
  rw [show (a ++ b).charsThen [] = _ from charsThen_eq a _] at hcs ⊢
  obtain ⟨hacs, hbcs⟩ := Block.prefix_of_append_prefix hcs
  obtain ⟨n, v, hv, hplace, hvt⟩ := ha cs u hacs hu
  obtain ⟨m, w, hw, hplace', hwr⟩ := hb cs v (hplace ▸ hbcs) hvt
  exact ⟨n + m, w, hv.trans hw, by rw [hplace', hplace, List.length_append, Nat.add_assoc], hwr⟩

/-- A text without moves is passed over or has its effect where the head stands. -/
theorem Takes.of_char (hc : b.charsThen [] = [c]) (hH : H s.head)
    (hact : ∀ (cs : List Char) (u : State), u.Shows s →
      (u.act cs c).place = u.place + 1 ∧ (u.act cs c).Shows t) :
    Takes H b s t := by
  intro cs u hcs hu
  rw [hc] at hcs ⊢
  obtain ⟨hget, -⟩ := Block.getElem?_of_cons_prefix hcs
  obtain ⟨hplace, hshows⟩ := hact cs u hu
  exact ⟨1, _, .step (hu.head ▸ hH) (step_eq hget), hplace, hshows⟩

/-- One character many times. -/
theorem Takes.of_replicate {S : Nat → Config} (hc : b.charsThen [] = List.replicate m c)
    (hH : ∀ k < m, H (S k).head)
    (hact : ∀ k < m, ∀ (cs : List Char) (u : State), u.Shows (S k) →
      (u.act cs c).place = u.place + 1 ∧ (u.act cs c).Shows (S (k + 1))) :
    Takes H b (S 0) (S m) := by
  intro cs u hcs hu
  rw [hc] at hcs ⊢
  clear hc
  induction m generalizing S u with
  | zero => exact ⟨0, u, .refl, rfl, hu⟩
  | succ m ih =>
    obtain ⟨hget, hcs⟩ := Block.getElem?_of_cons_prefix hcs
    obtain ⟨hplace, hshows⟩ := hact 0 (Nat.succ_pos m) cs u hu
    obtain ⟨n, v, hv, hplace', hvs⟩ := ih (S := fun k => S (k + 1)) (fun k hk => hH (k + 1) (by omega))
      (fun k hk => hact (k + 1) (by omega)) (u.act cs c) (hplace ▸ hcs) hshows
    refine ⟨1 + n, v, Way.trans (.step ?_ (step_eq hget)) hv, ?_, hvs⟩
    · exact hu.head ▸ hH 0 (Nat.succ_pos m)
    · rw [hplace', hplace, List.length_replicate, List.length_replicate]
      omega

/-! ### Loops -/

theorem prefix_of_loop (hcs : (Code.loop body).charsThen [] <+: cs.drop k) :
    cs[k]? = some '[' ∧ body.charsThen [] <+: cs.drop (k + 1) ∧
      cs[k + 1 + (body.charsThen []).length]? = some ']' ∧
        Block.Passed cs (k + 1) (k + 1 + (body.charsThen []).length) := by
  rw [charsThen, charsThen_eq] at hcs
  obtain ⟨hopen, hbody, hclose, -⟩ := Block.places_of_loop_prefix hcs
  exact ⟨hopen, hbody, hclose, Block.passed_of_balanced body.balanced hbody⟩

theorem length_loop : ((Code.loop body).charsThen []).length = (body.charsThen []).length + 2 := by
  rw [charsThen, charsThen_eq, List.length_cons, List.length_append]
  rfl

/-- Both brackets of a loop test whether to go on. -/
theorem step_test (hcs : (Code.loop body).charsThen [] <+: cs.drop k)
    (hu : u.place = k ∨ u.place = k + 1 + (body.charsThen []).length) :
    step cs u = some (u.goto (if u.cell = 0 then k + ((body.charsThen []).length + 2) else k + 1)) := by
  obtain ⟨hopen, -, hclose, hpassed⟩ := prefix_of_loop hcs
  have hend : k + ((body.charsThen []).length + 2) = k + 1 + (body.charsThen []).length + 1 := by omega
  rcases hu with rfl | hplace
  · rw [step_eq hopen, hend]
    exact congrArg some (act_open (Block.closing_of_passed hpassed hclose))
  · rw [step_eq (hplace ▸ hclose), hend, ← hplace]
    exact congrArg some (act_close (hplace ▸ Block.opening_of_passed hopen hpassed))

/-- As `Takes` for the loop, where the machine may also stand at the end of a round. -/
def TakesLoop (H : Int → Prop) (body : Code) (s t : Config) : Prop :=
  ∀ (cs : List Char) (k : Nat), (Code.loop body).charsThen [] <+: cs.drop k → ∀ u : State,
    (u.place = k ∨ u.place = k + 1 + (body.charsThen []).length) → u.Shows s →
    ∃ n v, Way cs (fun w => H w.head) n u v ∧ v.place = k + ((body.charsThen []).length + 2) ∧ v.Shows t

/-- A loop whose rounds keep an invariant. -/
theorem takesLoop_of_rounds {I : Config → Prop} (hI : ∀ s t, I s → Runs floor body s t → I t ∧ Takes H body s t)
    (hH : ∀ s, I s → H s.head) (hs : I s) (hrun : Runs floor (loop body) s t) :
    I t ∧ TakesLoop H body s t := by
  refine Comp.loop_ends_induction (motive := fun s r => ∀ t, r = .ok t → I s → I t ∧ TakesLoop H body s t)
    ?stop ?fault ?round hrun t rfl hs
  case stop =>
    rintro s h0 t ht hs
    cases ht
    refine ⟨hs, fun cs k hcs u hplace hu => ?_⟩
    refine ⟨1, _, .step (hu.head ▸ hH s hs) (step_test hcs hplace), ?_, hu.goto⟩
    rw [if_pos (hu.cell.trans (by simpa using h0))]
    rfl
  case fault =>
    rintro s e - - t ⟨⟩
  case round =>
    rintro s s' r hne hb - ih t rfl hs
    obtain ⟨hs', hbody⟩ := hI s s' hs hb
    obtain ⟨ht, ih⟩ := ih t rfl hs'
    refine ⟨ht, fun cs k hcs u hplace hu => ?_⟩
    have hne : u.cell ≠ 0 := by simpa [hu.cell] using hne
    have hstep := step_test hcs hplace
    rw [if_neg hne] at hstep
    obtain ⟨n, v, hv, hplace', hvs⟩ := hbody cs (u.goto (k + 1)) (prefix_of_loop hcs).2.1 hu.goto
    obtain ⟨m, w, hw, hend, hwt⟩ := ih cs k hcs v (.inr hplace') hvs
    exact ⟨1 + n + m, w, (Way.trans (.step (hu.head ▸ hH s hs) hstep) hv).trans hw, hend, hwt⟩

theorem Takes.loop {I : Config → Prop} (hI : ∀ s t, I s → Runs floor body s t → I t ∧ Takes H body s t)
    (hH : ∀ s, I s → H s.head) (hs : I s) (hrun : Runs floor (loop body) s t) :
    I t ∧ Takes H (loop body) s t := by
  obtain ⟨ht, hloop⟩ := takesLoop_of_rounds hI hH hs hrun
  refine ⟨ht, fun cs u hcs hu => ?_⟩
  rw [length_loop]
  exact hloop cs u.place hcs u (.inl rfl) hu

/-! ### Programs that stay among a few cells -/

/-- The cell is one of `n` from `p` on. -/
def Among (p n : Nat) (x : Int) : Prop := p ≤ x ∧ x < p + n

theorem among_add (hs : s.head = p + i) (hi : i < n) : Among p n s.head := by
  simp only [Among, hs]
  omega

/-- Additions to one cell. -/
theorem Takes.of_amounts {d : Cell} (hc : b.charsThen [] = List.replicate m c) (hd : amount? c = some d)
    (hH : H s.head) (ht : t = s.store (s.cell + .ofNat m * d)) : Takes H b s t := by
  obtain ⟨S, hS⟩ : ∃ S : Nat → Config, ∀ k, S k = s.store (s.cell + .ofNat k * d) := ⟨_, fun _ => rfl⟩
  have htakes : Takes H b (S 0) (S m) := by
    refine .of_replicate hc (fun k _ => by rw [hS]; exact hH) fun k _ cs u hu => ?_
    rw [State.act_of_amount? hd]
    refine ⟨rfl, ?_⟩
    have hstore := (hu.goto (k := u.place + 1)).store (x := u.cell + d)
    have hcell : (S k).cell = s.cell + .ofNat k * d := by rw [hS, store_def, Config.cell, head_put, cells_put_self]
    rw [hu.cell, hcell] at hstore ⊢
    rw [hS, store_def, store_def, head_put, put_put_self] at hstore
    rwa [hS, ofNat_succ, UInt8.add_mul, UInt8.one_mul, ← UInt8.add_assoc]
  have h0 : S 0 = s := by simp [hS, store_def]
  rwa [h0, hS, ← ht] at htakes

theorem blank_of_comments (hpart : ∀ c ∈ part, isInstruction c = false) (hk : part <+: cs.drop k) :
    Blank cs k (k + part.length) := by
  induction part generalizing k with
  | nil => exact .refl k
  | cons c part ih =>
    obtain ⟨hc, hk⟩ := Block.getElem?_of_cons_prefix hk
    obtain ⟨hinstruction, hpart⟩ := List.forall_mem_cons.1 hpart
    rw [List.length_cons, Nat.add_comm part.length, ← Nat.add_assoc]
    exact .cons hc hinstruction (ih hpart hk)

theorem takes_note {text : String} (hH : H s.head) : Takes H (note text) s s := by
  intro cs u hcs hu
  rw [charsThen, List.append_nil] at hcs ⊢
  obtain ⟨n, hn⟩ := way_of_blank (blank_of_comments (fun _ => isInstruction_of_mem_comment) hcs)
    (P := fun w => H w.head) fun y _ => (congrArg H hu.head).mpr hH
  exact ⟨n, _, hn, rfl, hu.goto⟩

theorem eq_of_runs_left (h : Runs floor (left m) s t) : t = s.goto (s.head - m) := by
  by_cases hle : floor + m ≤ s.head
  · exact (runs_left hle).1 h
  · rw [Runs, Code.exec, if_neg hle] at h
    cases Comp.wrong_ends.1 h

theorem takes_right (hs : s.head = p + i) (hi : i + m < n) : Takes (Among p n) (right m) s (s.goto (s.head + m)) := by
  refine .of_replicate (c := '>') (S := fun k => s.goto (s.head + k)) (List.append_nil _)
    (fun k hk => among_add (i := i + k) ?_ (by omega)) fun k _ cs u hu => ?_
  · rw [head_goto, hs, Nat.add_assoc]
  · exact ⟨rfl, hu.goto.move (d := 1) (by omega)⟩

theorem takes_left (hs : s.head = p + i) (hi : i < n) (hm : m ≤ i) :
    Takes (Among p n) (left m) s (s.goto (s.head - m)) := by
  refine .of_replicate (c := '<') (S := fun k => s.goto (s.head - k)) (List.append_nil _)
    (fun k hk => among_add (i := i - k) ?_ (by omega)) fun k hk cs u hu => ?_
  · rw [head_goto, hs, Nat.add_sub_assoc (by omega)]
  · have hmove := (hu.goto (k := u.place + 1)).move (d := -1) (by rw [head_goto]; omega)
    rw [show ((s.goto (s.head - k)).head + -1 : Int).toNat = s.head - (k + 1) by rw [head_goto]; omega] at hmove
    exact ⟨rfl, hmove⟩

/-- A program whose head can be followed among `n` cells keeps it there. -/
theorem takes_of_stays (h : b.stays n i = some j) (hi : i < n) (hs : s.head = p + i) (hr : Runs floor b s t) :
    t.head = p + j ∧ Takes (Among p n) b s t := by
  induction b generalizing i j s t with
  | skip =>
    cases h
    cases runs_skip.1 hr
    exact ⟨hs, fun cs u _ hu => ⟨0, u, .refl, rfl, hu⟩⟩
  | right m =>
    rw [stays] at h
    split at h
    next hlt =>
      cases h
      cases runs_right.1 hr
      exact ⟨by rw [head_goto, hs, Nat.add_assoc], takes_right hs hlt⟩
    next => cases h
  | left m =>
    rw [stays] at h
    split at h
    next hle =>
      cases h
      cases eq_of_runs_left hr
      exact ⟨by rw [head_goto, hs, Nat.add_sub_assoc hle], takes_left hs hi hle⟩
    next => cases h
  | inc m =>
    cases h
    refine ⟨?_, .of_amounts (List.append_nil _) (c := '+') rfl (among_add hs hi) ?_⟩
    · cases runs_inc.1 hr; exact hs
    · rw [runs_inc.1 hr, UInt8.mul_one]
  | dec m =>
    cases h
    refine ⟨?_, .of_amounts (List.append_nil _) (c := '-') rfl (among_add hs hi) ?_⟩
    · cases runs_dec.1 hr; exact hs
    · rw [runs_dec.1 hr, UInt8.mul_neg, UInt8.mul_one, UInt8.sub_eq_add_neg]
  | write =>
    cases h
    cases runs_write.1 hr
    exact ⟨hs, .of_char rfl (among_add hs hi) fun cs u hu => ⟨rfl, hu.write (k := u.place)⟩⟩
  | read =>
    cases h
    cases runs_read.1 hr
    exact ⟨hs, .of_char rfl (among_add hs hi) fun cs u hu => ⟨rfl, hu.read (k := u.place)⟩⟩
  | loop body ih =>
    rw [stays] at h
    split at h
    next hbody =>
      cases h
      exact Takes.loop (I := fun s => s.head = p + i) (fun s t hs ht => ih hbody hi hs ht)
        (fun s hs => among_add hs hi) hs hr
    next => cases h
  | seq a b iha ihb =>
    obtain ⟨k, ha, hb⟩ := Option.bind_eq_some_iff.1 h
    obtain ⟨r, har, hrt⟩ := runs_append.1 hr
    obtain ⟨hr, ha'⟩ := iha ha hi hs har
    obtain ⟨ht, hb'⟩ := ihb hb (stays_lt ha hi) hr hrt
    exact ⟨ht, ha'.append hb'⟩
  | note text =>
    cases h
    cases runs_note.1 hr
    exact ⟨hs, takes_note (among_add hs hi)⟩
  | within | vacant => cases h

/-! ### Programs that hang -/

/-- Wherever the text of the program stands, it leads from the tape of `s` to that of `t`, with the head
in `H`, and there the machine makes one step forever. -/
def Hangs (H : Int → Prop) (b : Code) (s t : Config) : Prop :=
  ∀ (cs : List Char) (u : State), b.charsThen [] <+: cs.drop u.place → u.Shows s →
    ∃ n v, Way cs (fun w => H w.head) n u v ∧ step cs v = some v ∧ H v.head ∧ v.Shows t

theorem hangs_loop_skip (h : s.cell ≠ 0) (hH : H s.head) : Hangs H (loop skip) s s := by
  intro cs u hcs hu
  have hne : u.cell ≠ 0 := by rwa [hu.cell]
  have hstep := step_test hcs (.inl rfl)
  have hstay := step_test (u := u.goto (u.place + 1)) hcs (.inr rfl)
  rw [if_neg hne] at hstep
  rw [if_neg (show (u.goto (u.place + 1)).cell ≠ 0 from hne)] at hstay
  exact ⟨1, u.goto (u.place + 1), .step (hu.head ▸ hH) hstep, hstay, (congrArg H hu.head).mpr hH, hu.goto⟩

theorem Hangs.append (h : Hangs H a s t) : Hangs H (a ++ b) s t := by
  intro cs u hcs hu
  rw [show (a ++ b).charsThen [] = _ from charsThen_eq a _] at hcs
  exact h cs u (Block.prefix_of_append_prefix hcs).1 hu

theorem Takes.hangs (ha : Takes H a s t) (hb : Hangs H b t r) : Hangs H (a ++ b) s r := by
  intro cs u hcs hu
  rw [show (a ++ b).charsThen [] = _ from charsThen_eq a _] at hcs
  obtain ⟨hacs, hbcs⟩ := Block.prefix_of_append_prefix hcs
  obtain ⟨n, v, hv, hplace, hvt⟩ := ha cs u hacs hu
  obtain ⟨m, w, hw, hstay, hH, hwr⟩ := hb cs v (hplace ▸ hbcs) hvt
  exact ⟨n + m, w, hv.trans hw, hstay, hH, hwr⟩

theorem Hangs.loop (hs : s.cell ≠ 0) (hH : H s.head) (h : Hangs H body s t) : Hangs H (loop body) s t := by
  intro cs u hcs hu
  have hne : u.cell ≠ 0 := by rwa [hu.cell]
  have hstep := step_test hcs (.inl rfl)
  rw [if_neg hne] at hstep
  obtain ⟨n, v, hv, hstay, hvH, hvt⟩ := h cs (u.goto (u.place + 1)) (prefix_of_loop hcs).2.1 hu.goto
  exact ⟨1 + n, v, Way.trans (.step (hu.head ▸ hH) hstep) hv, hstay, hvH, hvt⟩

end TextMachine
end TapeC.Tape
