import TapeC.Proofs.Series

/-! Calls. A function sees the global variables and none of its caller's, and changes
nothing else to the left of the cell for its value. -/

namespace TapeC.Lowering

open Layout Program Tape Routine Code Config Comp Evaluation

variable {F : Frame} {p q : Nat} {s t : Config} {σ τ : Store} {c : Code}

namespace Frame

/-- What a called function sees. -/
def outside (F : Frame) : Frame := ⟨[], F.globals, none⟩

theorem Holds.outside (h : F.Holds s σ) : F.outside.Holds s { σ with locals := [] } :=
  ⟨.nil, h.globals, fun _ hr => (nomatch hr), h.input, h.output⟩

theorem Fits.outside (h : F.Fits p) : F.outside.Fits p where
  stacked := (List.pairwise_append.1 h.stacked).2.1
  below v hv := h.below v (List.mem_append_right _ hv)
  returned _ hr := nomatch hr

theorem covers_of_outside {x : Nat} (h : F.outside.Covers x) : F.Covers x := by
  rcases h with ⟨v, hv, hx⟩ | hr
  · exact .inl ⟨v, List.mem_append_right _ hv, hx⟩
  · cases hr

/-- The variables of the caller are as they were. -/
theorem Holds.of_outside (h : F.Holds s σ) (hF : F.Fits p) (ht : F.outside.Holds t { τ with locals := [] })
    (hk : F.outside.matching.Keeps p s t) (hl : τ.locals = σ.locals) (hr : τ.returned = σ.returned) :
    F.Holds t τ := by
  obtain ⟨-, -, hapart⟩ := List.pairwise_append.1 hF.stacked
  refine ⟨hl ▸ represents_congr h.locals fun v hv x hx hx' => ?_, ht.globals, fun r hr' => ?_, ht.input,
    ht.output⟩
  · refine hk x (Nat.lt_of_lt_of_le hx' (hF.below v (List.mem_append_left _ hv))) ?_
    rintro (⟨u, hu, hx₁, hx₂⟩ | hr)
    · have := hapart v hv u hu
      omega
    · cases hr
  · obtain ⟨hlt, hreturn⟩ := hF.returned r hr'
    rw [hr, ← h.returned r hr']
    refine hk r hlt ?_
    rintro (⟨u, hu, hx₁, hx₂⟩ | hr)
    · have := hreturn u (List.mem_append_right _ hu)
      omega
    · cases hr

end Frame

/-- The end of the body of a called function at `p`. The head is on the cell of its value. -/
structure Returned (G : Frame) (p : Nat) (s t : Config) (v : Cell) (σ τ : Store) : Prop where
  head : t.head = p
  value : t.cells p = v
  holds : G.Holds t { τ with locals := [] }
  keeps : G.matching.Keeps p s t
  locals : τ.locals = σ.locals
  returned : τ.returned = σ.returned

/-- The body of a function gives back what a call with these arguments yields. -/
def Returns (G : Frame) (p : Nat) (c : Code) (args : List Cell) (y : Eval Cell) : Prop :=
  ∀ s σ, s.head = p → s.cells p = 0 → (∀ i v, args[i]? = some v → s.cells (p + 1 + i) = v) →
    G.Holds s { σ with locals := [] } →
      Sim (fun t r => Returned G p s t r.1 σ r.2) (c.exec 0 s) (y.run σ)

/-- From `p` on the code of functions does what calls of them yield. -/
structure Serves (G : Frame) (p : Nat) (act : Activation) (ctx : Context) : Prop where
  definitions : act.definitions = ctx.definitions
  inline : ∀ d position q c args, p ≤ q → Lowers (act.inline d position q) c →
    args.length = d.params.length → Returns G q c args (ctx.invoke d args)

theorem Serves.mono {G : Frame} {act : Activation} {ctx : Context} (h : Serves G p act ctx) (hpq : p ≤ q) :
    Serves G q act ctx :=
  ⟨h.definitions, fun d position r c args hr => h.inline d position r c args (by omega)⟩

/-! ### Functions that every program can call -/

theorem effect_of_arity {b : Builtin} {args : List Cell} {v : Cell} {input : List Cell}
    (hlen : args.length = b.arity) (hv : ∀ w, args[0]? = some w → v = w) :
    b.effect? v input = b.effect? (args.headD 0) input := by
  cases b with
  | readInt | readChar => rfl
  | printInt | printChar =>
    match args, hlen with
    | [w], _ => rw [hv w rfl, List.headD_cons]

theorem builtin_returns {G : Frame} {b : Builtin} {args : List Cell} (hG : G.Fits p)
    (hlen : args.length = b.arity) : Returns G p b.body args (callBuiltin b (args.headD 0)) := by
  intro s σ hs h0 hargs hσ
  subst hs
  have heffect : b.effect? (s.cells (s.head + 1)) s.input = b.effect? (args.headD 0) σ.input := by
    rw [hσ.input]
    exact effect_of_arity hlen fun w hw => hargs 0 w hw
  simp only [callBuiltin, StateT.run_bind, StateT.run_get, pure_bind]
  cases he : b.effect? (args.headD 0) σ.input with
  | none => exact (Builtin.never_body (Nat.zero_le _) (heffect.trans he)).sim
  | some e =>
    obtain ⟨v, rest, written⟩ := e
    obtain ⟨ws, hrun⟩ := Builtin.runs_body (Nat.zero_le _) h0 (heffect.trans he)
    have hcells : ∀ x < s.head,
        (((s.setInput rest).emit written).window s.head (v :: ws) 0).cells x = s.cells x :=
      fun x hx => cells_window_of_lt hx
    refine hrun.sim (v := (v, { σ with input := rest, output := σ.output ++ written }))
      (S := fun t r => Returned G s.head s t r.1 σ r.2) ⟨rfl, ?_, ?_, ?_, rfl, rfl⟩
    · exact cells_window_add (j := 0) (by simp)
    · exact hσ.transmit (fun x hx => hcells x (hG.below_matching x hx)) rfl
        (congrArg (· ++ written) hσ.output)
    · exact fun x hx _ => hcells x hx

/-! ### Calls -/

variable {act : Activation} {ctx : Context} {scopes : Scopes} {name : String} {position : Position}

/-- The cell for the value is emptied, the arguments are put behind it and the body runs on them. -/
theorem applied_sim {as : List CodeAt} {ys : List (Eval Cell)} {c₁ body : Code} (result : List Cell → Eval Cell)
    (hF : F.Fits p) (h : AllEvaluate 0 F.matching p as ys) (hpq : p ≤ q)
    (h₁ : Lowers (Lowering.arguments (q + 1) as) c₁)
    (hreturns : ∀ args : List Cell, args.length = as.length → Returns F.outside q body args (result args))
    (hs : s.head = q) (hσ : F.matching.holds s σ) :
    Sim (fun t r => F.matching.Yields q s t r.1 r.2)
      ((clear ++ right 1 ++ c₁ ++ left (as.length + 1) ++ body ++ right 1).exec 0 s)
      ((Evaluation.arguments ys >>= result).run σ) := by
  have hM := hF.below_matching
  have hclear : Runs 0 (clear ++ right 1) s ((s.put q 0).goto (q + 1)) :=
    (runs_clear.2 rfl).append (runs_right.2 (by rw [store_def, head_put, hs]))
  have hbelow : ∀ x < q, ((s.put q 0).goto (q + 1)).cells x = s.cells x := fun x hx => by
    rw [cells_goto, cells_put_of_ne (by omega)]
  have hargs := arguments_sim h (q := q + 1) (by omega) hM h₁ rfl
    (F.matching.holds_of_below (hM.mono hpq) hσ hbelow rfl rfl)
  rw [StateT.run_bind]
  have hends := hclear.bind_sim (f := (c₁ ++ left (as.length + 1) ++ body ++ right 1).exec 0)
    (y := (Evaluation.arguments ys).run σ >>= fun r => (result r.1).run r.2)
    (R := fun t r => F.matching.Yields q s t r.1 r.2) ?_
  · simp only [exec_append_eq, bind_assoc] at hends ⊢
    exact hends
  simp only [exec_append_eq, bind_assoc]
  refine hargs.and_ends.bind fun t r ht => ?_
  obtain ⟨ht, hr⟩ := ht
  have hr : r.1.length = as.length := (arguments_length hr).trans h.length_eq.symm
  have hleft : Runs 0 (left (as.length + 1)) t (t.goto q) :=
    (runs_left (by rw [ht.head]; omega)).2 (by rw [ht.head, hr, show q + 1 + as.length - (as.length + 1) = q by omega])
  refine hleft.bind_sim ?_
  have h0 : t.cells q = 0 := (ht.keeps.cell hM hpq (by omega)).trans (by rw [cells_goto, cells_put_self])
  have hσ' : F.Holds (t.goto q) r.2 := Frame.Holds.goto ht.holds
  refine (hreturns r.1 hr (t.goto q) r.2 rfl h0 ht.values hσ'.outside).bind_left fun u r' hu => ?_
  refine ⟨u.goto (q + 1), runs_right.2 (by rw [hu.head]), rfl, hu.value, ?_, fun x hx hc => ?_⟩
  · exact (hσ'.of_outside (hF.mono hpq) hu.holds hu.keeps hu.locals hu.returned).goto
  · rw [cells_goto, hu.keeps x hx fun h => hc (Frame.covers_of_outside h), cells_goto,
      ht.keeps x (by omega) hc, hbelow x hx]

theorem call_evaluatesAt {as : List CodeAt} {ys : List (Eval Cell)} (hF : Describes F scopes p)
    (hact : Serves F.outside p act ctx) (h : AllEvaluate 0 F.matching p as ys) :
    EvaluatesAt 0 F.matching p (Lowering.call act name as position) (Evaluation.call ctx name ys) := by
  intro q hpq c hc s σ hs hσ
  rw [Evaluation.call, ← hact.definitions]
  cases hcall : act.definitions.callable? name with
  | none =>
    rw [Lowering.call, hcall] at hc
    exact absurd hc not_lowers_fail
  | some callable =>
  simp only [Lowering.call, hcall] at hc
  obtain ⟨harity, hc⟩ := Lowers.of_guard hc fun _ => not_lowers_fail
  obtain ⟨c₁, h₁, hc⟩ := hc.bind
  have hlen : as.length = callable.arity := by simpa using harity
  cases callable with
  | builtin b =>
    obtain ⟨body, hb, hc⟩ := hc.bind
    cases lowers_pure.1 hb
    cases lowers_pure.1 hc
    exact applied_sim (fun args => callBuiltin b (args.headD 0)) hF.fits h hpq h₁
      (fun args ha => builtin_returns (hF.fits.outside.mono hpq) (ha.trans hlen)) hs hσ
  | defined d =>
    obtain ⟨body, hb, hc⟩ := hc.bind
    cases lowers_pure.1 hc
    exact applied_sim (ctx.invoke d) hF.fits h hpq h₁
      (fun args ha => hact.inline d position q body args hpq hb (ha.trans hlen)) hs hσ

end TapeC.Lowering
