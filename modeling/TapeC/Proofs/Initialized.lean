import TapeC.Proofs.Folding

/-! Programs that give a value to each variable they declare. Their evaluation never reads a
cell in which nothing was stored. -/

namespace TapeC

open Layout Program

/-- The statement is the other one or is found inside it. -/
inductive Program.Statement.Has (s : Statement) : Statement → Prop where
  | self : Has s s
  | part {t u : Statement} (ht : t ∈ u.parts) (h : Has s t) : Has s u

/-- Each declaration in the statement has contents. -/
def Program.Statement.Initialized (s : Statement) : Prop :=
  ∀ d, Statement.Has (.declare d) s → d.contents.isSome = true

/-- Each local variable of the program has a value from its declaration on. -/
def Program.Initialized (p : Program) : Prop := ∀ d ∈ p.functions, ∀ s ∈ d.body, s.Initialized

theorem Program.Statement.Initialized.part {s t : Statement} (h : s.Initialized) (ht : t ∈ s.parts) :
    t.Initialized :=
  fun d hd => h d (.part ht hd)

namespace Evaluation

variable {α β : Type} {x : Eval α} {f : α → Eval β} {σ : Store} {name : String}

/-! ### Stores without gaps -/

/-- Something is stored in each cell. -/
def Object.Full (o : Object) : Prop := ∀ c ∈ o.cells, c ≠ none

def Store.Full (σ : Store) : Prop := (∀ o ∈ σ.locals, o.Full) ∧ ∀ o ∈ σ.globals, o.Full

theorem Object.Full.set {o : Object} {i : Nat} {v : Cell} (h : o.Full) : (o.set i v).Full := by
  intro c hc
  rcases List.mem_or_eq_of_mem_set hc with hc | rfl
  · exact h c hc
  · exact Option.some_ne_none v

theorem full_change {g : Object → Object} {os : List Object} (hg : ∀ o : Object, o.Full → (g o).Full)
    (h : ∀ o ∈ os, o.Full) : ∀ o ∈ Evaluation.change name g os, o.Full := by
  induction os with
  | nil => exact h
  | cons o os ih =>
    obtain ⟨ho, hos⟩ := List.forall_mem_cons.1 h
    rw [Evaluation.change]
    split
    · exact List.forall_mem_cons.2 ⟨hg o ho, hos⟩
    · exact List.forall_mem_cons.2 ⟨ho, ih hos⟩

theorem Store.Full.change {i : Nat} {v : Cell} (h : σ.Full) : (σ.change name (·.set i v)).Full := by
  rw [Store.change]
  split
  · exact ⟨full_change (fun _ => .set) h.1, h.2⟩
  · exact ⟨h.1, full_change (fun _ => .set) h.2⟩

theorem Store.Full.leave {n : Nat} (h : σ.Full) : (σ.leave n).Full :=
  ⟨fun o ho => h.1 o (List.mem_of_mem_drop ho), h.2⟩

theorem Store.Full.declare {shape : Shape} {vs : List Cell} (h : σ.Full) :
    (σ.declare ⟨name, shape, vs.map some⟩).Full := by
  refine ⟨List.forall_mem_cons.2 ⟨fun c hc => ?_, h.1⟩, h.2⟩
  obtain ⟨v, -, rfl⟩ := List.mem_map.1 hc
  exact Option.some_ne_none v

/-! ### Evaluations -/

/-- An end in a store without gaps, or one that is not because of a gap. -/
def Tidy : Except Wrong (α × Store) → Prop
  | .ok (_, τ) => τ.Full
  | .error w => w ≠ .unset

/-- From a store without gaps the evaluation leads to another one, and does not go wrong
because of a gap. -/
def Clean (x : Eval α) : Prop := ∀ σ r, σ.Full → (x.run σ).Ends r → Tidy r

theorem clean_pure {a : α} : Clean (pure a) := by
  intro σ r h hr
  cases Comp.pure_ends.1 hr
  exact h

theorem clean_never : Clean (never : Eval α) := fun _ _ _ hr => absurd hr Comp.not_never_ends

theorem clean_never_bind : Clean (never >>= f) := by
  intro σ r _ hr
  rw [StateT.run_bind] at hr
  rcases Comp.bind_ends.1 hr with ⟨_, hw, -⟩ | ⟨_, ha, -⟩
  · exact absurd hw Comp.not_never_ends
  · exact absurd ha Comp.not_never_ends

theorem clean_outOfRange : Clean (wrong .outOfRange : Eval α) := by
  intro σ r _ hr
  cases Comp.wrong_ends.1 hr
  exact nofun

theorem Clean.bind (hx : Clean x) (hf : ∀ a, Clean (f a)) : Clean (x >>= f) := by
  intro σ r h hr
  rw [StateT.run_bind] at hr
  rcases Comp.bind_ends.1 hr with ⟨w, hw, rfl⟩ | ⟨⟨a, τ⟩, ha, hr⟩
  · exact hx σ _ h hw
  · exact hf a τ r (hx σ _ h ha) hr

theorem Clean.map {g : α → β} (hx : Clean x) : Clean (g <$> x) := by
  rw [map_eq_pure_bind]
  exact hx.bind fun _ => clean_pure

theorem clean_modify {g : Store → Store} (hg : ∀ σ : Store, σ.Full → (g σ).Full) :
    Clean (modify g : Eval Unit) := by
  intro σ r h hr
  cases Comp.pure_ends.1 hr
  exact hg σ h

theorem clean_get : Clean (get : Eval Store) := by
  intro σ r h hr
  cases Comp.pure_ends.1 hr
  exact h

theorem clean_load (t : Target) : Clean (load t) := by
  intro σ r h hr
  rw [load, StateT.run_bind, StateT.run_get, pure_bind] at hr
  cases hfind : σ.find? t.name with
  | none =>
    rw [hfind] at hr
    exact clean_outOfRange σ r h hr
  | some o =>
    have ho : o.Full := by
      rcases List.mem_append.1 (List.mem_of_find?_eq_some hfind) with ho | ho
      · exact h.1 o ho
      · exact h.2 o ho
    rw [hfind, Option.bind_some] at hr
    cases hc : o.cells[t.offset]? with
    | none =>
      rw [hc] at hr
      exact clean_outOfRange σ r h hr
    | some c =>
      rw [hc] at hr
      cases c with
      | none => exact absurd rfl (ho none (List.mem_of_getElem? hc))
      | some v => exact clean_pure σ r h hr

theorem clean_store {t : Target} {v : Cell} : Clean (store t v) := clean_modify fun _ => .change

/-! ### Places -/

theorem clean_evaluated {path : List (Selector (Index (Eval Cell)))}
    (h : ∀ i ∈ indexed path, Clean i.code) : Clean (evaluated path) := by
  induction path with
  | nil => exact clean_pure
  | cons s path ih =>
    cases s with
    | field name => exact (ih h).bind fun _ => clean_pure
    | index i =>
      refine (h i (by simp [indexed])).bind fun v => ?_
      exact (ih fun i hi => h i (by simp [indexed, hi])).bind fun _ => clean_pure

theorem clean_select {position : Position} {origin path : List (Selector (Index Cell))} :
    Clean (select name position origin path) := by
  refine clean_get.bind fun σ => ?_
  cases σ.find? name with
  | none => exact clean_never
  | some o =>
    simp only
    split
    · exact clean_pure
    · exact clean_outOfRange

variable {path : List (Selector (Index (Eval Cell)))} {position : Position}

theorem clean_place (h : ∀ i ∈ indexed path, Clean i.code) : Clean (place name path position) :=
  (clean_evaluated h).bind fun _ => clean_select

theorem clean_cellPlace (h : ∀ i ∈ indexed path, Clean i.code) : Clean (cellPlace name path position) := by
  refine (clean_place h).bind fun (target, shape) => ?_
  simp only
  split
  · exact clean_pure
  · exact clean_never

/-! ### Operations -/

theorem clean_operate {op : BinaryOp} {v w : Cell} : Clean (operate op v w) := by
  rw [operate]
  split
  · exact clean_pure
  · exact clean_never

theorem clean_binary {op : BinaryOp} {y z : Eval Cell} (hy : Clean y) (hz : Clean z) :
    Clean (binary op y z) := by
  have hbool (v : Cell) : Clean (do return Cell.ofBool ((← z) != 0) : Eval Cell) :=
    hz.bind fun _ => clean_pure
  cases op with
  | and =>
    refine hy.bind fun v => ?_
    split
    · exact clean_pure
    · exact hbool v
  | or =>
    refine hy.bind fun v => ?_
    split
    · exact hbool v
    · exact clean_pure
  | _ => exact hy.bind fun _ => hz.bind fun _ => clean_operate

theorem clean_update {op : UpdateOp} {before : Bool} (h : ∀ i ∈ indexed path, Clean i.code) :
    Clean (update name path position op before) :=
  (clean_cellPlace h).bind fun _ => (clean_load _).bind fun _ => clean_store.bind fun _ => clean_pure

theorem clean_assign {y : Eval Cell} (h : ∀ i ∈ indexed path, Clean i.code) (hy : Clean y) :
    Clean (assign name path position y) :=
  (clean_cellPlace h).bind fun _ => hy.bind fun _ => clean_store.bind fun _ => clean_pure

theorem clean_arguments {ys : List (Eval Cell)} (h : ∀ y ∈ ys, Clean y) : Clean (arguments ys) := by
  induction ys with
  | nil => exact clean_pure
  | cons y ys ih =>
    obtain ⟨hy, hys⟩ := List.forall_mem_cons.1 h
    exact hy.bind fun _ => (ih hys).bind fun _ => clean_pure

/-! ### Contents -/

theorem clean_content {c : Content (Eval Cell)} (h : ∀ y, c = .value y → Clean y) : Clean (content c) := by
  cases c with
  | byte v => exact clean_pure
  | value y => exact h y rfl

theorem clean_storeAll {cells : List (Content (Eval Cell))} (h : ∀ y, .value y ∈ cells → Clean y)
    (offset : Nat) : Clean (storeAll name offset cells) := by
  induction cells generalizing offset with
  | nil => exact clean_pure
  | cons c cells ih =>
    refine (clean_content fun y hy => h y (by simp [hy])).bind fun v => clean_store.bind fun _ => ?_
    exact ih (fun y hy => h y (by simp [hy])) (offset + 1)

/-- Contents are laid out or the evaluation has no end. -/
theorem clean_laidOut {shape : Shape} {i : Initializer (Eval Cell)} {g : List (Content (Eval Cell)) → Eval β}
    (h : ∀ cells, (∀ y, .value y ∈ cells → y ∈ i.leaves) → Clean (g cells)) :
    Clean (laidOut name position shape i >>= g) := by
  rw [laidOut]
  split
  next cells hcells =>
    rw [pure_bind]
    exact h cells fun y hy => mem_layOutContents hcells hy
  next => exact clean_never_bind

theorem clean_fill {i : Initializer (Eval Cell)} (h : ∀ i ∈ indexed path, Clean i.code)
    (hi : ∀ y ∈ i.leaves, Clean y) : Clean (fill name path position i) := by
  refine (clean_place h).bind fun (target, shape) => clean_laidOut fun cells hcells => ?_
  exact (clean_storeAll (fun y hy => hi y (hcells y hy)) _).bind fun _ => clean_pure

/-! ### Calls -/

theorem clean_callBuiltin {b : Routine.Builtin} {v : Cell} : Clean (callBuiltin b v) := by
  intro σ r h hr
  rw [callBuiltin, StateT.run_bind, StateT.run_get, pure_bind] at hr
  cases he : b.effect? v σ.input with
  | none =>
    rw [he] at hr
    exact clean_never σ r h hr
  | some e =>
    rw [he] at hr
    cases Comp.pure_ends.1 hr
    exact h

/-- Every call of a function of the program is clean. -/
def Context.Clean (ctx : Context) : Prop :=
  ∀ d ∈ ctx.definitions.functions, ∀ args, Evaluation.Clean (ctx.invoke d args)

variable {ctx : Context}

theorem clean_call {ys : List (Eval Cell)} (hctx : ctx.Clean) (h : ∀ y ∈ ys, Clean y) :
    Clean (call ctx name ys) := by
  refine (clean_arguments h).bind fun args => ?_
  cases hcallable : ctx.definitions.callable? name with
  | none => exact clean_never
  | some callable =>
    cases callable with
    | builtin b => exact clean_callBuiltin
    | defined d =>
      refine hctx d ?_ args
      rw [Definitions.callable?] at hcallable
      split at hcallable
      · cases hcallable
      · obtain ⟨d', hd', hd⟩ := Option.map_eq_some_iff.1 hcallable
        cases hd
        exact List.mem_of_find?_eq_some hd'

/-! ### Expressions -/

theorem clean_indices {path : List (Selector Expr)} (h : ∀ e ∈ indexed path, Clean (expr ctx e)) :
    ∀ i ∈ indexed (indices ctx path), Clean i.code := by
  induction path with
  | nil => nofun
  | cons s path ih =>
    cases s with
    | field name => exact ih h
    | index e =>
      exact List.forall_mem_cons.2 ⟨h e (by simp [indexed]), ih fun e he => h e (by simp [indexed, he])⟩

theorem clean_expr (hctx : ctx.Clean) (e : Expr) : Clean (expr ctx e) := by
  induction e using Expr.induct with
  | number | char | bool => exact clean_pure
  | access name path p ih => exact (clean_cellPlace (clean_indices ih)).bind fun _ => clean_load _
  | binary op a b p iha ihb => exact clean_binary iha ihb
  | unary op e p ih => exact ih.map
  | update op before target p _ ih =>
    cases target with
    | access name path p => exact clean_update (clean_indices ih)
    | _ => exact clean_never
  | assign target op value p iht ih ihv =>
    cases target with
    | access name path p =>
      cases op with
      | none => exact clean_assign (clean_indices ih) ihv
      | some op => exact clean_assign (clean_indices ih) (clean_binary iht ihv)
    | _ => cases op <;> exact clean_never
  | fill target contents p _ ih ihc =>
    cases target with
    | access name path p =>
      refine clean_fill (clean_indices ih) fun y hy => ?_
      rw [leaves_eq, Initializer.leaves_map] at hy
      obtain ⟨e, he, rfl⟩ := List.mem_map.1 hy
      exact ihc e he
    | _ => exact clean_never
  | call name args p ih =>
    refine clean_call hctx fun y hy => ?_
    rw [exprs_eq] at hy
    obtain ⟨e, he, rfl⟩ := List.mem_map.1 hy
    exact ih e he

/-! ### Statements -/

variable {y : Eval Unit}

theorem clean_inScope (hy : Clean y) : Clean (inScope y) :=
  clean_get.bind fun _ => hy.bind fun _ => clean_modify fun _ => .leave

theorem clean_repeatFrom {round : Eval Cell} (h : Clean round) (v : Cell) : Clean (repeatFrom v round) := by
  intro σ r hσ hr
  obtain ⟨r', hr', rfl⟩ := Comp.map_ends.1 hr
  have hloop : Tidy r' := by
    refine Comp.loop_ends_induction (motive := fun s r => s.2.Full → Tidy r) ?_ ?_ ?_ hr' hσ
    · exact fun s _ hs => hs
    · exact fun s w _ hw hs => h s.2 _ hs hw
    · exact fun s s' r _ hs' _ ih hs => ih (h s.2 _ hs hs')
  cases r' with
  | error w => exact hloop
  | ok r' => exact hloop

theorem clean_repeatWhile {condition : Eval Cell} (hc : Clean condition) (hy : Clean y) :
    Clean (repeatWhile condition y) :=
  hc.bind fun v => clean_repeatFrom (hy.bind fun _ => hc) v

theorem clean_repeatUntil {condition : Eval Cell} (hy : Clean y) (hc : Clean condition) :
    Clean (repeatUntil y condition) :=
  clean_repeatFrom (hy.bind fun _ => hc) 1

theorem clean_declare (hctx : ctx.Clean) {d : Declaration} (hd : d.contents.isSome = true) :
    Clean (declare ctx d (d.contents.map (leaves ctx))) := by
  obtain ⟨i, hi⟩ := Option.isSome_iff_exists.1 hd
  rw [declare, hi]
  split
  · exact clean_never
  next type _ =>
    simp only [Option.map_some, bind_map_left]
    refine clean_laidOut fun cells hcells => ?_
    refine (clean_arguments fun y hy => ?_).bind fun vs => clean_modify fun σ => .declare
    obtain ⟨c, hc, rfl⟩ := List.mem_map.1 hy
    refine clean_content fun y hy => ?_
    have hmem := hcells y (hy ▸ hc)
    rw [leaves_eq, Initializer.leaves_map] at hmem
    obtain ⟨e, -, rfl⟩ := List.mem_map.1 hmem
    exact clean_expr hctx e

theorem clean_runArms {as : List Arm} (h : ∀ a ∈ as, Clean a.body) : Clean (runArms as) := by
  induction as with
  | nil => exact clean_pure
  | cons a as ih =>
    obtain ⟨ha, has⟩ := List.forall_mem_cons.1 h
    refine ha.bind fun _ => ?_
    split
    · exact clean_pure
    · exact ih has

theorem clean_switch {value : Eval Cell} {as : List Arm} (hv : Clean value) (h : ∀ a ∈ as, Clean a.body) :
    Clean (switch value as) := by
  refine hv.bind fun v => clean_inScope ?_
  have hfrom (l : Option Cell) : Clean (runArms (armsFrom l as)) :=
    clean_runArms fun a ha => h a ((List.dropWhile_sublist _).subset ha)
  split
  · exact hfrom _
  · exact hfrom _

theorem clean_statements {ss : List Statement} (h : ∀ s ∈ ss, Clean (statement ctx s)) :
    Clean (statements ctx ss) := by
  induction ss with
  | nil => exact clean_pure
  | cons s ss ih =>
    obtain ⟨hs, hss⟩ := List.forall_mem_cons.1 h
    exact hs.bind fun _ => ih hss

theorem clean_statement? {s : Option Statement} (h : ∀ t ∈ s.toList, Clean (statement ctx t)) :
    Clean (statement? ctx s) := by
  cases s with
  | none => exact clean_pure
  | some t => exact h t (by simp)

theorem clean_arms {cases : List (Case Statement)} (h : ∀ c ∈ cases, ∀ s ∈ c.body, Clean (statement ctx s)) :
    ∀ a ∈ arms ctx cases, Clean a.body := by
  induction cases with
  | nil => nofun
  | cons c cases ih =>
    obtain ⟨hc, hcases⟩ := List.forall_mem_cons.1 h
    obtain ⟨label, body, hasBreak, unreachable, p⟩ := c
    cases label <;> exact List.forall_mem_cons.2 ⟨clean_statements hc, ih hcases⟩

theorem clean_option (hctx : ctx.Clean) (e : Option Expr) (v : Cell) :
    Clean ((e.map (expr ctx)).getD (return v)) := by
  cases e with
  | none => exact clean_pure
  | some e => exact clean_expr hctx e

theorem clean_statement (hctx : ctx.Clean) {s : Statement} (hs : s.Initialized) : Clean (statement ctx s) := by
  induction s using Statement.induct with
  | step s ih =>
    have ih (t : Statement) (ht : t ∈ s.parts) : Clean (statement ctx t) := ih t ht (hs.part ht)
    cases s with
    | declare d => exact clean_declare hctx (hs d .self)
    | expr e => exact (clean_expr hctx e).bind fun _ => clean_pure
    | print text p => exact clean_modify fun _ h => h
    | block body p => exact clean_inScope (clean_statements ih)
    | ifElse c a b p =>
      refine (clean_expr hctx c).bind fun v => ?_
      split
      · exact clean_inScope (ih a (by simp [Statement.parts]))
      · exact clean_inScope (clean_statement? fun t ht => ih t (by simp [Statement.parts, Option.mem_toList.1 ht]))
    | whileLoop c body p =>
      exact clean_repeatWhile (clean_expr hctx c) (clean_inScope (ih body (by simp [Statement.parts])))
    | doLoop body c p =>
      exact clean_repeatUntil (clean_inScope (ih body (by simp [Statement.parts]))) (clean_expr hctx c)
    | forLoop init c step body p =>
      refine clean_inScope (.bind ?_ fun _ => clean_repeatWhile (clean_option hctx c 1) (.bind ?_ fun _ => ?_))
      · exact clean_statement? fun t ht => ih t (by simp [Statement.parts, Option.mem_toList.1 ht])
      · exact clean_inScope (ih body (by simp [Statement.parts]))
      · exact (clean_option hctx step 0).bind fun _ => clean_pure
    | switch value cases p =>
      refine clean_switch (clean_expr hctx value) (clean_arms fun c hc s hs => ih s ?_)
      exact List.mem_flatMap.2 ⟨c, hc, List.mem_append_left _ hs⟩
    | returns value p =>
      cases value with
      | none => exact clean_pure
      | some e => exact (clean_expr hctx e).bind fun v => clean_modify fun _ h => h
    | breaks | continues => exact clean_never
    | empty => exact clean_pure

/-! ### Programs -/

theorem full_parameters {params : List Parameter} {args : List Cell} :
    ∀ o ∈ parameters params args, o.Full := by
  intro o ho
  obtain ⟨⟨p, v⟩, -, rfl⟩ := List.mem_map.1 (List.mem_reverse.1 ho)
  simp [Object.Full]

theorem clean_invoke {definitions : Definitions}
    (h : ∀ d ∈ definitions.functions, ∀ s ∈ d.body, s.Initialized) (depth : Nat) :
    Context.Clean ⟨definitions, invoke definitions depth⟩ := by
  induction depth with
  | zero => exact fun _ _ _ => clean_never
  | succ depth ih =>
    intro d hd args σ r hσ hr
    have hbody : Clean (statements ⟨definitions, invoke definitions depth⟩ d.body) :=
      clean_statements fun s hs => clean_statement ih (h d hd s hs)
    have hstart : Store.Full { σ with locals := parameters d.params args, returned := 0 } :=
      ⟨full_parameters, hσ.2⟩
    obtain ⟨w, hw, rfl⟩ | ⟨⟨_, τ⟩, hτ, hr⟩ := Comp.bind_ends.1 hr
    · exact hbody _ _ hstart hw
    · cases Comp.pure_ends.1 hr
      exact ⟨hσ.1, (hbody _ _ hstart hτ).2⟩

theorem full_globalObject {structs : List StructLayout} {d : Declaration} {o : Object}
    (h : globalObject structs d = .ok o) : o.Full := by
  obtain ⟨type, -, h⟩ := bind_eq_ok.1 h
  split at h
  · cases h
    exact fun c hc => by rw [List.eq_of_mem_replicate hc]; exact Option.some_ne_none 0
  · obtain ⟨cells, -, h⟩ := bind_eq_ok.1 h
    obtain ⟨values, -, h⟩ := bind_eq_ok.1 h
    cases h
    intro c hc
    obtain ⟨v, -, rfl⟩ := List.mem_map.1 hc
    exact Option.some_ne_none v

theorem full_globalObjects {structs : List StructLayout} {ds : List Declaration} {os : List Object}
    (h : ds.mapM (globalObject structs) = .ok os) : ∀ o ∈ os, o.Full := by
  induction ds generalizing os with
  | nil =>
    cases h
    nofun
  | cons d ds ih =>
    rw [List.mapM_cons] at h
    obtain ⟨o, ho, h⟩ := bind_eq_ok.1 h
    obtain ⟨more, hmore, h⟩ := bind_eq_ok.1 h
    cases h
    exact List.forall_mem_cons.2 ⟨full_globalObject ho, ih hmore⟩

end Evaluation
end TapeC
