import Mathlib.Data.List.Perm.Subperm
import Mathlib.Logic.Relation
import TapeC.Proofs.Diagnostics
import TapeC.Proofs.Expansion
import TapeC.Proofs.Program

/-! Functions expanded inside each other. A function is expanded where it is called, unless it
is being expanded already, so that there are never more of them inside each other than the
program has. All calls that are written in functions which `main` can reach are looked at, and
so a program is refused for a recursive call exactly where its call graph has a circle. -/

namespace TapeC

open Layout Program Tape Routine Lowering Relation

namespace Program

/-! ### The call graph -/

/-- A call of `g` is written somewhere in the body of the function `f`. -/
def Calls (p : Program) (f g : String) : Prop :=
  (∃ d ∈ p.functions, d.name = f ∧ ∃ e ∈ bodyExprs d.body, ∃ args position, Expr.Has (.call g args position) e) ∧
    ∃ d ∈ p.functions, d.name = g

/-- A function that `main` can reach calls itself, through others or not. -/
def Recursive (p : Program) : Prop :=
  ∃ f, ReflTransGen p.Calls "main" f ∧ TransGen p.Calls f f

/-- The functions that are expanded inside each other at some moment, the innermost first. -/
inductive Nested (p : Program) : List String → Prop where
  | start : Nested p []
  | main (h : ∃ d ∈ p.functions, d.name = "main") : Nested p ["main"]
  | call {f g : String} {chain : List String} (h : Nested p (f :: chain)) (hcall : p.Calls f g)
      (hnew : g ∉ f :: chain) : Nested p (g :: f :: chain)

namespace Nested

variable {p : Program} {f g : String} {chain : List String}

theorem nodup (h : Nested p chain) : chain.Nodup := by
  induction h with
  | start => exact .nil
  | main => exact List.pairwise_singleton _ _
  | call _ _ hnew ih => exact List.nodup_cons.2 ⟨hnew, ih⟩

theorem names (h : Nested p chain) : chain ⊆ p.functions.map (·.name) := by
  induction h with
  | start => exact List.nil_subset _
  | main h =>
    obtain ⟨d, hd, hname⟩ := h
    exact List.cons_subset.2 ⟨hname ▸ List.mem_map_of_mem hd, List.nil_subset _⟩
  | call _ hcall _ ih =>
    obtain ⟨-, d, hd, rfl⟩ := hcall
    exact List.cons_subset.2 ⟨List.mem_map_of_mem hd, ih⟩

/-- A function that is not in the chain yet makes it longer. -/
theorem length_lt (h : Nested p chain) {d : FunctionDef} (hd : d ∈ p.functions) (hnew : d.name ∉ chain) :
    chain.length < p.functions.length := by
  have hsub : d.name :: chain ⊆ p.functions.map (·.name) := List.cons_subset.2 ⟨List.mem_map_of_mem hd, h.names⟩
  have hlength := ((List.nodup_cons.2 ⟨hnew, h.nodup⟩).subperm hsub).length_le
  rwa [List.length_map] at hlength

theorem length_le (h : Nested p chain) : chain.length ≤ p.functions.length := by
  have hlength := (h.nodup.subperm h.names).length_le
  rwa [List.length_map] at hlength

/-- Each function in a chain reaches the innermost one. -/
theorem reaches (h : Nested p (f :: chain)) :
    ReflTransGen p.Calls "main" f ∧ ∀ g ∈ f :: chain, ReflTransGen p.Calls g f := by
  generalize hl : f :: chain = l at h
  induction h generalizing f chain with
  | start => cases hl
  | main =>
    cases hl
    exact ⟨.refl, fun g hg => List.mem_singleton.1 hg ▸ .refl⟩
  | call h hcall _ ih =>
    cases hl
    obtain ⟨hmain, hall⟩ := ih rfl
    refine ⟨hmain.tail hcall, fun g hg => ?_⟩
    rcases List.mem_cons.1 hg with rfl | hg
    · exact .refl
    · exact (hall g hg).tail hcall

/-- Without recursion, a called function is not in the chain yet. -/
theorem call_of_not_recursive (hp : ¬ p.Recursive) (h : Nested p (f :: chain)) (hcall : p.Calls f g) :
    Nested p (g :: f :: chain) := by
  refine .call h hcall fun hg => hp ⟨f, h.reaches.1, ?_⟩
  exact .head' hcall (h.reaches.2 g hg)

end Nested

/-! ### Names of functions -/

variable {p : Program} {definitions : Definitions} {f g : String}

/-- The functions of a program have different names, none of which is that of a built-in one. -/
theorem ofProgram_names (h : Definitions.ofProgram p = .ok definitions) :
    (p.functions.map (·.name)).Nodup ∧ ∀ d ∈ p.functions, Builtin.ofName? d.name = none := by
  obtain ⟨_, -, h⟩ := bind_eq_ok.1 h
  obtain ⟨_, -, h⟩ := bind_eq_ok.1 h
  obtain ⟨functions, hfold, -⟩ := bind_eq_ok.1 h
  have hempty : (([] : List FunctionDef).map (·.name)).Nodup ∧
      ∀ d ∈ ([] : List FunctionDef), Builtin.ofName? d.name = none := ⟨.nil, by simp⟩
  rw [← List.nil_append p.functions, ← foldlM_addFunction hfold]
  refine foldlM_keeps (P := fun fs : List FunctionDef =>
    (fs.map (·.name)).Nodup ∧ ∀ d ∈ fs, Builtin.ofName? d.name = none) ?_ hempty hfold
  intro fs d fs' _ hfs hadd
  rw [Definitions.addFunction] at hadd
  split at hadd
  · cases hadd
  next hnew =>
    obtain ⟨_, -, hadd⟩ := bind_eq_ok.1 hadd
    cases hadd
    simp only [Bool.or_eq_true, Option.isSome_iff_ne_none, ne_eq, List.any_eq_true, beq_iff_eq, not_or, not_not,
      not_exists, not_and] at hnew
    refine ⟨?_, List.forall_mem_append.2 ⟨hfs.2, by simpa using hnew.1⟩⟩
    rw [List.map_append, List.map_singleton, List.nodup_append]
    refine ⟨hfs.1, List.pairwise_singleton _ _, ?_⟩
    simpa using hnew.2

/-- A name of a function means that function. -/
theorem callable?_of_mem (h : Definitions.ofProgram p = .ok definitions) {d : FunctionDef} (hd : d ∈ p.functions) :
    definitions.callable? d.name = some (.defined d) := by
  obtain ⟨hnodup, hbuiltin⟩ := ofProgram_names h
  have hfind : definitions.functions.find? (·.name == d.name) = some d := by
    rw [ofProgram_functions h, List.find?_eq_some_iff_append]
    obtain ⟨before, after, happ⟩ := List.append_of_mem hd
    refine ⟨by simp, before, after, happ, fun d' hd' => ?_⟩
    rw [happ, List.map_append, List.nodup_append] at hnodup
    simpa using hnodup.2.2 _ (List.mem_map_of_mem hd') _ List.mem_cons_self
  rw [Definitions.callable?, hbuiltin d hd, hfind]
  rfl

theorem mem_of_callable? (h : Definitions.ofProgram p = .ok definitions) {d : FunctionDef}
    (hd : definitions.callable? f = some (.defined d)) : d ∈ p.functions ∧ d.name = f := by
  rw [Definitions.callable?] at hd
  split at hd
  · cases hd
  · obtain ⟨d', hfind, hd'⟩ := Option.map_eq_some_iff.1 hd
    cases hd'
    rw [ofProgram_functions h] at hfind
    exact ⟨List.mem_of_find?_eq_some hfind, by simpa using List.find?_some hfind⟩

/-! ### Expansion along chains -/

section Chains

variable {annotate : Bool} {L : Likeness} {act act' : Activation} {d : FunctionDef} {chain : List String} {depth : Nat}

/-- A body is lowered alike if the functions that it calls are expanded alike. -/
theorem functionBody_alike_of_calls (h : Definitions.ofProgram p = .ok definitions) (hd : d ∈ p.functions)
    (hact : L.AlikeFunction act act') (hdefs : act.definitions = definitions) (hdefs' : act'.definitions = definitions)
    (hinline : ∀ d' ∈ p.functions, p.Calls d.name d'.name → ∀ position q,
      L.Alike L.code (act.inline d' position q) (act'.inline d' position q)) :
    L.Alike L.code (functionBody act d) (functionBody act' d) := by
  refine Likeness.functionBody_alike hact (by rw [hdefs, hdefs']) rfl rfl
    (Likeness.statements_alike_self hact fun s hs e he g args position hcall => ⟨?_⟩)
  rw [hdefs, hdefs']
  cases hg : definitions.callable? g with
  | none => exact .inl ⟨rfl, rfl⟩
  | some callable =>
    cases callable with
    | builtin b => exact .inr (.inl ⟨b, rfl, rfl⟩)
    | defined d' =>
      obtain ⟨hd', rfl⟩ := mem_of_callable? h hg
      have he : e ∈ bodyExprs d.body := by
        rw [bodyExprs_eq]
        exact List.mem_flatMap.2 ⟨s, hs, he⟩
      exact .inr (.inr ⟨d', d', rfl, rfl, rfl,
        hinline d' hd' ⟨⟨d, hd, rfl, e, he, args, position, hcall⟩, d', hd', rfl⟩⟩)

/-- A function that is being expanded is refused, however many more can be. -/
theorem inlineCall_of_mem (hd : d.name ∈ chain) (position : Position) (q : Nat) :
    inlineCall definitions annotate depth chain d position q = fail position (.recursion d.name) := by
  cases depth with
  | zero => rfl
  | succ depth => rw [inlineCall, if_pos (by simpa using hd)]

/-- The code of called functions, as it is for each chain of functions that are being expanded. -/
def Inlines (p : Program) (definitions : Definitions) (annotate : Bool)
    (inline : List String → FunctionDef → Position → CodeAt) : Prop :=
  ∀ chain, p.Nested chain → ∀ d ∈ p.functions, ∀ position q,
    inline chain d position q =
      if d.name ∈ chain then fail position (.recursion d.name)
      else
        functionBody
          { definitions, annotate, returns := d.returns, returnCell := q, inline := inline (d.name :: chain) } d

/-- The limit on functions inside each other is never met. -/
theorem inlines_inlineCall : p.Inlines definitions annotate fun chain =>
    inlineCall definitions annotate (p.functions.length - chain.length) chain := by
  intro chain hchain d hd position q
  split
  next hmem => exact inlineCall_of_mem hmem position q
  next hnew =>
    have hroom : p.functions.length - chain.length = p.functions.length - (d.name :: chain).length + 1 := by
      have := hchain.length_lt hd hnew
      simp only [List.length_cons]
      omega
    dsimp only
    rw [hroom, inlineCall, if_neg (by simpa using hnew)]

/-! ### One result -/

/-- The same code. -/
def sameCode : Likeness where
  fault _ := True
  code := Eq
  ordinary _ _ := trivial
  refl _ := rfl
  append := congrArg₂ _
  loop := congrArg _

theorem eq_of_sameCode {x y : Lower Code} (h : sameCode.Alike Eq x y) : x = y := by
  funext w
  have hw : sameCode.SameEnd Eq (x w) (y w) := h w
  generalize x w = r at hw
  generalize y w = r' at hw
  match r, r', hw with
  | .ok (c, _), .ok (_, _), ⟨rfl, rfl⟩ => rfl
  | .error _, .error _, ⟨rfl, _⟩ => rfl

/-- Whatever satisfies the equation of `Inlines` is the code that functions are expanded to. -/
theorem Inlines.unique {inline : List String → FunctionDef → Position → CodeAt}
    (h : Definitions.ofProgram p = .ok definitions) (hinline : p.Inlines definitions annotate inline)
    (hdepth : depth + chain.length = p.functions.length) (hd : d ∈ p.functions) (hchain : p.Nested chain)
    (hcall : d.name ∉ chain → p.Nested (d.name :: chain)) (position : Position) (q : Nat) :
    sameCode.Alike Eq (inlineCall definitions annotate depth chain d position q) (inline chain d position q) := by
  induction depth generalizing chain d position q with
  | zero =>
    by_cases hmem : d.name ∈ chain
    · rw [hinline chain hchain d hd, if_pos hmem, inlineCall_of_mem hmem]
      exact fun _ => ⟨rfl, trivial⟩
    · have := hchain.length_lt hd hmem
      omega
  | succ depth ih =>
    rw [hinline chain hchain d hd]
    split
    next hmem =>
      rw [inlineCall_of_mem hmem]
      exact fun _ => ⟨rfl, trivial⟩
    next hnew =>
      rw [inlineCall, if_neg (by simpa using hnew)]
      refine functionBody_alike_of_calls (L := sameCode) h hd ⟨rfl, rfl, rfl, fun _ => rfl⟩ rfl rfl
        fun d' hd' hcalls position q => ?_
      have hroom : depth + (d.name :: chain).length = p.functions.length := by
        rw [List.length_cons]
        omega
      exact ih hroom hd' (hcall hnew) (fun hnew' => .call (hcall hnew) hcalls hnew') position q

/-! ### Faults -/

/-- No fault is about recursion. -/
def withoutRecursion : Likeness where
  fault := CompileFault.Ordinary
  code _ _ := True
  ordinary _ h := h
  refl _ := trivial
  append _ _ := trivial
  loop _ := trivial

/-- Without recursion, no function is refused for it. -/
theorem inlineCall_withoutRecursion (h : Definitions.ofProgram p = .ok definitions) (hp : ¬ p.Recursive)
    (hdepth : depth + chain.length = p.functions.length) (hd : d ∈ p.functions) (hchain : p.Nested (d.name :: chain))
    (position : Position) (q : Nat) :
    withoutRecursion.Alike withoutRecursion.code (inlineCall definitions annotate depth chain d position q)
      (inlineCall definitions annotate depth chain d position q) := by
  have hnew : d.name ∉ chain := (List.nodup_cons.1 hchain.nodup).1
  have hlength := hchain.length_le
  rw [List.length_cons] at hlength
  induction depth generalizing chain d position q with
  | zero => omega
  | succ depth ih =>
    rw [inlineCall, if_neg (by simpa using hnew)]
    refine functionBody_alike_of_calls (L := withoutRecursion) h hd ⟨rfl, rfl, rfl, fun _ => trivial⟩ rfl rfl
      fun d' hd' hcalls position q => ?_
    have hnext := hchain.call_of_not_recursive hp hcalls
    have hroom : depth + (d.name :: chain).length = p.functions.length := by
      rw [List.length_cons]
      omega
    refine ih hroom hd' hnext position q (List.nodup_cons.1 hnext.nodup).1 ?_
    have := hnext.length_le
    rwa [List.length_cons] at this

end Chains

/-! ### Circles -/

/-- There is code for the function, expanded while those in the chain are. -/
def ExpandedIn (definitions : Definitions) (annotate : Bool) (chain : List String) (f : String) : Prop :=
  ∃ d depth position, definitions.callable? f = some (.defined d) ∧
    Lowered (inlineCall definitions annotate depth chain d position)

variable {annotate : Bool} {chain : List String}

/-- A function that is called in one for which there is code has code as well. -/
theorem ExpandedIn.call (hp : Definitions.ofProgram p = .ok definitions) (h : ExpandedIn definitions annotate chain f)
    (hcall : p.Calls f g) : f ∉ chain ∧ ExpandedIn definitions annotate (f :: chain) g := by
  obtain ⟨d, depth, position, hd, q, c, hlowers⟩ := h
  obtain ⟨⟨d', hd', rfl, e, he, args, _, hcall⟩, callee, hcallee, rfl⟩ := hcall
  obtain rfl : d' = d := by
    have := callable?_of_mem hp hd'
    rw [hd] at this
    cases this
    rfl
  by_cases hmem : d'.name ∈ chain
  · rw [inlineCall_of_mem hmem] at hlowers
    exact absurd hlowers not_lowers_fail
  cases depth with
  | zero => exact absurd hlowers not_lowers_fail
  | succ depth =>
    rw [inlineCall, if_neg (by simpa using hmem)] at hlowers
    obtain ⟨scopes, -, hlowers⟩ := hlowers.bind
    obtain ⟨r, hbody, -⟩ := hlowers.bind
    rw [bodyExprs_eq] at he
    obtain ⟨s, hs, he⟩ := List.mem_flatMap.1 he
    have hcallee' := callable?_of_mem hp hcallee
    obtain ⟨position', hlowered⟩ :=
      statement_expands s (loweredIn_statements ⟨scopes, r, hbody⟩ s hs) he hcall callee hcallee'
    exact ⟨hmem, callee, depth, position', hcallee', hlowered⟩

theorem ExpandedIn.reach (hp : Definitions.ofProgram p = .ok definitions) (h : ExpandedIn definitions annotate chain f)
    (hcalls : ReflTransGen p.Calls f g) : ∃ chain', ExpandedIn definitions annotate chain' g := by
  induction hcalls with
  | refl => exact ⟨chain, h⟩
  | tail _ hcall ih =>
    obtain ⟨chain', h'⟩ := ih
    exact ⟨_, (h'.call hp hcall).2⟩

/-- The functions between are in the chain. -/
theorem ExpandedIn.pass (hp : Definitions.ofProgram p = .ok definitions) (h : ExpandedIn definitions annotate chain f)
    (hcalls : TransGen p.Calls f g) : ∃ chain', f ∈ chain' ∧ ExpandedIn definitions annotate chain' g := by
  induction hcalls with
  | single hcall => exact ⟨_, List.mem_cons_self, (h.call hp hcall).2⟩
  | tail _ hcall ih =>
    obtain ⟨chain', hmem, h'⟩ := ih
    exact ⟨_, List.mem_cons_of_mem _ hmem, (h'.call hp hcall).2⟩

/-- There is no code for functions that call each other in a circle. -/
theorem ExpandedIn.not_circle (hp : Definitions.ofProgram p = .ok definitions)
    (h : ExpandedIn definitions annotate chain f) : ¬ TransGen p.Calls f f := by
  intro hcircle
  obtain ⟨chain', hmem, h'⟩ := h.pass hp hcircle
  obtain ⟨g, hcall, -⟩ := TransGen.head'_iff.1 hcircle
  exact (h'.call hp hcall).1 hmem

/-! ### Optimized programs -/

theorem Expr.mem_parts_fold {e t : Expr} (h : t ∈ e.fold.parts) : ∃ u ∈ e.parts, u.fold = t := by
  have hconstant {e' : Expr} (h : t ∈ e'.orConstant.parts) : t ∈ e'.parts := by
    rw [orConstant] at h
    split at h
    · cases h
    · exact h
  cases e with
  | number | char | bool => cases h
  | access name path p =>
    rw [fold, parts, foldPath_eq, indexed_map] at h
    exact List.mem_map.1 h
  | binary op a b p => exact List.mem_map.1 (show t ∈ [a, b].map fold from hconstant h)
  | unary op e p => exact List.mem_map.1 (show t ∈ [e].map fold from hconstant h)
  | update op before target p => exact List.mem_map.1 (show t ∈ [target].map fold from h)
  | assign target op value p => exact List.mem_map.1 (show t ∈ [target, value].map fold from h)
  | fill target contents p =>
    rw [fold, parts, foldContents_eq, Initializer.leaves_map] at h
    exact List.mem_map.1 (show t ∈ (target :: contents.leaves).map fold from h)
  | call name args p =>
    rw [fold, parts, foldArgs_eq] at h
    exact List.mem_map.1 h

theorem Expr.fold_eq_call {e : Expr} {g : String} {args : List Expr} {q : Position} (h : e.fold = .call g args q) :
    ∃ args', e = .call g args' q := by
  have hconstant {e' : Expr} (h : e'.orConstant = .call g args q) : e' = .call g args q := by
    rw [orConstant] at h
    split at h
    · cases h
    · exact h
  cases e with
  | number | char | bool | access | update | assign | fill => cases h
  | binary | unary => cases hconstant h
  | call name args' p =>
    cases h
    exact ⟨args', rfl⟩

/-- A folded expression calls what the expression does. -/
theorem Expr.Has.of_fold {e : Expr} {g : String} {args : List Expr} {q : Position}
    (h : Has (.call g args q) e.fold) : ∃ args', Has (.call g args' q) e := by
  generalize hu : e.fold = u at h
  induction h generalizing e with
  | self =>
    obtain ⟨args', rfl⟩ := fold_eq_call hu
    exact ⟨args', .self⟩
  | part ht _ ih =>
    subst hu
    obtain ⟨w, hw, rfl⟩ := mem_parts_fold ht
    obtain ⟨args', h⟩ := ih rfl
    exact ⟨args', .part hw h⟩

/-- Optimizing a program adds no calls. -/
theorem calls_of_optimize (h : (p.optimize 2).Calls f g) : p.Calls f g := by
  rw [Evaluation.optimize_eq] at h
  obtain ⟨⟨_, hmem, rfl, e, he, args, position, hcall⟩, _, hcallees, rfl⟩ := h
  obtain ⟨d, hd, rfl⟩ := List.mem_map.1 hmem
  obtain ⟨callee, hcallee, rfl⟩ := List.mem_map.1 hcallees
  rw [FunctionDef.optimized, printConstantsIn_eq, mapBody_eq, bodyExprs_eq, List.map_map, List.flatMap_map] at he
  obtain ⟨s, hs, he⟩ := List.mem_flatMap.1 he
  have hfolded := (s.mapExprs Expr.fold).exprs_printConstants_subset he
  obtain ⟨e', he', rfl⟩ := List.mem_map.1 (s.exprs_mapExprs_subset hfolded)
  obtain ⟨args', hcall⟩ := hcall.of_fold
  refine ⟨⟨d, hd, rfl, e', ?_, args', position, hcall⟩, callee, hcallee, rfl⟩
  rw [bodyExprs_eq]
  exact List.mem_flatMap.2 ⟨s, hs, he'⟩

theorem Nested.of_optimize {chain : List String} (h : (p.optimize 2).Nested chain) : p.Nested chain := by
  induction h with
  | start => exact .start
  | main h =>
    obtain ⟨_, hmem, hname⟩ := h
    rw [Evaluation.optimize_eq] at hmem
    obtain ⟨d, hd, rfl⟩ := List.mem_map.1 hmem
    exact .main ⟨d, hd, hname⟩
  | call _ hcall hnew ih => exact .call ih (calls_of_optimize hcall) hnew

/-- The program that is lowered. -/
def prepared (options : Options) (p : Program) : Program :=
  if options.optimize then p.optimize 2 else p

theorem Nested.of_prepared {options : Options} {chain : List String} (h : (p.prepared options).Nested chain) :
    p.Nested chain := by
  rw [prepared] at h
  split at h
  · exact h.of_optimize
  · exact h

theorem compile_error_iff {options : Options} {fault : CompileFault} :
    p.compile options = .error fault ↔ p.lower options.annotate = .error fault := by
  have hsame : (p.prepared options).lower options.annotate = .error fault ↔
      p.lower options.annotate = .error fault := by
    rw [prepared]
    split
    · have h := lower_optimize options.annotate p
      generalize p.lower options.annotate = x at h
      generalize (p.optimize 2).lower options.annotate = y at h
      match x, y, h with
      | .ok _, .ok _, _ => simp
      | .error _, .error _, rfl => rfl
    · rfl
  rw [← hsame]
  change ((p.prepared options).lower options.annotate >>= _) = _ ↔ _
  cases (p.prepared options).lower options.annotate with
  | ok r => simp [bind, Except.bind, pure, Except.pure]
  | error e => simp [bind, Except.bind]

/-! ### Programs -/

theorem main_callable (h : Definitions.ofProgram p = .ok definitions) {main : FunctionDef}
    (hmain : definitions.functions.find? (·.name == "main") = some main) :
    main ∈ p.functions ∧ main.name = "main" ∧ definitions.callable? "main" = some (.defined main) := by
  rw [ofProgram_functions h] at hmain
  have hmem := List.mem_of_find?_eq_some hmain
  have hname : main.name = "main" := by simpa using List.find?_some hmain
  exact ⟨hmem, hname, hname ▸ callable?_of_mem h hmem⟩

theorem lower_of_recursive (hp : p.Recursive) (annotate : Bool) : ∃ fault, p.lower annotate = .error fault := by
  cases h : p.lower annotate with
  | error fault => exact ⟨fault, rfl⟩
  | ok r =>
    obtain ⟨definitions, hdefinitions, h⟩ := bind_eq_ok.1 h
    obtain ⟨⟨c, w⟩, hmain, -⟩ := bind_eq_ok.1 h
    obtain ⟨main, hfind, hcall⟩ := callMain_lowers ⟨_, _, hmain⟩
    obtain ⟨-, -, hcallable⟩ := main_callable hdefinitions hfind
    obtain ⟨position, hlowered⟩ := (lowered_call ⟨_, _, hcall⟩).2 main hcallable
    have hexpanded : ExpandedIn definitions annotate [] "main" := ⟨main, _, position, hcallable, hlowered⟩
    obtain ⟨f, hreach, hcircle⟩ := hp
    obtain ⟨chain, hchain⟩ := hexpanded.reach hdefinitions hreach
    exact absurd hcircle (hchain.not_circle hdefinitions)

theorem callMain_withoutRecursion (h : Definitions.ofProgram p = .ok definitions) (hp : ¬ p.Recursive) :
    withoutRecursion.Alike withoutRecursion.code (callMain definitions annotate) (callMain definitions annotate) := by
  rw [callMain]
  cases hfind : definitions.functions.find? (·.name == "main") with
  | none => exact Likeness.alike_fail (by simp)
  | some main =>
    obtain ⟨hmem, hname, hcallable⟩ := main_callable h hfind
    dsimp only
    split
    · refine Likeness.call_alike ⟨.inr (.inr ⟨main, main, hcallable, hcallable, rfl, fun position q => ?_⟩)⟩ .nil _
      refine inlineCall_withoutRecursion h hp ?_ hmem ?_ position q
      · rw [List.length_nil, Nat.add_zero, ofProgram_functions h]
      · exact hname ▸ .main ⟨main, hmem, hname⟩
    · exact Likeness.alike_fail (by simp)

theorem lower_ordinary (hp : ¬ p.Recursive) {fault : CompileFault} (h : p.lower annotate = .error fault) :
    fault.Ordinary := by
  rw [lower] at h
  cases hdefinitions : Definitions.ofProgram p with
  | error e =>
    rw [hdefinitions] at h
    cases h
    exact Definitions.ofProgram_failsOrdinarily _ hdefinitions
  | ok definitions =>
    have hend : withoutRecursion.SameEnd withoutRecursion.code (callMain definitions annotate [])
        (callMain definitions annotate []) := callMain_withoutRecursion hdefinitions hp []
    rw [hdefinitions] at h
    change (callMain definitions annotate [] >>= _) = _ at h
    generalize callMain definitions annotate [] = x at h hend
    cases x with
    | ok r => cases h
    | error e =>
      cases h
      exact hend.2

/-- The call of `main` in some activation. -/
def callMainIn (act : Activation) : Lower Code :=
  match act.definitions.functions.find? (·.name == "main") with
  | none => fail .start .noMain
  | some main =>
    if main.params.isEmpty then Lowering.call act "main" [] main.position act.definitions.globalsSize
    else fail main.position .mainWithParameters

/-- Functions are expanded as if there were no limit on how many are inside each other. -/
theorem callMain_eq (h : Definitions.ofProgram p = .ok definitions)
    {inline : List String → FunctionDef → Position → CodeAt} (hinline : p.Inlines definitions annotate inline) :
    callMain definitions annotate =
      callMainIn { outermost definitions annotate definitions.globalsSize with inline := inline [] } := by
  rw [callMain, callMainIn]
  cases hfind : definitions.functions.find? (·.name == "main") with
  | none => simp only [outermost, hfind]
  | some main =>
    obtain ⟨hmem, hname, hcallable⟩ := main_callable h hfind
    have hroom : definitions.functions.length + ([] : List String).length = p.functions.length := by
      rw [List.length_nil, Nat.add_zero, ofProgram_functions h]
    have hmain : p.Nested [main.name] := hname ▸ .main ⟨main, hmem, hname⟩
    simp only [outermost, hfind]
    split
    · refine eq_of_sameCode (Likeness.call_alike (L := sameCode)
        ⟨.inr (.inr ⟨main, main, hcallable, hcallable, rfl, ?_⟩)⟩ .nil _)
      exact fun position q => hinline.unique h hroom hmem .start (fun _ => hmain) position q
    · rfl

/-- Two functions that call each other, beside `main`. -/
def circle (main : List Statement) : Program where
  functions := [⟨.void, "main", [], main, .start⟩, ⟨.void, "f", [], [.expr (.call "g" [] .start)], .start⟩,
    ⟨.void, "g", [], [.expr (.call "f" [] .start)], .start⟩]

theorem circle_recursive : (circle [.expr (.call "f" [] .start)]).Recursive := by
  have hcalls {f g : String} {d : FunctionDef} (hd : d ∈ (circle [.expr (.call "f" [] .start)]).functions)
      (hf : d.name = f) (hbody : d.body = [.expr (.call g [] .start)])
      (hg : ∃ d ∈ (circle [.expr (.call "f" [] .start)]).functions, d.name = g) :
      (circle [.expr (.call "f" [] .start)]).Calls f g :=
    ⟨⟨d, hd, hf, .call g [] .start, by simp [hbody, bodyExprs, Statement.exprs], [], .start, .self⟩, hg⟩
  refine ⟨"f", .single (hcalls (d := ⟨.void, "main", [], [.expr (.call "f" [] .start)], .start⟩) ?_ rfl rfl ?_),
    .tail (.single (hcalls (g := "g") (d := ⟨.void, "f", [], [.expr (.call "g" [] .start)], .start⟩) ?_ rfl rfl ?_))
      (hcalls (d := ⟨.void, "g", [], [.expr (.call "f" [] .start)], .start⟩) ?_ rfl rfl ?_)⟩
  all_goals simp [circle]

theorem circle_not_recursive : ¬ (circle []).Recursive := by
  have hcalls (g : String) : ¬ (circle []).Calls "main" g := by
    rintro ⟨⟨d, hd, hname, e, he, -⟩, -⟩
    simp only [circle, List.mem_cons, List.not_mem_nil, or_false] at hd
    rcases hd with rfl | rfl | rfl
    · cases he
    · exact absurd hname (by decide)
    · exact absurd hname (by decide)
  rintro ⟨f, hreach, hcircle⟩
  obtain rfl | ⟨g, hcall, -⟩ := hreach.cases_head
  · obtain ⟨g, hcall, -⟩ := TransGen.head'_iff.1 hcircle
    exact hcalls g hcall
  · exact hcalls g hcall

end Program
end TapeC
