import Mathlib.Data.List.TakeDrop
import Mathlib.Data.List.TakeWhile
import TapeC.Program.Folding
import TapeC.Proofs.Place
import TapeC.Proofs.Rendering

/-! The syntax trees that the grammar yields. Not every tree is written in some text: an
assignment joins only some operators, what fills an array is no single expression, the branch in
front of an `else` does not end with a conditional that could take it, and the statements in
front of the `break` of an arm hold no other one. -/

namespace TapeC

namespace Program

open Grammar

/-! ### Trees that can be written -/

/-- An expression that can be written. -/
inductive Expr.Written : Expr → Prop where
  | number (n : Int) (p : Position) : Written (.number n p)
  | char (c : Cell) (p : Position) : Written (.char c p)
  | bool (b : Bool) (p : Position) : Written (.bool b p)
  | access (name : String) (path : List (Selector Expr)) (p : Position) (h : ∀ e, .index e ∈ path → Written e) :
      Written (.access name path p)
  | binary (op : BinaryOp) (a b : Expr) (p : Position) (ha : Written a) (hb : Written b) : Written (.binary op a b p)
  | unary (op : UnaryOp) (e : Expr) (p : Position) (h : Written e) : Written (.unary op e p)
  | update (op : UpdateOp) (before : Bool) (target : Expr) (p : Position) (h : Written target) :
      Written (.update op before target p)
  | assign (target : Expr) (op : Option BinaryOp) (value : Expr) (p : Position) (ht : Written target)
      (hv : Written value) (hop : assignment? (assignKind op) = some op) : Written (.assign target op value p)
  | fill (target : Expr) (contents : Initializer Expr) (p : Position) (ht : Written target)
      (hc : ∀ e ∈ contents.leaves, Written e) (hwhole : ∀ e, contents ≠ .single e) : Written (.fill target contents p)
  | call (name : String) (args : List Expr) (p : Position) (h : ∀ e ∈ args, Written e) : Written (.call name args p)

def Declaration.Written (d : Declaration) : Prop :=
  (∀ n ∈ d.dims, 0 < n) ∧ ∀ i ∈ d.contents, ∀ e ∈ i.leaves, e.Written

/-- Whether a statement ends with a conditional that could take an `else`. -/
def Statement.isOpen : Statement → Bool
  | .ifElse _ _ b _ => branchIsOpen b
  | .whileLoop _ body _ | .forLoop _ _ _ body _ => body.isOpen
  | _ => false
where
  branchIsOpen : Option Statement → Bool
    | none => true
    | some s => s.isOpen

/-- What is asked of an arm besides its statements. -/
structure Case.Proper (c : Case Statement) : Prop where
  label : ∀ v, c.label = .value v → v.Written
  reached : ∀ s ∈ c.body, isBreak s = false
  unreachable : c.hasBreak = false → c.unreachable = []

/-- A statement that can be written. -/
inductive Statement.Written : Statement → Prop where
  | declare (d : Declaration) (h : d.Written) : Written (.declare d)
  | expr (e : Expr) (h : e.Written) : Written (.expr e)
  | print (text : String) (p : Position) : Written (.print text p)
  | block (body : List Statement) (p : Position) (h : ∀ s ∈ body, Written s) : Written (.block body p)
  | ifElse (c : Expr) (a : Statement) (b : Option Statement) (p : Position) (hc : c.Written) (ha : Written a)
      (hb : ∀ s ∈ b, Written s) (hopen : b.isSome → a.isOpen = false) : Written (.ifElse c a b p)
  | whileLoop (c : Expr) (body : Statement) (p : Position) (hc : c.Written) (h : Written body) :
      Written (.whileLoop c body p)
  | doLoop (body : Statement) (c : Expr) (p : Position) (h : Written body) (hc : c.Written) : Written (.doLoop body c p)
  | forLoop (init : Option Statement) (c step : Option Expr) (body : Statement) (p : Position)
      (hinit : ∀ s ∈ init, (∃ d : Declaration, d.Written ∧ s = .declare d) ∨ ∃ e : Expr, e.Written ∧ s = .expr e)
      (hc : ∀ e ∈ c, e.Written) (hstep : ∀ e ∈ step, e.Written) (h : Written body) :
      Written (.forLoop init c step body p)
  | switch (e : Expr) (cases : List (Case Statement)) (p : Position) (he : e.Written)
      (hcases : ∀ c ∈ cases, c.Proper) (hbody : ∀ c ∈ cases, ∀ s ∈ c.body, Written s)
      (hunreachable : ∀ c ∈ cases, ∀ s ∈ c.unreachable, Written s) : Written (.switch e cases p)
  | returns (e : Option Expr) (p : Position) (h : ∀ v ∈ e, v.Written) : Written (.returns e p)
  | breaks (p : Position) : Written (.breaks p)
  | continues (p : Position) : Written (.continues p)
  | empty : Written .empty

end Program

/-- A program that can be written. -/
structure Program.Written (p : Program) : Prop where
  structs : ∀ d ∈ p.structs, ∀ f ∈ d.fields, ∀ n ∈ f.dims, 0 < n
  globals : ∀ d ∈ p.globals, d.Written
  functions : ∀ f ∈ p.functions, ∀ s ∈ f.body, s.Written

namespace Grammar

open Program

/-- What holds of what a step reads and of the tokens that remain. -/
def Yields {α : Type} {n : Nat} (P : α → List Token → Prop) (x : Step α n) : Prop :=
  ∀ r, x = .ok r → P r.value r.rest

namespace Yields

variable {α β : Type} {m n : Nat} {P : α → List Token → Prop} {Q : β → List Token → Prop}

theorem pure {r : Parsed α n} (h : P r.value r.rest) : Yields P (Except.ok r) := by
  rintro _ ⟨⟩
  exact h

theorem error {e : Fault} : Yields P (.error e : Step α n) := nofun

theorem bind {x : Step α n} {f : Parsed α n → Step β m} (hx : Yields P x)
    (hf : ∀ v rest h, P v rest → Yields Q (f ⟨v, rest, h⟩)) : Yields Q (x >>= f) := by
  intro r hr
  cases x with
  | error e => cases hr
  | ok a => exact hf a.value a.rest a.shorter (hx a rfl) r hr

/-- A step of which nothing is asked. -/
theorem skip {x : Step α n} {f : Parsed α n → Step β m} (hf : ∀ v rest h, Yields Q (f ⟨v, rest, h⟩)) :
    Yields Q (x >>= f) :=
  bind (P := fun _ _ => True) (fun _ _ => trivial) fun v rest h _ => hf v rest h

end Yields

/-! ### Expressions -/

theorem assignment?_assignKind {k : Kind} {op : Option BinaryOp} (h : assignment? k = some op) :
    assignment? (assignKind op) = some op := by
  unfold assignment? at h
  split at h
  · cases h
    rfl
  next k =>
    cases h
    unfold compoundOp
    split <;> rfl
  · cases h

theorem written_updatesAfter {e : Expr} (he : e.Written) (ts : List Token) : (updatesAfter e ts).value.Written := by
  induction ts generalizing e with
  | nil => exact he
  | cons t ts ih =>
    rw [updatesAfter]
    split
    next op h => exact ih (.update op false e e.position he)
    next => exact he

mutual
theorem written_expression (fin : Position) (ts : List Token) : Yields (fun e _ => e.Written) (expression fin ts) := by
  rw [expression]
  refine .bind (written_binary fin levels ts) fun target rest h ht => ?_
  cases rest with
  | nil => exact .pure ht
  | cons t rest =>
    dsimp only
    have hrest : rest.length < ts.length := Nat.lt_of_succ_lt h
    split
    next => exact .pure ht
    next op hop =>
      split
      next hbegins =>
        refine .bind (written_contents fin rest) fun contents rest h' hc => ?_
        exact .pure (.fill target contents _ ht hc.1 (hc.2 (Bool.and_eq_true_iff.1 hbegins).2))
      next =>
        refine .bind (written_expression fin rest) fun value rest h' hv => ?_
        exact .pure (.assign target op value _ ht hv (assignment?_assignKind hop))
termination_by (ts.length, levels + 5)

theorem written_binary (fin : Position) (n : Nat) (ts : List Token) :
    Yields (fun e _ => e.Written) (binary fin n ts) := by
  match n with
  | 0 =>
    rw [binary]
    exact written_unary fin ts
  | n + 1 =>
    rw [binary]
    refine .bind (written_binary fin n ts) fun left rest h hl => ?_
    refine .bind (written_operands fin n left rest hl) fun e rest h' he => ?_
    exact .pure he
termination_by (ts.length, 4 + n)

theorem written_operands (fin : Position) (n : Nat) (left : Expr) (ts : List Token) (hl : left.Written) :
    Yields (fun e _ => e.Written) (operands fin n left ts) := by
  match ts with
  | [] =>
    rw [operands]
    exact .pure hl
  | t :: ts =>
    rw [operands]
    split
    next => exact .pure hl
    next op hop =>
      split
      next =>
        refine .bind (written_binary fin n ts) fun right rest h hr => ?_
        have hjoined : (Expr.binary op left right left.position).Written := .binary op left right _ hl hr
        dsimp only
        split
        next => exact .pure hjoined
        next =>
          refine .bind (written_operands fin n _ rest hjoined) fun e rest h' he => ?_
          exact .pure he
      next => exact .pure hl
termination_by (ts.length, 0)

theorem written_unary (fin : Position) (ts : List Token) : Yields (fun e _ => e.Written) (unary fin ts) := by
  match ts with
  | [] =>
    rw [unary]
    exact .error
  | t :: ts =>
    rw [unary]
    split
    next _ op _ =>
      refine .bind (written_unary fin ts) fun e rest h he => ?_
      exact .pure (.unary op e _ he)
    next op _ _ =>
      refine .bind (written_operand fin ts) fun e rest h he => ?_
      exact .pure (.update op true e _ he)
    next => exact written_operand fin (t :: ts)
termination_by (ts.length, 3)

theorem written_operand (fin : Position) (ts : List Token) : Yields (fun e _ => e.Written) (operand fin ts) := by
  rw [operand]
  refine .bind (written_primary fin ts) fun e rest h he => ?_
  exact .pure (written_updatesAfter he rest)
termination_by (ts.length, 2)

theorem written_primary (fin : Position) (ts : List Token) : Yields (fun e _ => e.Written) (primary fin ts) := by
  match ts with
  | [] =>
    rw [primary]
    exact .error
  | t :: ts =>
    rw [primary]
    split
    next n _ => exact .pure (.number n _)
    next c _ => exact .pure (.char c _)
    next => exact .pure (.bool true _)
    next => exact .pure (.bool false _)
    next =>
      refine .bind (written_expression fin ts) fun e rest h he => ?_
      refine .skip fun _ rest h' => ?_
      exact .pure he
    next name _ => exact written_named fin t.position name ts
    next => exact .error
    next => exact .error
    next => exact .error
termination_by (ts.length, 1)

theorem written_named (fin p : Position) (name : String) (ts : List Token) :
    Yields (fun e _ => e.Written) (named fin p name ts) := by
  match ts with
  | [] =>
    rw [named]
    exact .pure (.access name [] p nofun)
  | t :: ts =>
    rw [named]
    split
    next =>
      refine .bind (written_arguments fin ts) fun args rest h hargs => ?_
      exact .pure (.call name args p hargs)
    next =>
      refine .bind (written_selectors fin (t :: ts)) fun path rest h hpath => ?_
      exact .pure (.access name path p hpath)
termination_by (ts.length, 1)

theorem written_arguments (fin : Position) (ts : List Token) :
    Yields (fun (es : List Expr) _ => ∀ e ∈ es, e.Written) (arguments fin ts) := by
  rw [arguments]
  split
  next =>
    refine .skip fun _ rest h => ?_
    exact .pure nofun
  next =>
    refine .bind (written_argumentList fin ts) fun args rest h hargs => ?_
    refine .skip fun _ rest h' => ?_
    exact .pure hargs
termination_by (ts.length, levels + 7)

theorem written_argumentList (fin : Position) (ts : List Token) :
    Yields (fun (es : List Expr) _ => ∀ e ∈ es, e.Written) (argumentList fin ts) := by
  rw [argumentList]
  refine .bind (written_expression fin ts) fun arg rest h harg => ?_
  dsimp only
  split
  next =>
    refine .skip fun _ rest h' => ?_
    refine .bind (written_argumentList fin rest) fun args rest h'' hargs => ?_
    exact .pure (List.forall_mem_cons.2 ⟨harg, hargs⟩)
  next => exact .pure (List.forall_mem_singleton.2 harg)
termination_by (ts.length, levels + 6)

theorem written_selectors (fin : Position) (ts : List Token) :
    Yields (fun (path : List (Selector Expr)) _ => ∀ e, .index e ∈ path → e.Written) (selectors fin ts) := by
  match ts with
  | [] =>
    rw [selectors]
    exact .pure nofun
  | t :: ts =>
    rw [selectors]
    split
    next =>
      refine .bind (written_expression fin ts) fun e rest h he => ?_
      refine .skip fun _ rest h' => ?_
      refine .bind (written_selectors fin rest) fun path rest h'' hpath => ?_
      refine .pure fun e' he' => ?_
      rcases List.mem_cons.1 he' with heq | he'
      · cases heq
        exact he
      · exact hpath e' he'
    next =>
      split
      next =>
        refine .skip fun name rest h => ?_
        refine .bind (written_selectors fin rest) fun path rest h' hpath => ?_
        refine .pure fun e he => ?_
        exact hpath e ((List.mem_cons.1 he).resolve_left nofun)
      next => exact .pure nofun
termination_by (ts.length, 0)

theorem written_contents (fin : Position) (ts : List Token) :
    Yields (fun (i : Initializer Expr) _ =>
      (∀ e ∈ i.leaves, e.Written) ∧ (beginsContents (peek ts) = true → ∀ e, i ≠ .single e)) (contents fin ts) := by
  match ts with
  | [] =>
    rw [contents]
    exact .error
  | t :: ts =>
    rw [contents]
    split
    next =>
      split
      next =>
        refine .skip fun _ rest h => ?_
        exact .pure ⟨nofun, nofun⟩
      next =>
        refine .bind (written_contentsList fin ts) fun items rest h hitems => ?_
        refine .skip fun _ rest h' => ?_
        exact .pure ⟨hitems, nofun⟩
    next => exact .pure ⟨nofun, nofun⟩
    next hbrace htext =>
      refine .bind (written_expression fin (t :: ts)) fun e rest h he => ?_
      refine .pure ⟨fun e' he' => ?_, fun hb => ?_⟩
      · cases List.mem_singleton.1 he'
        exact he
      · unfold beginsContents peek at hb
        split at hb
        next hk => exact absurd hk hbrace
        next text hk => exact absurd hk (htext text)
        next => cases hb
termination_by (ts.length, levels + 6)

theorem written_contentsList (fin : Position) (ts : List Token) :
    Yields (fun (items : List (Initializer Expr)) _ => ∀ e ∈ leavesOfItems items, e.Written) (contentsList fin ts) := by
  rw [contentsList]
  refine .bind (written_contents fin ts) fun item rest h hitem => ?_
  dsimp only
  split
  next =>
    refine .skip fun _ rest h' => ?_
    refine .bind (written_contentsList fin rest) fun items rest h'' hitems => ?_
    exact .pure fun e he => (List.mem_append.1 he).elim (hitem.1 e) (hitems e)
  next => exact .pure fun e he => (List.mem_append.1 he).elim (hitem.1 e) nofun
termination_by (ts.length, levels + 7)
end

/-! ### Statements -/

theorem written_dimensions (fin : Position) (ts : List Token) :
    Yields (fun dims _ => ∀ n ∈ dims, 0 < n) (dimensions fin ts) := by
  cases ts with
  | nil =>
    rw [dimensions]
    exact .pure (List.forall_mem_nil _)
  | cons t ts =>
    rw [dimensions]
    split
    next =>
      have hdim : Yields (fun n _ => 0 < n) (dimension fin ts) := by
        cases ts with
        | nil => exact .error
        | cons t ts =>
          rw [dimension]
          split
          next n _ =>
            split
            next hn => exact .pure (Int.lt_toNat.2 hn)
            next => exact .error
          next => exact .error
      refine .bind hdim fun n rest h hn => ?_
      refine .skip fun _ rest h' => ?_
      refine .bind (written_dimensions fin rest) fun dims rest h'' hdims => ?_
      exact .pure (List.forall_mem_cons.2 ⟨hn, hdims⟩)
    next => exact .pure (List.forall_mem_nil _)
termination_by ts.length

theorem written_contents? (fin : Position) (ts : List Token) :
    Yields (fun (c : Option (Initializer Expr)) _ => ∀ i : Initializer Expr, i ∈ c → ∀ e ∈ i.leaves, e.Written)
      (contents? fin ts) := by
  have hnone (i : Initializer Expr) (hi : i ∈ (none : Option (Initializer Expr))) : ∀ e ∈ i.leaves, e.Written := by
    cases hi
  cases ts with
  | nil => exact .pure hnone
  | cons t ts =>
    rw [contents?]
    split
    next =>
      refine .bind (written_contents fin ts) fun i rest h hi => .pure ?_
      rintro _ ⟨⟩
      exact hi.1
    next => exact .pure hnone

theorem written_declaration (fin : Position) (ts : List Token) :
    Yields (fun d _ => d.Written) (declaration fin ts) := by
  refine .skip fun type rest _ => ?_
  refine .skip fun name rest _ => ?_
  refine .bind (written_dimensions fin rest) fun dims rest _ hdims => ?_
  refine .bind (written_contents? fin rest) fun contents rest _ hcontents => ?_
  refine .skip fun _ rest _ => ?_
  exact .pure ⟨hdims, hcontents⟩

theorem written_parenthesized (fin : Position) (ts : List Token) :
    Yields (fun e _ => e.Written) (parenthesized fin ts) := by
  refine .skip fun _ rest _ => ?_
  refine .bind (written_expression fin rest) fun e rest _ he => ?_
  refine .skip fun _ rest _ => ?_
  exact .pure he

theorem written_expressionUntil (fin : Position) (s : Symbol) (ts : List Token) :
    Yields (fun (e : Option Expr) _ => ∀ v ∈ e, v.Written) (expressionUntil fin s ts) := by
  unfold expressionUntil
  split
  next =>
    refine .skip fun _ rest _ => ?_
    exact .pure nofun
  next =>
    refine .bind (written_expression fin ts) fun e rest _ he => ?_
    refine .skip fun _ rest _ => ?_
    refine .pure ?_
    rintro _ ⟨⟩
    exact he

theorem written_loopInit (fin : Position) (ts : List Token) :
    Yields (fun (init : Option Statement) _ => ∀ s ∈ init,
      (∃ d : Declaration, d.Written ∧ s = .declare d) ∨ ∃ e : Expr, e.Written ∧ s = .expr e) (loopInit fin ts) := by
  have hdeclare : Yields (fun (init : Option Statement) _ => ∀ s ∈ init,
      (∃ d : Declaration, d.Written ∧ s = .declare d) ∨ ∃ e : Expr, e.Written ∧ s = .expr e)
      (do let r ← declaration fin ts; return r.map fun decl => some (.declare decl)) := by
    refine .bind (written_declaration fin ts) fun d rest _ hd => .pure ?_
    rintro _ ⟨⟩
    exact .inl ⟨d, hd, rfl⟩
  unfold loopInit
  split
  next => exact hdeclare
  next => exact hdeclare
  next =>
    refine .bind (written_expressionUntil fin .semicolon ts) fun e rest _ he => .pure fun s hs => ?_
    obtain ⟨v, hv, rfl⟩ := Option.map_eq_some_iff.1 hs
    exact .inr ⟨v, he v hv, rfl⟩

theorem written_caseLabel (fin : Position) (ts : List Token) :
    Yields (fun label _ => ∀ v, label = .value v → v.Written) (caseLabel fin ts) := by
  cases ts with
  | nil => exact .error
  | cons t ts =>
    rw [caseLabel]
    split
    next =>
      refine .bind (written_expression fin ts) fun e rest _ he => ?_
      refine .skip fun _ rest _ => ?_
      refine .pure ?_
      rintro _ ⟨⟩
      exact he
    next =>
      refine .skip fun _ rest _ => .pure ?_
      rintro _ ⟨⟩
    next => exact .error

theorem proper_arm {label : CaseLabel} (hlabel : ∀ v, label = .value v → v.Written) (statements : List Statement)
    (position : Position) : (arm label statements position).Proper := by
  unfold arm
  rw [List.span_eq_takeWhile_dropWhile]
  refine ⟨hlabel, fun s hs => ?_, fun h => ?_⟩
  · simpa using List.mem_takeWhile_imp hs
  · dsimp only at h ⊢
    rw [Bool.not_eq_false', List.isEmpty_iff] at h
    rw [h, List.tail_nil]

theorem mem_of_mem_arm {label : CaseLabel} {statements : List Statement} {position : Position} {s : Statement}
    (h : s ∈ (arm label statements position).body ∨ s ∈ (arm label statements position).unreachable) :
    s ∈ statements := by
  unfold arm at h
  rw [List.span_eq_takeWhile_dropWhile] at h
  rcases h with h | h
  · exact (List.takeWhile_sublist _).subset h
  · exact (List.dropWhile_sublist _).subset (List.mem_of_mem_tail h)

/-- A statement is read to its end. -/
def Whole (s : Statement) (rest : List Token) : Prop :=
  s.Written ∧ (s.isOpen = true → peek rest ≠ .keyword .else)

theorem Whole.closed {s : Statement} {rest : List Token} (h : s.Written) (hs : s.isOpen = false) : Whole s rest :=
  ⟨h, fun ho => by rw [hs] at ho; cases ho⟩

mutual
theorem whole_statement (fin : Position) (ts : List Token) : Yields Whole (statement fin ts) := by
  match ts with
  | [] =>
    rw [statement]
    exact .error
  | t :: ts =>
    have hdeclare : Yields Whole (do let r ← declaration fin (t :: ts); return r.map Statement.declare) :=
      .bind (written_declaration fin _) fun d rest _ hd => .pure (.closed (.declare d hd) rfl)
    rw [statement]
    split
    next =>
      refine .bind (written_blockBody fin ts) fun body rest _ h => ?_
      exact .pure (.closed (.block body _ h) rfl)
    next => exact hdeclare
    next => exact hdeclare
    next =>
      refine .bind (written_parenthesized fin ts) fun c rest _ hc => ?_
      refine .bind (whole_statement fin rest) fun a rest _ ha => ?_
      refine .bind (written_elseBranch fin rest) fun b rest _ hb => ?_
      refine .pure ⟨.ifElse c a b _ hc ha.1 hb.1 fun hsome => ?_, hb.2.2⟩
      exact Bool.eq_false_iff.2 fun ho => ha.2 ho (hb.2.1 hsome)
    next =>
      refine .bind (written_parenthesized fin ts) fun c rest _ hc => ?_
      refine .bind (whole_statement fin rest) fun body rest _ h => ?_
      exact .pure ⟨.whileLoop c body _ hc h.1, h.2⟩
    next =>
      refine .bind (whole_statement fin ts) fun body rest _ h => ?_
      refine .skip fun _ rest _ => ?_
      refine .bind (written_parenthesized fin rest) fun c rest _ hc => ?_
      refine .skip fun _ rest _ => ?_
      exact .pure (.closed (.doLoop body c _ h.1 hc) rfl)
    next =>
      refine .skip fun _ rest _ => ?_
      refine .bind (written_loopInit fin rest) fun init rest _ hinit => ?_
      refine .bind (written_expressionUntil fin .semicolon rest) fun c rest _ hc => ?_
      refine .bind (written_expressionUntil fin .rightParen rest) fun step rest _ hstep => ?_
      refine .bind (whole_statement fin rest) fun body rest _ h => ?_
      exact .pure ⟨.forLoop init c step body _ hinit hc hstep h.1, h.2⟩
    next =>
      refine .bind (written_parenthesized fin ts) fun e rest _ he => ?_
      refine .skip fun _ rest _ => ?_
      refine .bind (written_arms fin rest) fun cases rest _ hcases => ?_
      exact .pure (.closed (.switch e cases _ he (fun c hc => (hcases c hc).1) (fun c hc => (hcases c hc).2.1)
        fun c hc => (hcases c hc).2.2) rfl)
    next =>
      refine .bind (written_expressionUntil fin .semicolon ts) fun e rest _ he => ?_
      exact .pure (.closed (.returns e _ he) rfl)
    next =>
      refine .skip fun _ rest _ => ?_
      exact .pure (.closed (.breaks _) rfl)
    next =>
      refine .skip fun _ rest _ => ?_
      exact .pure (.closed (.continues _) rfl)
    next =>
      refine .skip fun text rest _ => ?_
      exact .pure (.closed (.print text _) rfl)
    next => exact .pure (.closed .empty rfl)
    next =>
      refine .bind (written_expression fin (t :: ts)) fun e rest _ he => ?_
      refine .skip fun _ rest _ => ?_
      exact .pure (.closed (.expr e he) rfl)
termination_by (ts.length, 0)

theorem written_elseBranch (fin : Position) (ts : List Token) :
    Yields (fun (b : Option Statement) rest => (∀ s ∈ b, s.Written) ∧ (b.isSome → peek ts = .keyword .else) ∧
      (Statement.isOpen.branchIsOpen b = true → peek rest ≠ .keyword .else)) (elseBranch fin ts) := by
  match ts with
  | [] =>
    rw [elseBranch]
    exact .pure ⟨nofun, nofun, fun _ => nofun⟩
  | t :: ts =>
    rw [elseBranch]
    split
    next ht =>
      refine .bind (whole_statement fin ts) fun s rest _ hs => .pure ⟨?_, fun _ => ht, hs.2⟩
      rintro _ ⟨⟩
      exact hs.1
    next ht => exact .pure ⟨nofun, nofun, fun _ => ht⟩
termination_by (ts.length, 0)

theorem written_blockBody (fin : Position) (ts : List Token) :
    Yields (fun (body : List Statement) _ => ∀ s ∈ body, s.Written) (blockBody fin ts) := by
  rw [blockBody]
  split
  next =>
    refine .skip fun _ rest _ => ?_
    exact .pure nofun
  next =>
    refine .bind (whole_statement fin ts) fun s rest _ hs => ?_
    refine .bind (written_blockBody fin rest) fun body rest _ hbody => ?_
    exact .pure (List.forall_mem_cons.2 ⟨hs.1, hbody⟩)
termination_by (ts.length, 1)

theorem written_arms (fin : Position) (ts : List Token) :
    Yields (fun (cases : List (Case Statement)) _ =>
      ∀ c ∈ cases, c.Proper ∧ (∀ s ∈ c.body, s.Written) ∧ ∀ s ∈ c.unreachable, s.Written) (arms fin ts) := by
  rw [arms]
  split
  next =>
    refine .skip fun _ rest _ => ?_
    exact .pure nofun
  next =>
    refine .bind (written_caseLabel fin ts) fun label rest _ hlabel => ?_
    refine .bind (written_armBody fin rest) fun statements rest _ hs => ?_
    refine .bind (written_arms fin rest) fun cases rest _ hcases => ?_
    refine .pure (List.forall_mem_cons.2 ⟨⟨proper_arm hlabel statements _, ?_, ?_⟩, hcases⟩)
    · exact fun s hmem => hs s (mem_of_mem_arm (.inl hmem))
    · exact fun s hmem => hs s (mem_of_mem_arm (.inr hmem))
termination_by (ts.length, 0)

theorem written_armBody (fin : Position) (ts : List Token) :
    Yields (fun (body : List Statement) _ => ∀ s ∈ body, s.Written) (armBody fin ts) := by
  match ts with
  | [] =>
    rw [armBody]
    exact .pure nofun
  | t :: ts =>
    rw [armBody]
    split
    next => exact .pure nofun
    next =>
      refine .bind (whole_statement fin (t :: ts)) fun s rest _ hs => ?_
      refine .bind (written_armBody fin rest) fun body rest _ hbody => ?_
      exact .pure (List.forall_mem_cons.2 ⟨hs.1, hbody⟩)
termination_by (ts.length, 1)
end

/-! ### Programs -/

theorem written_fields (fin : Position) (ts : List Token) :
    Yields (fun (fs : List FieldDef) _ => ∀ f ∈ fs, ∀ n ∈ f.dims, 0 < n) (fields fin ts) := by
  rw [fields]
  split
  next =>
    refine .skip fun _ rest _ => ?_
    exact .pure nofun
  next =>
    refine .skip fun type rest _ => ?_
    refine .skip fun name rest _ => ?_
    refine .bind (written_dimensions fin rest) fun dims rest _ hdims => ?_
    refine .skip fun _ rest _ => ?_
    refine .bind (written_fields fin rest) fun others rest _ hothers => ?_
    exact .pure (List.forall_mem_cons.2 ⟨hdims, hothers⟩)
termination_by ts.length

theorem written_functionDef (fin : Position) (returns : ReturnKind) (ts : List Token) :
    Yields (fun (f : FunctionDef) _ => ∀ s ∈ f.body, s.Written) (functionDef fin returns ts) := by
  refine .skip fun name rest _ => ?_
  refine .skip fun _ rest _ => ?_
  refine .skip fun params rest _ => ?_
  refine .skip fun _ rest _ => ?_
  refine .bind (written_blockBody fin rest) fun body rest _ hbody => ?_
  exact .pure hbody

/-- A definition that can be written. -/
def Item.Written : Item → Prop
  | .struct d => ∀ f ∈ d.fields, ∀ n ∈ f.dims, 0 < n
  | .global d => d.Written
  | .function f => ∀ s ∈ f.body, s.Written

theorem written_item (fin : Position) (ts : List Token) : Yields (fun i _ => i.Written) (item fin ts) := by
  match ts with
  | [] => exact .error
  | t :: ts =>
    have hglobal : Yields (fun i _ => i.Written) (do let r ← declaration fin (t :: ts); return r.map Item.global) :=
      .bind (written_declaration fin _) fun d rest _ hd => .pure hd
    have hfunction (returns : ReturnKind) :
        Yields (fun i _ => i.Written) (do let r ← functionDef fin returns ts; return (r.map Item.function).after t) :=
      .bind (written_functionDef fin returns ts) fun f rest _ hf => .pure hf
    rw [item]
    split
    next =>
      split
      next =>
        refine .bind (P := fun (d : StructDef) _ => ∀ f ∈ d.fields, ∀ n ∈ f.dims, 0 < n) ?_ fun d rest _ hd => .pure hd
        refine .skip fun name rest _ => ?_
        refine .skip fun _ rest _ => ?_
        refine .bind (written_fields fin rest) fun fs rest _ hfs => ?_
        refine .skip fun _ rest _ => ?_
        exact .pure hfs
      next => exact hglobal
    next => exact hfunction .void
    next =>
      split
      next => exact hfunction .int
      next => exact hglobal
    next => exact .error
    next => exact .error

theorem written_items (fin : Position) (ts : List Token) {is : List Item} (h : items fin ts = .ok is) :
    ∀ i ∈ is, i.Written := by
  rw [items] at h
  split at h
  · cases h
    exact nofun
  · obtain ⟨⟨i, rest, hlt⟩, hi, h⟩ := Layout.bind_eq_ok.1 h
    obtain ⟨others, hothers, h⟩ := Layout.bind_eq_ok.1 h
    cases h
    exact List.forall_mem_cons.2 ⟨written_item fin ts _ hi, written_items fin rest hothers⟩
termination_by ts.length

/-- Only programs that can be written are read. -/
theorem written_program {ts : List Token} {p : Program} (h : program ts = .ok p) : p.Written := by
  rw [program] at h
  generalize untilEnd ts = text at h
  obtain ⟨is, his, h⟩ := Layout.bind_eq_ok.1 h
  cases h
  have hwritten := written_items _ _ his
  refine ⟨fun d hd => ?_, fun d hd => ?_, fun f hf => ?_⟩
  · obtain ⟨i, hi, heq⟩ := List.mem_filterMap.1 hd
    cases i <;> cases heq
    exact hwritten _ hi
  · obtain ⟨i, hi, heq⟩ := List.mem_filterMap.1 hd
    cases i <;> cases heq
    exact hwritten _ hi
  · obtain ⟨i, hi, heq⟩ := List.mem_filterMap.1 hf
    cases i <;> cases heq
    exact hwritten _ hi

end Grammar
end TapeC
