import TapeC.Proofs.Written

/-! Reading the tokens of an expression. What is read at a level is read at each looser one too
when the token behind it does not go on there; a chain of operators that join to the left is
read from its first operand on. -/

namespace TapeC

/-- Tokens of these kinds, at the first position. -/
def Token.ofKinds (ks : List Kind) : List Token := ks.map ofKind

@[simp] theorem Token.ofKinds_nil : ofKinds [] = [] := rfl

@[simp] theorem Token.ofKinds_cons (k : Kind) (ks : List Kind) : ofKinds (k :: ks) = ofKind k :: ofKinds ks := rfl

@[simp] theorem Token.ofKinds_append (ks ls : List Kind) : ofKinds (ks ++ ls) = ofKinds ks ++ ofKinds ls :=
  List.map_append

@[simp] theorem Token.ofKind_kind (k : Kind) : (ofKind k).kind = k := rfl

@[simp] theorem Token.ofKind_position (k : Kind) : (ofKind k).position = .start := rfl

namespace Grammar

open Program Token

variable {α β : Type} {m n : Nat} {fin : Position} {ts rest rest' : List Token} {e : Expr}

@[simp] theorem peek_cons (t : Token) (ts : List Token) : peek (t :: ts) = t.kind := rfl

/-! ### Steps that succeed -/

/-- A step reads a value and leaves these tokens. -/
def Reads (x : Step α n) (v : α) (rest : List Token) : Prop := ∃ h, x = .ok ⟨v, rest, h⟩

namespace Reads

theorem pure (r : Parsed α n) : Reads (.ok r) r.value r.rest := ⟨r.shorter, rfl⟩

theorem of_ok {r : Parsed α n} {v : α} (h : Reads (.ok r) v rest) : r.value = v ∧ r.rest = rest := by
  obtain ⟨_, h⟩ := h
  cases h
  exact ⟨rfl, rfl⟩

theorem bind {x : Step α n} {f : Parsed α n → Step β m} {v : α} {w : β} (hx : Reads x v rest)
    (hf : ∀ h, Reads (f ⟨v, rest, h⟩) w rest') : Reads (x >>= f) w rest' := by
  obtain ⟨h, rfl⟩ := hx
  exact hf h

end Reads

theorem reads_expect (k : Kind) (ts : List Token) : Reads (expect k (ofKind k :: ts)) () ts := by
  rw [expect, if_pos (ofKind_kind k)]
  exact .pure _

theorem reads_symbol (s : Symbol) (ts : List Token) : Reads (symbol s (ofKind (.symbol s) :: ts)) () ts :=
  reads_expect _ ts

theorem reads_identifier (name : String) (ts : List Token) :
    Reads (identifier (ofKind (.identifier name) :: ts)) name ts :=
  .pure _

/-! ### Tokens behind an expression -/

/-- A token does not go on with what is read at a level. -/
structure Ends (n : Nat) (k : Kind) : Prop where
  paren : k ≠ .symbol .leftParen
  bracket : k ≠ .symbol .leftBracket
  dot : k ≠ .symbol .dot
  update : 1 ≤ n → updateOp? k = none
  binary : ∀ op, binaryOp? k = some op → n < looseness op + 3
  assign : levels + 3 ≤ n → assignment? k = none

theorem Ends.mono {k : Kind} (h : Ends n k) (hmn : m ≤ n) : Ends m k :=
  ⟨h.paren, h.bracket, h.dot, fun hm => h.update (hm.trans hmn), fun op hop => hmn.trans_lt (h.binary op hop),
    fun hm => h.assign (hm.trans hmn)⟩

/-- Whether a token ends every expression. -/
def closes : Kind → Bool
  | .symbol .semicolon | .symbol .comma | .symbol .colon | .symbol .rightParen | .symbol .rightBracket
  | .symbol .rightBrace => true
  | _ => false

theorem Ends.of_closes {k : Kind} (h : closes k = true) : Ends n k := by
  unfold closes at h
  split at h <;> first | exact ⟨nofun, nofun, nofun, fun _ => rfl, nofun, fun _ => rfl⟩ | cases h

theorem binaryOp?_kind (op : BinaryOp) : binaryOp? op.kind = some op := by cases op <;> rfl

theorem unaryOp?_kind (op : UnaryOp) : unaryOp? op.kind = some op := by cases op <;> rfl

theorem updateOp?_kind (op : UpdateOp) : updateOp? op.kind = some op := by cases op <;> rfl

theorem unaryOp?_updateKind (op : UpdateOp) : unaryOp? op.kind = none := by cases op <;> rfl

theorem looseness_lt (op : BinaryOp) : looseness op < levels := by cases op <;> decide

theorem Ends.of_binary {op : BinaryOp} (h : n < looseness op + 3) : Ends n op.kind where
  paren := by cases op <;> nofun
  bracket := by cases op <;> nofun
  dot := by cases op <;> nofun
  update _ := by cases op <;> rfl
  binary op' hop := by
    rw [binaryOp?_kind] at hop
    cases hop
    exact h
  assign hn := absurd (looseness_lt op) (by omega)

theorem Ends.of_update (op : UpdateOp) : Ends 0 op.kind := by
  cases op <;> exact ⟨nofun, nofun, nofun, nofun, nofun, nofun⟩

theorem Ends.of_assign (op : Option BinaryOp) : Ends (levels + 2) (assignKind op) := by
  cases op <;> exact ⟨nofun, nofun, nofun, fun _ => rfl, nofun, nofun⟩

/-! ### Tokens in front of an expression -/

/-- Whether a token may begin an expression. -/
def beginsExpression : Kind → Bool
  | .number _ | .char _ | .keyword .true | .keyword .false | .identifier _ | .symbol .leftParen | .symbol .bang
  | .symbol .tilde | .symbol .minus | .symbol .plusPlus | .symbol .minusMinus | .symbol .starStar
  | .symbol .slashSlash | .symbol .percentPercent => true
  | _ => false

/-- The kinds begin with one that may begin an expression. -/
def Begins (ks : List Kind) : Prop := ∃ k ls, ks = k :: ls ∧ beginsExpression k = true

theorem Begins.append {ks : List Kind} (h : Begins ks) (ls : List Kind) : Begins (ks ++ ls) := by
  obtain ⟨k, ks, rfl, hk⟩ := h
  exact ⟨k, ks ++ ls, rfl, hk⟩

theorem Begins.within {ks : List Kind} (h : Begins ks) (n : Nat) (e : Expr) : Begins (within n e ks) := by
  unfold Program.within
  split
  · exact h
  · exact ⟨_, _, rfl, rfl⟩

theorem begins_kinds (e : Expr) : Begins e.kinds := by
  match e with
  | .number _ _ | .char _ _ | .access _ _ _ | .call _ _ _ => exact ⟨_, _, rfl, rfl⟩
  | .bool b _ => cases b <;> exact ⟨_, _, rfl, rfl⟩
  | .binary op a b _ => exact ((begins_kinds a).within _ _).append _
  | .unary op e _ => cases op <;> exact ⟨_, _, rfl, rfl⟩
  | .update op true target _ => cases op <;> exact ⟨_, _, rfl, rfl⟩
  | .update op false target _ => exact ((begins_kinds target).within _ _).append _
  | .assign target op value _ => exact ((begins_kinds target).within _ _).append _
  | .fill target contents _ => exact ((begins_kinds target).within _ _).append _

/-- The first token of an expression. -/
theorem exists_ofKinds (e : Expr) (rest : List Token) :
    ∃ t ts, ofKinds e.kinds ++ rest = t :: ts ∧ beginsExpression t.kind = true := by
  obtain ⟨k, ks, h, hk⟩ := begins_kinds e
  exact ⟨ofKind k, ofKinds ks ++ rest, by rw [h, ofKinds_cons, List.cons_append], hk⟩

/-! ### Levels -/

/-- What is read at a level. -/
def atLevel (fin : Position) (n : Nat) (ts : List Token) : Step Expr ts.length :=
  match n with
  | 0 => primary fin ts
  | 1 => operand fin ts
  | n + 2 => if n ≤ levels then binary fin n ts else expression fin ts

theorem atLevel_binary (h : n ≤ levels) : atLevel fin (n + 2) ts = binary fin n ts := if_pos h

theorem atLevel_expression : atLevel fin (levels + 3) ts = expression fin ts := by
  rw [atLevel, if_neg (Nat.not_succ_le_self levels)]

theorem updatesAfter_stay (hend : updateOp? (peek rest) = none) (e : Expr) : updatesAfter e rest = .stay e rest := by
  cases rest with
  | nil => rfl
  | cons t rest =>
    rw [updatesAfter]
    split
    next op hop => cases hend.symm.trans hop
    next => rfl

theorem reads_operand (h : Reads (primary fin ts) e rest) (hend : updateOp? (peek rest) = none) :
    Reads (operand fin ts) e rest := by
  rw [operand]
  refine h.bind fun h => ?_
  dsimp only
  rw [updatesAfter_stay hend]
  exact .pure _

/-- An operand does not begin with an operator. -/
theorem no_op_of_primary {t : Token} (h : Reads (primary fin (t :: ts)) e rest) :
    unaryOp? t.kind = none ∧ updateOp? t.kind = none := by
  obtain ⟨_, h⟩ := h
  rw [primary] at h
  split at h <;> first | (rename_i hk; rw [hk]; exact ⟨rfl, rfl⟩) | cases h

theorem reads_unary (h : Reads (operand fin ts) e rest) : Reads (unary fin ts) e rest := by
  cases ts with
  | nil =>
    obtain ⟨_, h⟩ := h
    rw [operand, primary] at h
    cases h
  | cons t ts =>
    have hop : unaryOp? t.kind = none ∧ updateOp? t.kind = none := by
      obtain ⟨_, h⟩ := h
      rw [operand] at h
      obtain ⟨r, hr, -⟩ := Layout.bind_eq_ok.1 h
      exact no_op_of_primary ⟨r.shorter, hr⟩
    rw [unary]
    split
    next op h' => cases hop.1.symm.trans h'
    next op _ h' => cases hop.2.symm.trans h'
    next => exact h

theorem operands_stay (hend : ∀ op, binaryOp? (peek rest) = some op → looseness op ≠ n) (left : Expr) :
    operands fin n left rest = .ok (.stay left rest) := by
  cases rest with
  | nil => rw [operands]
  | cons t rest =>
    rw [operands]
    split
    next => rfl
    next op hop => rw [if_neg (hend op hop)]

theorem reads_binary_succ (h : Reads (binary fin n ts) e rest)
    (hend : ∀ op, binaryOp? (peek rest) = some op → looseness op ≠ n) : Reads (binary fin (n + 1) ts) e rest := by
  rw [binary]
  refine h.bind fun h => ?_
  dsimp only
  rw [operands_stay hend]
  exact .pure _

theorem reads_expression (h : Reads (binary fin levels ts) e rest) (hend : assignment? (peek rest) = none) :
    Reads (expression fin ts) e rest := by
  rw [expression]
  refine h.bind fun h => ?_
  cases rest with
  | nil => exact .pure _
  | cons t rest =>
    dsimp only
    split
    next => exact .pure _
    next op hop => cases hend.symm.trans hop

/-- What is read at a level is read at a looser one too. -/
theorem reads_succ (h : Reads (atLevel fin n ts) e rest) (hn : n < levels + 3) (hend : Ends (n + 1) (peek rest)) :
    Reads (atLevel fin (n + 1) ts) e rest := by
  match n with
  | 0 => exact reads_operand h (hend.update le_rfl)
  | 1 =>
    rw [atLevel_binary (Nat.zero_le _), binary]
    exact reads_unary h
  | n + 2 =>
    by_cases hlast : n = levels
    · subst hlast
      rw [atLevel_binary le_rfl] at h
      rw [atLevel_expression]
      exact reads_expression h (hend.assign le_rfl)
    · have hlt : n < levels := by omega
      rw [atLevel_binary hlt.le] at h
      rw [atLevel_binary hlt]
      refine reads_binary_succ h fun op hop heq => ?_
      have := hend.binary op hop
      omega

theorem reads_of_le (h : Reads (atLevel fin m ts) e rest) (hmn : m ≤ n) (hn : n ≤ levels + 3)
    (hend : Ends n (peek rest)) :
    Reads (atLevel fin n ts) e rest := by
  induction n, hmn using Nat.le_induction with
  | base => exact h
  | succ n hmn ih => exact reads_succ (ih (by omega) (hend.mono (by omega))) (by omega) hend

/-! ### Legible expressions -/

theorem level_le (e : Expr) : e.level ≤ levels + 3 := by
  unfold Expr.level
  split
  case h_9 => exact Nat.add_le_add_right (looseness_lt _).le 3
  all_goals decide

@[simp] theorem position_atStart (e : Expr) : e.atStart.position = .start := by
  cases e <;> simp only [Expr.atStart, Expr.position]

/-- The tokens of an expression are read at its own level. -/
def OwnLevel (fin : Position) (e : Expr) : Prop :=
  ∀ rest, Ends e.level (peek rest) → Reads (atLevel fin e.level (ofKinds e.kinds ++ rest)) e.atStart rest

theorem OwnLevel.expression (h : OwnLevel fin e) (hend : Ends (levels + 3) (peek rest)) :
    Reads (expression fin (ofKinds e.kinds ++ rest)) e.atStart rest := by
  rw [← atLevel_expression]
  exact reads_of_le (h rest (hend.mono (level_le e))) (level_le e) le_rfl hend

/-- The expression, in parentheses if need be. -/
theorem OwnLevel.within (h : OwnLevel fin e) (hn : n ≤ levels + 3) (hend : Ends n (peek rest)) :
    Reads (atLevel fin n (ofKinds (within n e e.kinds) ++ rest)) e.atStart rest := by
  unfold Program.within
  by_cases hlevel : e.level ≤ n
  · rw [if_pos hlevel]
    exact reads_of_le (h rest (hend.mono hlevel)) hlevel hn hend
  · rw [if_neg hlevel]
    refine reads_of_le (m := 0) ?_ (Nat.zero_le n) hn hend
    have htokens : ofKinds (.symbol .leftParen :: e.kinds ++ [.symbol .rightParen]) ++ rest =
        ofKind (.symbol .leftParen) :: (ofKinds e.kinds ++ ofKind (.symbol .rightParen) :: rest) := by simp
    rw [htokens, atLevel, primary]
    have hclose : Ends (levels + 3) (peek (ofKind (.symbol .rightParen) :: rest)) := .of_closes rfl
    refine (h.expression hclose).bind fun _ => ?_
    exact (reads_symbol .rightParen rest).bind fun _ => .pure _

theorem OwnLevel.joins (h : OwnLevel fin e) (hn : n < levels) (hlevel : e.level ≠ n + 3)
    (hend : Ends (n + 2) (peek rest))
    {v : Expr} (hv : Reads (operands fin n e.atStart rest) v rest') :
    Reads (binary fin (n + 1) (ofKinds (Program.within (n + 3) e e.kinds) ++ rest)) v rest' := by
  have hwithin : Program.within (n + 3) e e.kinds = Program.within (n + 2) e e.kinds := by
    unfold Program.within
    exact if_congr (by omega) rfl rfl
  have hread := h.within (n := n + 2) (by omega) hend
  rw [atLevel_binary hn.le] at hread
  rw [hwithin, binary]
  exact hread.bind fun _ => hv.bind fun _ => .pure _

theorem OwnLevel.updates (h : OwnLevel fin e) (hlevel : e.level ≠ 1) (hend : Ends 0 (peek rest)) :
    Reads (operand fin (ofKinds (Program.within 1 e e.kinds) ++ rest))
      (updatesAfter e.atStart rest).value (updatesAfter e.atStart rest).rest := by
  have hwithin : Program.within 1 e e.kinds = Program.within 0 e e.kinds := by
    unfold Program.within
    exact if_congr (by omega) rfl rfl
  rw [hwithin, operand]
  exact (h.within (n := 0) (Nat.zero_le _) hend).bind fun _ => .pure _

/-- The tokens of an expression are read as they are meant: by themselves, as the first operand
of a chain, and with updates behind them. -/
structure Legible (fin : Position) (e : Expr) : Prop where
  own : OwnLevel fin e
  joins : ∀ n rest, n < levels → n ≠ comparisonLevel → Ends (n + 2) (peek rest) → ∀ v rest',
    Reads (operands fin n e.atStart rest) v rest' →
    Reads (binary fin (n + 1) (ofKinds (within (n + 3) e e.kinds) ++ rest)) v rest'
  updates : ∀ rest, Ends 0 (peek rest) → Reads (operand fin (ofKinds (within 1 e e.kinds) ++ rest))
    (updatesAfter e.atStart rest).value (updatesAfter e.atStart rest).rest

/-- An expression that is neither an operator between two operands nor has updates behind it. -/
theorem OwnLevel.legible (h : OwnLevel fin e) (hlevel : e.level = 0 ∨ e.level = 2 ∨ e.level = levels + 3) :
    Legible fin e where
  own := h
  joins n rest hn _ hend v rest' hv := h.joins hn (by omega) hend hv
  updates rest hend := h.updates (by have : levels = 9 := rfl; omega) hend

/-! ### Parts of expressions -/

theorem startsWith_self (s : Symbol) (ts : List Token) : startsWith s (ofKind (.symbol s) :: ts) = true := by
  simp [startsWith]

theorem startsWith_cons {s : Symbol} {t : Token} : startsWith s (t :: ts) = (t.kind == .symbol s) := rfl

theorem startsWith_expression (s : Symbol) (hs : beginsExpression (.symbol s) = false) (e : Expr) (rest : List Token) :
    startsWith s (ofKinds e.kinds ++ rest) = false := by
  obtain ⟨t, ts, h, ht⟩ := exists_ofKinds e rest
  rw [h, startsWith_cons, beq_eq_false_iff_ne]
  rintro hk
  rw [hk, hs] at ht
  cases ht

theorem reads_selectors {path : List (Selector Expr)} (h : ∀ e, .index e ∈ path → OwnLevel fin e)
    (hend : Ends 0 (peek rest)) : Reads (selectors fin (ofKinds (pathKinds path) ++ rest)) (pathAtStart path) rest := by
  induction path with
  | nil =>
    cases rest with
    | nil =>
      change Reads (selectors fin []) _ _
      rw [selectors]
      exact .pure _
    | cons t rest =>
      change Reads (selectors fin (t :: rest)) _ _
      rw [selectors, if_neg (show t.kind ≠ _ from hend.bracket), if_neg (show t.kind ≠ _ from hend.dot)]
      exact .pure _
  | cons s path ih =>
    have hpath := ih fun e he => h e (List.mem_cons_of_mem _ he)
    cases s with
    | index e =>
      have htokens : ofKinds (pathKinds (.index e :: path)) ++ rest = ofKind (.symbol .leftBracket) ::
          (ofKinds e.kinds ++ ofKind (.symbol .rightBracket) :: (ofKinds (pathKinds path) ++ rest)) :=
        by simp [pathKinds]
      rw [htokens, selectors, if_pos (ofKind_kind _)]
      refine ((h e List.mem_cons_self).expression (Ends.of_closes rfl)).bind fun _ => ?_
      exact (reads_symbol .rightBracket _).bind fun _ => hpath.bind fun _ => .pure _
    | field name =>
      have htokens : ofKinds (pathKinds (.field name :: path)) ++ rest =
          ofKind (.symbol .dot) :: ofKind (.identifier name) :: (ofKinds (pathKinds path) ++ rest) :=
        by simp [pathKinds]
      rw [htokens, selectors, if_neg (by simp), if_pos (ofKind_kind _)]
      exact (reads_identifier name _).bind fun _ => hpath.bind fun _ => .pure _

theorem reads_argumentList {e : Expr} {es : List Expr} (he : OwnLevel fin e) (hes : ∀ e ∈ es, OwnLevel fin e)
    (hend : peek rest = .symbol .rightParen) :
    Reads (argumentList fin (ofKinds (e.kinds ++ moreArgKinds es) ++ rest)) (argsAtStart (e :: es)) rest := by
  induction es generalizing e with
  | nil =>
    have htokens : ofKinds (e.kinds ++ moreArgKinds []) ++ rest = ofKinds e.kinds ++ rest := by simp [moreArgKinds]
    rw [htokens, argumentList]
    refine (he.expression (Ends.of_closes (by rw [hend]; rfl))).bind fun _ => ?_
    dsimp only
    rw [if_neg (by rw [startsWith, hend]; decide)]
    exact .pure _
  | cons e' es ih =>
    have htokens : ofKinds (e.kinds ++ moreArgKinds (e' :: es)) ++ rest = ofKinds e.kinds ++
        ofKind (.symbol .comma) :: (ofKinds (e'.kinds ++ moreArgKinds es) ++ rest) := by simp [moreArgKinds]
    rw [htokens, argumentList]
    refine (he.expression (Ends.of_closes rfl)).bind fun _ => ?_
    dsimp only
    rw [if_pos (startsWith_self _ _)]
    obtain ⟨he', hes⟩ := List.forall_mem_cons.1 hes
    exact (reads_symbol .comma _).bind fun _ => (ih he' hes).bind fun _ => .pure _

theorem startsWith_contents (i : Initializer Expr) (ks : List Kind) (rest : List Token) :
    startsWith .rightBrace (ofKinds (contentsKinds i ++ ks) ++ rest) = false := by
  cases i with
  | single e =>
    rw [ofKinds_append, List.append_assoc]
    exact startsWith_expression _ rfl e _
  | list items p => rfl
  | text text p => rfl

mutual
theorem reads_contents (i : Initializer Expr) (h : ∀ e ∈ i.leaves, OwnLevel fin e) {rest : List Token}
    (hend : Ends (levels + 3) (peek rest)) :
    Reads (contents fin (ofKinds (contentsKinds i) ++ rest)) (contentsAtStart i) rest := by
  match i with
  | .single e =>
    have hread := (h e List.mem_cons_self).expression hend
    obtain ⟨t, ts, htokens, ht⟩ := exists_ofKinds e rest
    change Reads (contents fin (ofKinds e.kinds ++ rest)) _ _
    rw [htokens] at hread ⊢
    rw [contents]
    split
    next hk => rw [hk] at ht; cases ht
    next hk => rw [hk] at ht; cases ht
    next => exact hread.bind fun _ => .pure _
  | .text text p =>
    change Reads (contents fin (ofKind (.string text) :: rest)) _ _
    rw [contents]
    exact .pure _
  | .list [] p =>
    change Reads (contents fin (ofKind (.symbol .leftBrace) :: ofKind (.symbol .rightBrace) :: rest)) _ _
    rw [contents]
    exact (reads_symbol .rightBrace rest).bind fun _ => .pure _
  | .list (i :: items) p =>
    have htokens : ofKinds (contentsKinds (.list (i :: items) p)) ++ rest = ofKind (.symbol .leftBrace) ::
        (ofKinds (contentsKinds i ++ moreItemKinds items) ++ ofKind (.symbol .rightBrace) :: rest) := by
      simp [contentsKinds, itemKinds]
    rw [htokens, contents]
    simp only [ofKind_kind, startsWith_contents]
    refine (reads_contentsList i items h rfl).bind fun _ => ?_
    exact (reads_symbol .rightBrace rest).bind fun _ => .pure _
termination_by sizeOf i

theorem reads_contentsList (i : Initializer Expr) (items : List (Initializer Expr))
    (h : ∀ e ∈ leavesOfItems (i :: items), OwnLevel fin e) {rest : List Token}
    (hend : peek rest = .symbol .rightBrace) :
    Reads (contentsList fin (ofKinds (contentsKinds i ++ moreItemKinds items) ++ rest))
      (itemsAtStart (i :: items)) rest := by
  have hi : ∀ e ∈ i.leaves, OwnLevel fin e := fun e he => h e (List.mem_append_left _ he)
  match items with
  | [] =>
    have htokens : ofKinds (contentsKinds i ++ moreItemKinds []) ++ rest = ofKinds (contentsKinds i) ++ rest := by
      simp [moreItemKinds]
    rw [htokens, contentsList]
    refine (reads_contents i hi (Ends.of_closes (by rw [hend]; rfl))).bind fun _ => ?_
    dsimp only
    rw [if_neg (by rw [startsWith, hend]; decide)]
    exact .pure _
  | i' :: items =>
    have htokens : ofKinds (contentsKinds i ++ moreItemKinds (i' :: items)) ++ rest = ofKinds (contentsKinds i) ++
        ofKind (.symbol .comma) :: (ofKinds (contentsKinds i' ++ moreItemKinds items) ++ rest) :=
      by simp [moreItemKinds]
    rw [htokens, contentsList]
    refine (reads_contents i hi (Ends.of_closes rfl)).bind fun _ => ?_
    dsimp only
    rw [if_pos (startsWith_self _ _)]
    have hitems := reads_contentsList i' items (fun e he => h e (List.mem_append_right _ he)) hend
    exact (reads_symbol .comma _).bind fun _ => hitems.bind fun _ => .pure _
termination_by sizeOf i + sizeOf items
end

/-! ### Expressions -/

theorem peek_path (path : List (Selector Expr)) (hend : Ends 0 (peek rest)) :
    peek (ofKinds (pathKinds path) ++ rest) ≠ .symbol .leftParen := by
  cases path with
  | nil => exact hend.paren
  | cons s path => cases s <;> nofun

theorem ownLevel_access {path : List (Selector Expr)} (h : ∀ e, .index e ∈ path → OwnLevel fin e) (name : String)
    (p : Position) : OwnLevel fin (.access name path p) := by
  intro rest hend
  have hread := reads_selectors h hend
  change Reads (primary fin (ofKind (.identifier name) :: (ofKinds (pathKinds path) ++ rest))) _ _
  rw [primary]
  change Reads (named fin .start name _) _ _
  have hparen := peek_path path hend
  generalize ofKinds (pathKinds path) ++ rest = ts at hread hparen
  cases ts with
  | nil =>
    rw [selectors] at hread
    obtain ⟨hpath, rfl⟩ := hread.of_ok
    rw [named, Expr.atStart, ← hpath]
    exact .pure _
  | cons t ts =>
    rw [named, if_neg (show t.kind ≠ _ from hparen)]
    exact hread.bind fun _ => .pure _

theorem reads_arguments {args : List Expr} (h : ∀ e ∈ args, OwnLevel fin e) (rest : List Token) :
    Reads (arguments fin (ofKinds (argKinds args) ++ ofKind (.symbol .rightParen) :: rest))
      (argsAtStart args) rest := by
  cases args with
  | nil =>
    change Reads (arguments fin (ofKind (.symbol .rightParen) :: rest)) _ _
    rw [arguments, if_pos (startsWith_self _ _)]
    exact (reads_symbol .rightParen rest).bind fun _ => .pure _
  | cons e es =>
    obtain ⟨he, hes⟩ := List.forall_mem_cons.1 h
    have hargs :
        startsWith .rightParen (ofKinds (argKinds (e :: es)) ++ ofKind (.symbol .rightParen) :: rest) = false := by
      rw [argKinds, ofKinds_append, List.append_assoc]
      exact startsWith_expression _ rfl e _
    rw [arguments, if_neg (by rw [hargs]; nofun)]
    refine (reads_argumentList he hes rfl).bind fun _ => ?_
    exact (reads_symbol .rightParen rest).bind fun _ => .pure _

theorem ownLevel_call {args : List Expr} (h : ∀ e ∈ args, OwnLevel fin e) (name : String) (p : Position) :
    OwnLevel fin (.call name args p) := by
  intro rest _
  have htokens : ofKinds (Expr.call name args p).kinds ++ rest = ofKind (.identifier name) ::
      ofKind (.symbol .leftParen) :: (ofKinds (argKinds args) ++ ofKind (.symbol .rightParen) :: rest) :=
    by simp [Expr.kinds]
  rw [htokens, Expr.level, atLevel, primary]
  change Reads (named fin .start name _) _ _
  rw [named, if_pos (ofKind_kind _)]
  exact (reads_arguments h rest).bind fun _ => .pure _

theorem ownLevel_unary {op : UnaryOp} (h : OwnLevel fin e) (p : Position) : OwnLevel fin (.unary op e p) := by
  intro rest hend
  have hread := h.within (n := 2) (by decide) hend
  rw [atLevel_binary (Nat.zero_le _), binary] at hread
  change Reads (binary fin 0 (ofKind op.kind :: (ofKinds (within 2 e e.kinds) ++ rest))) _ _
  rw [binary, unary]
  simp only [ofKind_kind, unaryOp?_kind]
  exact hread.bind fun _ => .pure _

theorem ownLevel_updateBefore {op : UpdateOp} (h : OwnLevel fin e) (p : Position) :
    OwnLevel fin (.update op true e p) := by
  intro rest hend
  have hread := h.within (n := 1) (by decide) (hend.mono (Nat.le_succ 1))
  change Reads (binary fin 0 (ofKind op.kind :: (ofKinds (within 1 e e.kinds) ++ rest))) _ _
  rw [binary, unary]
  simp only [ofKind_kind, unaryOp?_updateKind, updateOp?_kind]
  exact hread.bind fun _ => .pure _

/-- The target of an assignment is read up to the token behind it. -/
theorem reads_target {target : Expr} (ht : OwnLevel fin target) (op : Option BinaryOp) (rest : List Token) :
    Reads (binary fin levels (ofKinds (within (levels + 2) target target.kinds) ++ ofKind (assignKind op) :: rest))
      target.atStart (ofKind (assignKind op) :: rest) := by
  rw [← atLevel_binary le_rfl]
  exact ht.within (Nat.le_succ _) (Ends.of_assign op)

theorem ownLevel_assign {op : Option BinaryOp} {target value : Expr} (ht : OwnLevel fin target)
    (hv : OwnLevel fin value)
    (hop : assignment? (assignKind op) = some op) (p : Position) : OwnLevel fin (.assign target op value p) := by
  intro rest hend
  have hvalue := hv.expression hend
  have htokens : ofKinds (Expr.assign target op value p).kinds ++ rest =
      ofKinds (within (levels + 2) target target.kinds) ++
      ofKind (assignKind op) :: (ofKinds value.kinds ++ rest) := by simp [Expr.kinds]
  rw [htokens, Expr.level, atLevel_expression, expression]
  refine (reads_target ht op _).bind fun _ => ?_
  have hbegins : beginsContents (peek (ofKinds value.kinds ++ rest)) = false := by
    obtain ⟨t, ts, h, hk⟩ := exists_ofKinds value rest
    rw [h, peek_cons]
    cases hb : beginsContents t.kind with
    | false => rfl
    | true =>
      unfold beginsContents at hb
      split at hb
      next heq => rw [heq] at hk; cases hk
      next heq => rw [heq] at hk; cases hk
      next => cases hb
  simp only [ofKind_kind, hop, hbegins, Bool.and_false, Bool.false_eq_true, if_false]
  refine hvalue.bind fun _ => ?_
  rw [Expr.atStart, ← position_atStart target]
  exact .pure _

/-- What fills the whole of a target. -/
theorem begins_contents {i : Initializer Expr} (h : ∀ e, i ≠ .single e) (rest : List Token) :
    beginsContents (peek (ofKinds (contentsKinds i) ++ rest)) = true := by
  cases i with
  | single e => exact absurd rfl (h e)
  | list items p => rfl
  | text text p => rfl

theorem ownLevel_fill {target : Expr} {i : Initializer Expr} (ht : OwnLevel fin target)
    (hi : ∀ e ∈ i.leaves, OwnLevel fin e) (hwhole : ∀ e, i ≠ .single e) (p : Position) :
    OwnLevel fin (.fill target i p) := by
  intro rest hend
  have hcontents := reads_contents i hi hend
  have htokens : ofKinds (Expr.fill target i p).kinds ++ rest = ofKinds (within (levels + 2) target target.kinds) ++
      ofKind (assignKind none) :: (ofKinds (contentsKinds i) ++ rest) := by simp [Expr.kinds]
  rw [htokens, Expr.level, atLevel_expression, expression]
  refine (reads_target ht none _).bind fun _ => ?_
  simp only [ofKind_kind, show assignment? (assignKind none) = some none from rfl, begins_contents hwhole,
    Option.isNone_none, Bool.and_self, if_true]
  refine hcontents.bind fun _ => ?_
  rw [Expr.atStart, ← position_atStart target]
  exact .pure _

/-! ### Chains -/

/-- The operators of a level go on with one more operand. -/
theorem reads_operands {op : BinaryOp} {left right v : Expr} (hop : looseness op = n)
    (hright : Reads (binary fin n ts) right rest)
    (hjoin : n ≠ comparisonLevel → Reads (operands fin n (.binary op left right left.position) rest) v rest')
    (hsingle : n = comparisonLevel → v = .binary op left right left.position ∧ rest' = rest) :
    Reads (operands fin n left (ofKind op.kind :: ts)) v rest' := by
  rw [operands]
  simp only [ofKind_kind, binaryOp?_kind, hop, if_true]
  refine hright.bind fun _ => ?_
  dsimp only
  by_cases hn : n = comparisonLevel
  · obtain ⟨rfl, rfl⟩ := hsingle hn
    rw [if_pos hn]
    exact .pure _
  · rw [if_neg hn]
    exact (hjoin hn).bind fun _ => .pure _

theorem ofKinds_binary (op : BinaryOp) (a b : Expr) (p : Position) (rest : List Token) :
    ofKinds (Expr.binary op a b p).kinds ++ rest = ofKinds (within (leftLevel op) a a.kinds) ++
      ofKind op.kind :: (ofKinds (within (looseness op + 2) b b.kinds) ++ rest) := by
  simp [Expr.kinds]

theorem legible_binary {op : BinaryOp} {a b : Expr} (ha : Legible fin a) (hb : Legible fin b) (p : Position) :
    Legible fin (.binary op a b p) := by
  have hlt := looseness_lt op
  have hjoined : (Expr.binary op a b p).atStart = .binary op a.atStart b.atStart a.atStart.position := by
    rw [position_atStart, Expr.atStart]
  have hright {rest : List Token} (hend : Ends (looseness op + 2) (peek rest)) :
      Reads (binary fin (looseness op) (ofKinds (within (looseness op + 2) b b.kinds) ++ rest)) b.atStart rest := by
    rw [← atLevel_binary hlt.le]
    exact hb.own.within (by omega) hend
  have hown : OwnLevel fin (.binary op a b p) := by
    intro rest hend
    have hstop : operands fin (looseness op) (Expr.binary op a.atStart b.atStart a.atStart.position) rest =
        .ok (.stay _ rest) :=
      operands_stay (fun op' hop' heq => by
        have hless : looseness op + 3 < looseness op' + 3 := hend.binary op' hop'
        omega) _
    have hoperands : Reads (operands fin (looseness op) a.atStart
        (ofKind op.kind :: (ofKinds (within (looseness op + 2) b b.kinds) ++ rest))) _ rest :=
      reads_operands rfl (hright (hend.mono (Nat.le_succ _))) (fun _ => ⟨Nat.lt_succ_self _, hstop⟩) fun _ => ⟨rfl, rfl⟩
    rw [ofKinds_binary, hjoined]
    change Reads (atLevel fin (looseness op + 1 + 2) _) _ _
    rw [atLevel_binary hlt]
    by_cases hn : looseness op = comparisonLevel
    · have hleft (ts : List Token) : Reads (atLevel fin (looseness op + 2)
          (ofKinds (within (looseness op + 2) a a.kinds) ++ ofKind op.kind :: ts)) a.atStart (ofKind op.kind :: ts) :=
        ha.own.within (by omega) (Ends.of_binary (by omega))
      simp only [atLevel_binary hlt.le] at hleft
      rw [leftLevel, if_pos hn, binary]
      exact (hleft _).bind fun _ => hoperands.bind fun _ => .pure _
    · rw [leftLevel, if_neg hn]
      exact ha.joins _ _ hlt hn (Ends.of_binary (by omega)) _ _ hoperands
  refine ⟨hown, fun n rest hn hne hend v rest' hv => ?_, fun rest hend => hown.updates (by simp [Expr.level]) hend⟩
  by_cases heq : looseness op = n
  · subst heq
    -- a chain is read from its first operand on
    have hwithin : within (looseness op + 3) (.binary op a b p) (Expr.binary op a b p).kinds =
        (Expr.binary op a b p).kinds := if_pos le_rfl
    rw [hjoined] at hv
    rw [hwithin, ofKinds_binary, leftLevel, if_neg hne]
    exact ha.joins _ _ hlt hne (Ends.of_binary (by omega)) _ _
      (reads_operands rfl (hright hend) (fun _ => hv) fun h => absurd h hne)
  · exact hown.joins hn (by simpa [Expr.level] using heq) hend hv

theorem legible_updateAfter {op : UpdateOp} (h : Legible fin e) (p : Position) :
    Legible fin (.update op false e p) := by
  -- further updates are read behind the first one
  have hafter (rest : List Token) : Reads (operand fin (ofKinds (Expr.update op false e p).kinds ++ rest))
      (updatesAfter (Expr.update op false e p).atStart rest).value
      (updatesAfter (Expr.update op false e p).atStart rest).rest := by
    have htokens : ofKinds (Expr.update op false e p).kinds ++ rest =
        ofKinds (within 1 e e.kinds) ++ ofKind op.kind :: rest := by simp [Expr.kinds]
    have hread := h.updates (ofKind op.kind :: rest) (Ends.of_update op)
    rw [updatesAfter] at hread
    simp only [ofKind_kind, updateOp?_kind, position_atStart] at hread
    rw [htokens, Expr.atStart]
    exact hread
  have hown : OwnLevel fin (.update op false e p) := by
    intro rest hend
    have hread := hafter rest
    rw [updatesAfter_stay (hend.update le_rfl)] at hread
    exact hread
  have hwithin : within 1 (.update op false e p) (Expr.update op false e p).kinds = (Expr.update op false e p).kinds :=
    if_pos le_rfl
  refine ⟨hown, fun n rest hn _ hend v rest' hv => hown.joins hn (by simp [Expr.level]) hend hv, fun rest _ => ?_⟩
  rw [hwithin]
  exact hafter rest

/-- Expressions that can be written are read again. -/
theorem legible (h : e.Written) : Legible fin e := by
  induction h with
  | number n p =>
    refine OwnLevel.legible (fun rest _ => ?_) (.inl rfl)
    change Reads (primary fin (ofKind (.number n) :: rest)) _ _
    rw [primary]
    exact .pure _
  | char c p =>
    refine OwnLevel.legible (fun rest _ => ?_) (.inl rfl)
    change Reads (primary fin (ofKind (.char c) :: rest)) _ _
    rw [primary]
    exact .pure _
  | bool b p =>
    refine OwnLevel.legible (fun rest _ => ?_) (.inl rfl)
    change Reads (primary fin (ofKind (.keyword (if b then .true else .false)) :: rest)) _ _
    rw [primary]
    cases b <;> exact .pure _
  | access name path p _ ih => exact (ownLevel_access (fun e he => (ih e he).own) name p).legible (.inl rfl)
  | binary op a b p _ _ iha ihb => exact legible_binary iha ihb p
  | unary op e p _ ih => exact (ownLevel_unary ih.own p).legible (.inr (.inl rfl))
  | update op before target p _ ih =>
    cases before with
    | true => exact (ownLevel_updateBefore ih.own p).legible (.inr (.inl rfl))
    | false => exact legible_updateAfter ih p
  | assign target op value p _ _ hop iht ihv => exact (ownLevel_assign iht.own ihv.own hop p).legible (.inr (.inr rfl))
  | fill target i p _ _ hwhole iht ihi =>
    exact (ownLevel_fill iht.own (fun e he => (ihi e he).own) hwhole p).legible (.inr (.inr rfl))
  | call name args p _ ih => exact (ownLevel_call (fun e he => (ih e he).own) name p).legible (.inl rfl)

end Grammar
end TapeC
