import TapeC.Proofs.Reading

/-! Programs are read again from their own tokens. A statement is read up to its end when no
`else` follows that it could take; an arm of a switch is cut at its first `break` again. -/

namespace TapeC.Grammar

open Program Token

variable {fin : Position} {rest : List Token} {s : Statement}

/-! ### Declarations -/

theorem reads_typeName (type : TypeName) (rest : List Token) :
    Reads (typeName fin (ofKinds type.kinds ++ rest)) type rest := by
  cases type with
  | int => exact .pure _
  | struct name =>
    change Reads (typeName fin (ofKind (.keyword .struct) :: ofKind (.identifier name) :: rest)) _ _
    rw [typeName]
    exact (reads_identifier name rest).bind fun _ => .pure _

theorem reads_dimension {n : Nat} (h : 0 < n) (rest : List Token) :
    Reads (dimension fin (ofKind (.number (n : Int)) :: rest)) n rest := by
  have hn : (0 : Int) < n := Int.natCast_pos.2 h
  have hread : dimension fin (ofKind (.number (n : Int)) :: rest) =
      .ok (.first (n : Int).toNat (ofKind (.number (n : Int))) rest) := if_pos hn
  rw [hread]
  exact .pure _

theorem reads_dimensions {dims : List Nat} (h : ∀ n ∈ dims, 0 < n) (hend : peek rest ≠ .symbol .leftBracket) :
    Reads (dimensions fin (ofKinds (dimKinds dims) ++ rest)) dims rest := by
  induction dims with
  | nil =>
    change Reads (dimensions fin rest) _ _
    cases rest with
    | nil =>
      rw [dimensions]
      exact .pure _
    | cons t rest =>
      rw [dimensions, if_neg (show t.kind ≠ _ from hend)]
      exact .pure _
  | cons n dims ih =>
    obtain ⟨hn, hdims⟩ := List.forall_mem_cons.1 h
    change Reads (dimensions fin (ofKind (.symbol .leftBracket) :: ofKind (.number (n : Int)) ::
      ofKind (.symbol .rightBracket) :: (ofKinds (dimKinds dims) ++ rest))) _ _
    rw [dimensions, if_pos (ofKind_kind _)]
    refine (reads_dimension hn _).bind fun _ => ?_
    exact (reads_symbol .rightBracket _).bind fun _ => (ih hdims).bind fun _ => .pure _

theorem reads_contents? {c : Option (Initializer Expr)} (h : ∀ i ∈ c, ∀ e ∈ i.leaves, e.Written)
    (hend : peek rest = .symbol .semicolon) :
    Reads (contents? fin (ofKinds (givenKinds c) ++ rest)) (c.map contentsAtStart) rest := by
  cases c with
  | none =>
    change Reads (contents? fin rest) _ _
    cases rest with
    | nil => cases hend
    | cons t rest =>
      rw [contents?, if_neg (by rw [show t.kind = _ from hend]; decide)]
      exact .pure _
  | some i =>
    change Reads (contents? fin (ofKind (.symbol .assign) :: (ofKinds (contentsKinds i) ++ rest))) _ _
    rw [contents?, if_pos (ofKind_kind _)]
    have hclose : Ends (levels + 3) (peek rest) := .of_closes (by rw [hend]; rfl)
    exact (reads_contents i (fun e he => (legible (h i rfl e he)).own) hclose).bind fun _ => .pure _

theorem peek_given (c : Option (Initializer Expr)) (rest : List Token) :
    peek (ofKinds (givenKinds c) ++ ofKind (.symbol .semicolon) :: rest) ≠ .symbol .leftBracket := by
  cases c <;> nofun

theorem reads_declaration {d : Declaration} (h : d.Written) (rest : List Token) :
    Reads (declaration fin (ofKinds d.kinds ++ rest)) d.atStart rest := by
  have htokens : ofKinds d.kinds ++ rest = ofKinds d.type.kinds ++ ofKind (.identifier d.name) ::
      (ofKinds (dimKinds d.dims) ++ (ofKinds (givenKinds d.contents) ++ ofKind (.symbol .semicolon) :: rest)) := by
    simp [Declaration.kinds]
  rw [htokens]
  refine (reads_typeName _ _).bind fun _ => ?_
  refine (reads_identifier _ _).bind fun _ => ?_
  refine (reads_dimensions h.1 (peek_given _ _)).bind fun _ => ?_
  refine (reads_contents? h.2 rfl).bind fun _ => ?_
  exact (reads_symbol .semicolon _).bind fun _ => .pure _

/-! ### Parts of statements -/

theorem reads_written {e : Expr} (h : e.Written) (hend : closes (peek rest) = true) :
    Reads (expression fin (ofKinds e.kinds ++ rest)) e.atStart rest :=
  (legible h).own.expression (.of_closes hend)

theorem reads_parenthesized {e : Expr} (h : e.Written) (rest : List Token) :
    Reads (parenthesized fin (ofKinds (conditionKinds e) ++ rest)) e.atStart rest := by
  have htokens : ofKinds (conditionKinds e) ++ rest =
      ofKind (.symbol .leftParen) :: (ofKinds e.kinds ++ ofKind (.symbol .rightParen) :: rest) :=
    by simp [conditionKinds]
  rw [htokens]
  refine (reads_symbol .leftParen _).bind fun _ => ?_
  refine (reads_written h rfl).bind fun _ => ?_
  exact (reads_symbol .rightParen _).bind fun _ => .pure _

theorem reads_expressionUntil {e : Option Expr} (h : ∀ v ∈ e, v.Written) {s : Symbol} (hs : closes (.symbol s) = true)
    (rest : List Token) :
    Reads (expressionUntil fin s (ofKinds (optionKinds e) ++ ofKind (.symbol s) :: rest))
      (e.map Expr.atStart) rest := by
  unfold expressionUntil
  cases e with
  | none =>
    change Reads (if startsWith s (ofKind (.symbol s) :: rest) then _ else _) _ _
    rw [if_pos (startsWith_self s rest)]
    exact (reads_symbol s rest).bind fun _ => .pure _
  | some e =>
    have hstart : startsWith s (ofKinds e.kinds ++ ofKind (.symbol s) :: rest) = false := by
      refine startsWith_expression s ?_ e _
      cases s <;> first | rfl | cases hs
    change Reads (if startsWith s (ofKinds e.kinds ++ ofKind (.symbol s) :: rest) then _ else _) _ _
    rw [if_neg (by rw [hstart]; nofun)]
    have hread : Reads (expression fin (ofKinds e.kinds ++ ofKind (.symbol s) :: rest)) e.atStart
      (ofKind (.symbol s) :: rest) :=
      reads_written (h e rfl) hs
    refine hread.bind fun _ => ?_
    exact (reads_symbol s rest).bind fun _ => .pure _

theorem loopInit_expression {ts : List Token} (hint : peek ts ≠ .keyword .int) (hstruct : peek ts ≠ .keyword .struct) :
    loopInit fin ts = do
      let r ← expressionUntil fin .semicolon ts
      return r.map fun e => e.map .expr := by
  unfold loopInit
  split
  next h => exact absurd h hint
  next h => exact absurd h hstruct
  next => rfl

theorem loopInit_declaration {ts : List Token} (h : peek ts = .keyword .int ∨ peek ts = .keyword .struct) :
    loopInit fin ts = do
      let r ← declaration fin ts
      return r.map fun d => some (.declare d) := by
  unfold loopInit
  rcases h with h | h <;> rw [h]

theorem peek_declaration (d : Declaration) (rest : List Token) :
    peek (ofKinds d.kinds ++ rest) = .keyword .int ∨ peek (ofKinds d.kinds ++ rest) = .keyword .struct := by
  obtain ⟨type, name, dims, contents, p⟩ := d
  cases type with
  | int => exact .inl rfl
  | struct name => exact .inr rfl

theorem reads_loopInit {init : Option Statement}
    (h : ∀ s ∈ init, (∃ d : Declaration, d.Written ∧ s = .declare d) ∨ ∃ e : Expr, e.Written ∧ s = .expr e)
    (rest : List Token) : Reads (loopInit fin (ofKinds (initKinds init) ++ rest)) (branchAtStart init) rest := by
  cases init with
  | none =>
    change Reads (loopInit fin (ofKind (.symbol .semicolon) :: rest)) _ _
    rw [loopInit_expression (by simp) (by simp)]
    exact (reads_expressionUntil (e := none) nofun rfl rest).bind fun _ => .pure _
  | some s =>
    rcases h s rfl with ⟨d, hd, rfl⟩ | ⟨e, he, rfl⟩
    · change Reads (loopInit fin (ofKinds d.kinds ++ rest)) _ _
      rw [loopInit_declaration (peek_declaration d rest)]
      exact (reads_declaration hd rest).bind fun _ => .pure _
    · have htokens : ofKinds (initKinds (some (.expr e))) ++ rest =
          ofKinds (optionKinds (some e)) ++ ofKind (.symbol .semicolon) :: rest := by
        simp [initKinds, Statement.kinds, optionKinds]
      have hread : Reads (expressionUntil fin .semicolon _) (some e.atStart) rest :=
        reads_expressionUntil (e := some e) (by rintro _ ⟨⟩; exact he) rfl rest
      obtain ⟨t, ts, hts, ht⟩ := exists_ofKinds e (ofKind (.symbol .semicolon) :: rest)
      change Reads (expressionUntil fin .semicolon (ofKinds e.kinds ++ ofKind (.symbol .semicolon) :: rest))
        _ _ at hread
      rw [htokens]
      change Reads (loopInit fin (ofKinds e.kinds ++ ofKind (.symbol .semicolon) :: rest)) _ _
      rw [hts] at hread ⊢
      rw [loopInit_expression]
      · exact hread.bind fun _ => .pure _
      · intro hk
        rw [show t.kind = _ from hk] at ht
        cases ht
      · intro hk
        rw [show t.kind = _ from hk] at ht
        cases ht

/-! ### Statements -/

/-- A statement is read again, unless an `else` follows that it could take. -/
def Rereads (fin : Position) (s : Statement) : Prop :=
  ∀ rest, (s.isOpen = true → peek rest ≠ .keyword .else) →
    Reads (statement fin (ofKinds s.kinds ++ rest)) s.atStart rest

/-- The first token of a statement neither goes on with one nor ends an arm. -/
theorem exists_statement (s : Statement) (rest : List Token) :
    ∃ t ts, ofKinds s.kinds ++ rest = t :: ts ∧ t.kind ≠ .keyword .else ∧ endsArm t.kind = false := by
  cases s with
  | declare d =>
    obtain ⟨type, name, dims, contents, p⟩ := d
    cases type <;> exact ⟨_, _, rfl, nofun, rfl⟩
  | expr e =>
    obtain ⟨t, ts, h, ht⟩ := exists_ofKinds e (ofKinds [.symbol .semicolon] ++ rest)
    refine ⟨t, ts, by rw [← h]; simp [Statement.kinds], fun hk => ?_, ?_⟩
    · rw [hk] at ht
      cases ht
    · unfold endsArm
      split
      next hk => rw [hk] at ht; cases ht
      next hk => rw [hk] at ht; cases ht
      next hk => rw [hk] at ht; cases ht
      next => rfl
  | _ => exact ⟨_, _, rfl, nofun, rfl⟩

theorem peek_body (body : List Statement) (h : peek rest ≠ .keyword .else) :
    peek (ofKinds (bodyKinds body) ++ rest) ≠ .keyword .else := by
  cases body with
  | nil => exact h
  | cons s body =>
    obtain ⟨t, ts, htokens, ht, -⟩ := exists_statement s (ofKinds (bodyKinds body) ++ rest)
    rw [show ofKinds (bodyKinds (s :: body)) ++ rest = t :: ts by rw [← htokens]; simp [bodyKinds]]
    exact ht

theorem bodyAtStart_eq (body : List Statement) : bodyAtStart body = body.map Statement.atStart := by
  induction body with
  | nil => rfl
  | cons s body ih => rw [bodyAtStart, ih, List.map_cons]

theorem bodyKinds_append (a b : List Statement) : bodyKinds (a ++ b) = bodyKinds a ++ bodyKinds b := by
  induction a with
  | nil => rfl
  | cons s a ih => rw [List.cons_append, bodyKinds, ih, bodyKinds, List.append_assoc]

theorem reads_blockBody {body : List Statement} (h : ∀ s ∈ body, Rereads fin s) (rest : List Token) :
    Reads (blockBody fin (ofKinds (bodyKinds body) ++ ofKind (.symbol .rightBrace) :: rest))
      (bodyAtStart body) rest := by
  induction body with
  | nil =>
    change Reads (blockBody fin (ofKind (.symbol .rightBrace) :: rest)) _ _
    rw [blockBody, if_pos (startsWith_self _ _)]
    exact (reads_symbol .rightBrace rest).bind fun _ => .pure _
  | cons s body ih =>
    obtain ⟨hs, hbody⟩ := List.forall_mem_cons.1 h
    have hread := hs (ofKinds (bodyKinds body) ++ ofKind (.symbol .rightBrace) :: rest) fun _ => peek_body body nofun
    obtain ⟨t, ts, htokens, -, ht⟩ :=
      exists_statement s (ofKinds (bodyKinds body) ++ ofKind (.symbol .rightBrace) :: rest)
    have hstart : startsWith .rightBrace (t :: ts) = false := by
      rw [startsWith_cons, beq_eq_false_iff_ne]
      intro hk
      rw [hk] at ht
      cases ht
    rw [show ofKinds (bodyKinds (s :: body)) ++ ofKind (.symbol .rightBrace) :: rest = t :: ts by
      rw [← htokens]; simp [bodyKinds], blockBody, if_neg (by rw [hstart]; nofun)]
    rw [htokens] at hread
    exact hread.bind fun _ => (ih hbody).bind fun _ => .pure _

theorem reads_armBody {body : List Statement} (h : ∀ s ∈ body, Rereads fin s) (hend : endsArm (peek rest) = true) :
    Reads (armBody fin (ofKinds (bodyKinds body) ++ rest)) (bodyAtStart body) rest := by
  induction body with
  | nil =>
    change Reads (armBody fin rest) _ _
    cases rest with
    | nil => cases hend
    | cons t rest =>
      rw [armBody, if_pos (show endsArm t.kind = true from hend)]
      exact .pure _
  | cons s body ih =>
    obtain ⟨hs, hbody⟩ := List.forall_mem_cons.1 h
    have helse : peek rest ≠ .keyword .else := fun hk => by
      rw [hk] at hend
      cases hend
    have hread := hs (ofKinds (bodyKinds body) ++ rest) fun _ => peek_body body helse
    obtain ⟨t, ts, htokens, -, ht⟩ := exists_statement s (ofKinds (bodyKinds body) ++ rest)
    rw [show ofKinds (bodyKinds (s :: body)) ++ rest = t :: ts by rw [← htokens]; simp [bodyKinds], armBody,
      if_neg (by rw [ht]; nofun)]
    rw [htokens] at hread
    exact hread.bind fun _ => (ih hbody).bind fun _ => .pure _

/-! ### Arms -/

theorem isBreak_atStart (s : Statement) : isBreak s.atStart = isBreak s := by cases s <;> rfl

/-- The statements of an arm, with its `break`. -/
def armStatements (c : Case Statement) : List Statement :=
  c.body ++ (if c.hasBreak then [.breaks .start] else []) ++ c.unreachable

theorem caseKinds_cons (c : Case Statement) (cases : List (Case Statement)) :
    caseKinds (c :: cases) = c.label.kinds ++ (bodyKinds (armStatements c) ++ caseKinds cases) := by
  obtain ⟨label, body, hasBreak, unreachable, p⟩ := c
  cases hasBreak <;> simp [caseKinds, armStatements, bodyKinds_append, bodyKinds, Statement.kinds]

theorem arm_eq (label : CaseLabel) (statements : List Statement) (p : Position) : arm label statements p =
    ⟨label, statements.takeWhile (!isBreak ·), !(statements.dropWhile (!isBreak ·)).isEmpty,
      (statements.dropWhile (!isBreak ·)).tail, p⟩ := by
  rw [arm, List.span_eq_takeWhile_dropWhile]

/-- The statements of an arm are cut at its `break`. -/
theorem arm_armStatements {c : Case Statement} (h : c.Proper) :
    arm c.label.atStart (bodyAtStart (armStatements c)) .start =
      ⟨c.label.atStart, bodyAtStart c.body, c.hasBreak, bodyAtStart c.unreachable, .start⟩ := by
  have hbody : ∀ s ∈ c.body.map Statement.atStart, (!isBreak s) = true := by
    intro s hs
    obtain ⟨s, hmem, rfl⟩ := List.mem_map.1 hs
    rw [isBreak_atStart, h.reached s hmem]
    rfl
  simp only [arm_eq, bodyAtStart_eq, armStatements, List.map_append, List.append_assoc]
  rw [List.takeWhile_append_of_pos hbody, List.dropWhile_append_of_pos hbody]
  cases hbreak : c.hasBreak with
  | true => simp [Statement.atStart, isBreak]
  | false => simp [h.unreachable hbreak]

theorem reads_caseLabel {label : CaseLabel} (h : ∀ v, label = .value v → v.Written) (rest : List Token) :
    Reads (caseLabel fin (ofKinds label.kinds ++ rest)) label.atStart rest := by
  cases label with
  | value e =>
    have htokens : ofKinds (CaseLabel.value e).kinds ++ rest =
        ofKind (.keyword .case) :: (ofKinds e.kinds ++ ofKind (.symbol .colon) :: rest) := by simp [CaseLabel.kinds]
    rw [htokens, caseLabel]
    refine (reads_written (h e rfl) rfl).bind fun _ => ?_
    exact (reads_symbol .colon rest).bind fun _ => .pure _
  | default =>
    change Reads (caseLabel fin (ofKind (.keyword .default) :: ofKind (.symbol .colon) :: rest)) _ _
    rw [caseLabel]
    exact (reads_symbol .colon rest).bind fun _ => .pure _

theorem rereads_breaks (p : Position) : Rereads fin (.breaks p) := by
  intro rest _
  change Reads (statement fin (ofKind (.keyword .break) :: ofKind (.symbol .semicolon) :: rest)) _ _
  rw [statement]
  exact (reads_symbol .semicolon rest).bind fun _ => .pure _

/-- What follows an arm ends it. -/
theorem endsArm_cases (cases : List (Case Statement)) (rest : List Token) :
    endsArm (peek (ofKinds (caseKinds cases) ++ ofKind (.symbol .rightBrace) :: rest)) = true := by
  cases cases with
  | nil => rfl
  | cons c cases =>
    obtain ⟨label, body, hasBreak, unreachable, p⟩ := c
    cases label <;> rfl

theorem reads_arms {cases : List (Case Statement)} (hcases : ∀ c ∈ cases, c.Proper)
    (hbody : ∀ c ∈ cases, ∀ s ∈ c.body, Rereads fin s) (hunreachable : ∀ c ∈ cases, ∀ s ∈ c.unreachable, Rereads fin s)
    (rest : List Token) :
    Reads (arms fin (ofKinds (caseKinds cases) ++ ofKind (.symbol .rightBrace) :: rest)) (casesAtStart cases) rest := by
  induction cases with
  | nil =>
    change Reads (arms fin (ofKind (.symbol .rightBrace) :: rest)) _ _
    rw [arms, if_pos (startsWith_self _ _)]
    exact (reads_symbol .rightBrace rest).bind fun _ => .pure _
  | cons c cases ih =>
    obtain ⟨hc, hcases⟩ := List.forall_mem_cons.1 hcases
    obtain ⟨hb, hbody⟩ := List.forall_mem_cons.1 hbody
    obtain ⟨hu, hunreachable⟩ := List.forall_mem_cons.1 hunreachable
    have hstatements : ∀ s ∈ armStatements c, Rereads fin s := by
      intro s hs
      simp only [armStatements, List.mem_append] at hs
      rcases hs with (hs | hs) | hs
      · exact hb s hs
      · split at hs
        · cases List.mem_singleton.1 hs
          exact rereads_breaks _
        · cases hs
      · exact hu s hs
    have htokens : ofKinds (caseKinds (c :: cases)) ++ ofKind (.symbol .rightBrace) :: rest = ofKinds c.label.kinds ++
        (ofKinds (bodyKinds (armStatements c)) ++
          (ofKinds (caseKinds cases) ++ ofKind (.symbol .rightBrace) :: rest)) := by
      simp [caseKinds_cons]
    have hstart (ts : List Token) : startsWith .rightBrace (ofKinds c.label.kinds ++ ts) = false := by
      cases c.label <;> rfl
    have hhere (ts : List Token) : here fin (ofKinds c.label.kinds ++ ts) = .start := by cases c.label <;> rfl
    rw [htokens, arms, if_neg (by rw [hstart]; nofun)]
    refine (reads_caseLabel hc.label _).bind fun _ => ?_
    refine (reads_armBody hstatements (endsArm_cases _ _)).bind fun _ => ?_
    refine (ih hcases hbody hunreachable).bind fun _ => ?_
    have hread : casesAtStart (c :: cases) =
        arm c.label.atStart (bodyAtStart (armStatements c)) (here fin (ofKinds c.label.kinds ++
          (ofKinds (bodyKinds (armStatements c)) ++
            (ofKinds (caseKinds cases) ++ ofKind (.symbol .rightBrace) :: rest)))) ::
          casesAtStart cases := by
      rw [hhere, arm_armStatements hc]
      rfl
    rw [hread]
    exact .pure _

/-! ### Statements -/

theorem statement_expression {t : Token} {ts : List Token} (h : beginsExpression t.kind = true) :
    statement fin (t :: ts) = do
      let ⟨e, rest, h₁⟩ ← expression fin (t :: ts)
      let ⟨_, rest, h₂⟩ ← symbol .semicolon rest
      return (Parsed.mk (.expr e) rest h₂).behind h₁ := by
  rw [statement]
  split <;> first | rfl | (rename_i hk; rw [hk] at h; cases h)

theorem statement_declaration {t : Token} {ts : List Token} (h : t.kind = .keyword .int ∨ t.kind = .keyword .struct) :
    statement fin (t :: ts) = do
      let r ← declaration fin (t :: ts)
      return r.map .declare := by
  rw [statement]
  rcases h with h | h <;> rw [h]

theorem rereads_declare {d : Declaration} (h : d.Written) : Rereads fin (.declare d) := by
  intro rest _
  have hread : Reads (declaration fin (ofKinds d.kinds ++ rest)) d.atStart rest := reads_declaration h rest
  have hpeek := peek_declaration d rest
  change Reads (statement fin (ofKinds d.kinds ++ rest)) _ _
  generalize ofKinds d.kinds ++ rest = ts at hread hpeek
  cases ts with
  | nil => rcases hpeek with h | h <;> cases h
  | cons t ts =>
    rw [statement_declaration hpeek]
    exact hread.bind fun _ => .pure _

theorem rereads_expr {e : Expr} (h : e.Written) : Rereads fin (.expr e) := by
  intro rest _
  have hread : Reads (expression fin (ofKinds e.kinds ++ ofKind (.symbol .semicolon) :: rest)) e.atStart
    (ofKind (.symbol .semicolon) :: rest) := reads_written h rfl
  obtain ⟨t, ts, htokens, ht⟩ := exists_ofKinds e (ofKind (.symbol .semicolon) :: rest)
  rw [show ofKinds (Statement.expr e).kinds ++ rest = t :: ts by rw [← htokens]; simp [Statement.kinds],
    statement_expression ht]
  rw [htokens] at hread
  exact hread.bind fun _ => (reads_symbol .semicolon rest).bind fun _ => .pure _

theorem rereads_ifElse {c : Expr} {a : Statement} {b : Option Statement} (hc : c.Written) (ha : Rereads fin a)
    (hb : ∀ s ∈ b, Rereads fin s) (hopen : b.isSome → a.isOpen = false) (p : Position) :
    Rereads fin (.ifElse c a b p) := by
  intro rest hrest
  have htokens : ofKinds (Statement.ifElse c a b p).kinds ++ rest = ofKind (.keyword .if) ::
      (ofKinds (conditionKinds c) ++ (ofKinds a.kinds ++ (ofKinds (branchKinds b) ++ rest))) :=
    by simp [Statement.kinds]
  rw [htokens, statement]
  refine (reads_parenthesized hc _).bind fun _ => ?_
  have hbranch : Reads (elseBranch fin (ofKinds (branchKinds b) ++ rest)) (branchAtStart b) rest := by
    cases b with
    | none =>
      change Reads (elseBranch fin rest) _ _
      cases rest with
      | nil =>
        rw [elseBranch]
        exact .pure _
      | cons t rest =>
        rw [elseBranch, if_neg (show t.kind ≠ _ from hrest rfl)]
        exact .pure _
    | some s =>
      change Reads (elseBranch fin (ofKind (.keyword .else) :: (ofKinds s.kinds ++ rest))) _ _
      rw [elseBranch, if_pos (ofKind_kind _)]
      exact (hb s rfl rest hrest).bind fun _ => .pure _
  refine (ha _ fun ho => ?_).bind fun _ => hbranch.bind fun _ => .pure _
  cases b with
  | none => exact hrest rfl
  | some s => exact absurd ho (by rw [hopen rfl]; nofun)

theorem rereads_forLoop {init : Option Statement} {c step : Option Expr} {body : Statement}
    (hinit : ∀ s ∈ init, (∃ d : Declaration, d.Written ∧ s = .declare d) ∨ ∃ e : Expr, e.Written ∧ s = .expr e)
    (hc : ∀ e ∈ c, e.Written) (hstep : ∀ e ∈ step, e.Written) (h : Rereads fin body) (p : Position) :
    Rereads fin (.forLoop init c step body p) := by
  intro rest hrest
  have htokens : ofKinds (Statement.forLoop init c step body p).kinds ++ rest = ofKind (.keyword .for) ::
      ofKind (.symbol .leftParen) :: (ofKinds (initKinds init) ++ (ofKinds (optionKinds c) ++
        ofKind (.symbol .semicolon) :: (ofKinds (optionKinds step) ++ ofKind (.symbol .rightParen) ::
          (ofKinds body.kinds ++ rest)))) := by simp [Statement.kinds]
  rw [htokens, statement]
  refine (reads_symbol .leftParen _).bind fun _ => ?_
  refine (reads_loopInit hinit _).bind fun _ => ?_
  refine (reads_expressionUntil hc rfl _).bind fun _ => ?_
  refine (reads_expressionUntil hstep rfl _).bind fun _ => ?_
  exact (h rest hrest).bind fun _ => .pure _

theorem rereads_print (text : String) (p : Position) : Rereads fin (.print text p) := by
  intro rest _
  change Reads (statement fin (ofKind (.keyword .print) :: ofKind (.symbol .leftParen) :: ofKind (.string text) ::
    ofKind (.symbol .rightParen) :: ofKind (.symbol .semicolon) :: rest)) _ _
  rw [statement]
  exact ⟨_, rfl⟩

theorem rereads_block {body : List Statement} (h : ∀ s ∈ body, Rereads fin s) (p : Position) :
    Rereads fin (.block body p) := by
  intro rest _
  have htokens : ofKinds (Statement.block body p).kinds ++ rest = ofKind (.symbol .leftBrace) ::
      (ofKinds (bodyKinds body) ++ ofKind (.symbol .rightBrace) :: rest) := by simp [Statement.kinds]
  rw [htokens, statement]
  exact (reads_blockBody h rest).bind fun _ => .pure _

theorem rereads_whileLoop {c : Expr} {body : Statement} (hc : c.Written) (h : Rereads fin body) (p : Position) :
    Rereads fin (.whileLoop c body p) := by
  intro rest hrest
  have htokens : ofKinds (Statement.whileLoop c body p).kinds ++ rest = ofKind (.keyword .while) ::
      (ofKinds (conditionKinds c) ++ (ofKinds body.kinds ++ rest)) := by simp [Statement.kinds]
  rw [htokens, statement]
  exact (reads_parenthesized hc _).bind fun _ => (h rest hrest).bind fun _ => .pure _

theorem rereads_doLoop {c : Expr} {body : Statement} (hc : c.Written) (h : Rereads fin body) (p : Position) :
    Rereads fin (.doLoop body c p) := by
  intro rest _
  have htokens : ofKinds (Statement.doLoop body c p).kinds ++ rest = ofKind (.keyword .do) :: (ofKinds body.kinds ++
      ofKind (.keyword .while) :: (ofKinds (conditionKinds c) ++ ofKind (.symbol .semicolon) :: rest)) := by
    simp [Statement.kinds]
  rw [htokens, statement]
  refine (h _ fun _ => by simp).bind fun _ => ?_
  refine (reads_expect (.keyword .while) _).bind fun _ => ?_
  exact (reads_parenthesized hc _).bind fun _ => (reads_symbol .semicolon rest).bind fun _ => .pure _

theorem rereads_switch {e : Expr} {cases : List (Case Statement)} (he : e.Written)
    (hcases : ∀ c ∈ cases, c.Proper) (hbody : ∀ c ∈ cases, ∀ s ∈ c.body, Rereads fin s)
    (hunreachable : ∀ c ∈ cases, ∀ s ∈ c.unreachable, Rereads fin s) (p : Position) :
    Rereads fin (.switch e cases p) := by
  intro rest _
  have htokens : ofKinds (Statement.switch e cases p).kinds ++ rest = ofKind (.keyword .switch) ::
      (ofKinds (conditionKinds e) ++ ofKind (.symbol .leftBrace) ::
        (ofKinds (caseKinds cases) ++ ofKind (.symbol .rightBrace) :: rest)) := by simp [Statement.kinds]
  rw [htokens, statement]
  refine (reads_parenthesized he _).bind fun _ => ?_
  refine (reads_symbol .leftBrace _).bind fun _ => ?_
  exact (reads_arms hcases hbody hunreachable rest).bind fun _ => .pure _

theorem rereads_returns {e : Option Expr} (h : ∀ e' ∈ e, e'.Written) (p : Position) :
    Rereads fin (.returns e p) := by
  intro rest _
  have htokens : ofKinds (Statement.returns e p).kinds ++ rest = ofKind (.keyword .return) ::
      (ofKinds (optionKinds e) ++ ofKind (.symbol .semicolon) :: rest) := by simp [Statement.kinds]
  rw [htokens, statement]
  exact (reads_expressionUntil h rfl rest).bind fun _ => .pure _

/-- Statements that can be written are read again. -/
theorem rereads (h : s.Written) : Rereads fin s := by
  induction h with
  | declare d h => exact rereads_declare h
  | expr e h => exact rereads_expr h
  | print text p => exact rereads_print text p
  | block body p _ ih => exact rereads_block ih p
  | ifElse c a b p hc _ _ hopen iha ihb => exact rereads_ifElse hc iha ihb hopen p
  | whileLoop c body p hc _ ih => exact rereads_whileLoop hc ih p
  | doLoop body c p _ hc ih => exact rereads_doLoop hc ih p
  | forLoop init c step body p hinit hc hstep _ ih => exact rereads_forLoop hinit hc hstep ih p
  | switch e cases p he hcases _ _ ihbody ihunreachable => exact rereads_switch he hcases ihbody ihunreachable p
  | returns e p h => exact rereads_returns h p
  | breaks p => exact rereads_breaks p
  | continues p =>
    intro rest _
    change Reads (statement fin (ofKind (.keyword .continue) :: ofKind (.symbol .semicolon) :: rest)) _ _
    rw [statement]
    exact (reads_symbol .semicolon rest).bind fun _ => .pure _
  | empty =>
    intro rest _
    change Reads (statement fin (ofKind (.symbol .semicolon) :: rest)) _ _
    rw [statement]
    exact .pure _

/-! ### Definitions -/

theorem reads_fields {fs : List FieldDef} (h : ∀ f ∈ fs, ∀ n ∈ f.dims, 0 < n) (rest : List Token) :
    Reads (fields fin (ofKinds (fs.flatMap FieldDef.kinds) ++ ofKind (.symbol .rightBrace) :: rest))
      (fs.map FieldDef.atStart) rest := by
  induction fs with
  | nil =>
    change Reads (fields fin (ofKind (.symbol .rightBrace) :: rest)) _ _
    rw [fields, if_pos (by rw [startsWith_self]; rfl)]
    exact (reads_symbol .rightBrace rest).bind fun _ => .pure _
  | cons f fs ih =>
    obtain ⟨hf, hfs⟩ := List.forall_mem_cons.1 h
    have htokens : ofKinds ((f :: fs).flatMap FieldDef.kinds) ++ ofKind (.symbol .rightBrace) :: rest =
        ofKinds f.type.kinds ++ ofKind (.identifier f.name) ::
          (ofKinds (dimKinds f.dims) ++ ofKind (.symbol .semicolon) ::
          (ofKinds (fs.flatMap FieldDef.kinds) ++ ofKind (.symbol .rightBrace) :: rest)) := by simp [FieldDef.kinds]
    have hstart (ts : List Token) : ¬ (startsWith .rightBrace (ofKinds f.type.kinds ++ ts) ||
        (ofKinds f.type.kinds ++ ts).isEmpty) = true := by
      cases f.type <;> exact Bool.false_ne_true
    rw [htokens, fields, if_neg (hstart _)]
    refine (reads_typeName _ _).bind fun _ => ?_
    refine (reads_identifier _ _).bind fun _ => ?_
    refine (reads_dimensions hf (by simp)).bind fun _ => ?_
    exact (reads_symbol .semicolon _).bind fun _ => (ih hfs).bind fun _ => .pure _

theorem reads_structDef {d : StructDef} (h : ∀ f ∈ d.fields, ∀ n ∈ f.dims, 0 < n) (rest : List Token) :
    Reads (structDef fin .start (ofKinds (.identifier d.name :: .symbol .leftBrace :: d.fields.flatMap FieldDef.kinds ++
      [.symbol .rightBrace, .symbol .semicolon]) ++ rest)) d.atStart rest := by
  have htokens : ofKinds (.identifier d.name :: .symbol .leftBrace :: d.fields.flatMap FieldDef.kinds ++
      [.symbol .rightBrace, .symbol .semicolon]) ++ rest = ofKind (.identifier d.name) :: ofKind (.symbol .leftBrace) ::
        (ofKinds (d.fields.flatMap FieldDef.kinds) ++ ofKind (.symbol .rightBrace) ::
          ofKind (.symbol .semicolon) :: rest) := by
    simp
  rw [htokens]
  refine (reads_identifier _ _).bind fun _ => ?_
  refine (reads_symbol .leftBrace _).bind fun _ => ?_
  refine (reads_fields h _).bind fun _ => ?_
  exact (reads_symbol .semicolon rest).bind fun _ => .pure _

theorem reads_parameterList (p : Parameter) (ps : List Parameter) (hend : peek rest = .symbol .rightParen) :
    Reads (parameterList fin (ofKinds (parameterKinds (p :: ps)) ++ rest))
      ((p :: ps).map fun p => ⟨p.name, .start⟩) rest := by
  induction ps generalizing p with
  | nil =>
    change Reads (parameterList fin (ofKind (.keyword .int) :: ofKind (.identifier p.name) :: rest)) _ _
    rw [parameterList, if_pos (ofKind_kind _)]
    refine (reads_identifier _ _).bind fun _ => ?_
    dsimp only
    rw [if_neg (by rw [startsWith, hend]; decide)]
    exact .pure _
  | cons p' ps ih =>
    change Reads (parameterList fin (ofKind (.keyword .int) :: ofKind (.identifier p.name) ::
      ofKind (.symbol .comma) :: (ofKinds (parameterKinds (p' :: ps)) ++ rest))) _ _
    rw [parameterList, if_pos (ofKind_kind _)]
    refine (reads_identifier _ _).bind fun _ => ?_
    dsimp only
    rw [if_pos (startsWith_self _ _)]
    exact (reads_symbol .comma _).bind fun _ => (ih p').bind fun _ => .pure _

theorem reads_parameters (ps : List Parameter) (rest : List Token) :
    Reads (parameters fin (ofKinds (parameterKinds ps) ++ ofKind (.symbol .rightParen) :: rest))
      (ps.map fun p => ⟨p.name, .start⟩) rest := by
  unfold parameters
  cases ps with
  | nil =>
    change Reads (if startsWith .rightParen (ofKind (.symbol .rightParen) :: rest) then _ else _) _ _
    rw [if_pos (startsWith_self _ _)]
    exact (reads_symbol .rightParen rest).bind fun _ => .pure _
  | cons p ps =>
    rw [if_neg (by rw [parameterKinds, ofKinds_cons, List.cons_append, startsWith_cons]; decide)]
    refine (reads_parameterList p ps rfl).bind fun _ => ?_
    exact (reads_symbol .rightParen rest).bind fun _ => .pure _

/-- The tokens of a function behind its return type. -/
theorem reads_functionDef {f : FunctionDef} (h : ∀ s ∈ f.body, s.Written) (rest : List Token) :
    Reads (functionDef fin f.returns (ofKind (.identifier f.name) :: ofKind (.symbol .leftParen) ::
      (ofKinds (parameterKinds f.params) ++ ofKind (.symbol .rightParen) :: ofKind (.symbol .leftBrace) ::
        (ofKinds (bodyKinds f.body) ++ ofKind (.symbol .rightBrace) :: rest)))) f.atStart rest := by
  refine (reads_identifier _ _).bind fun _ => ?_
  refine (reads_symbol .leftParen _).bind fun _ => ?_
  refine (reads_parameters _ _).bind fun _ => ?_
  refine (reads_symbol .leftBrace _).bind fun _ => ?_
  exact (reads_blockBody (fun s hs => rereads (h s hs)) rest).bind fun _ => .pure _

theorem reads_struct {d : StructDef} (h : ∀ f ∈ d.fields, ∀ n ∈ f.dims, 0 < n) (rest : List Token) :
    Reads (item fin (ofKinds d.kinds ++ rest)) (.struct d.atStart) rest := by
  change Reads (item fin (ofKind (.keyword .struct) :: (ofKinds (.identifier d.name :: .symbol .leftBrace ::
    d.fields.flatMap FieldDef.kinds ++ [.symbol .rightBrace, .symbol .semicolon]) ++ rest))) _ _
  rw [item]
  exact (reads_structDef h rest).bind fun _ => .pure _

theorem reads_function {f : FunctionDef} (h : ∀ s ∈ f.body, s.Written) (rest : List Token) :
    Reads (item fin (ofKinds f.kinds ++ rest)) (.function f.atStart) rest := by
  have hread : Reads (functionDef fin f.returns _) f.atStart rest := reads_functionDef h rest
  have htokens : ofKinds f.kinds ++ rest = ofKind (.keyword f.returns.keyword) :: ofKind (.identifier f.name) ::
      ofKind (.symbol .leftParen) :: (ofKinds (parameterKinds f.params) ++ ofKind (.symbol .rightParen) ::
        ofKind (.symbol .leftBrace) :: (ofKinds (bodyKinds f.body) ++ ofKind (.symbol .rightBrace) :: rest)) := by
    simp [FunctionDef.kinds]
  rw [htokens, item]
  cases hreturns : f.returns with
  | void =>
    rw [hreturns] at hread
    exact hread.bind fun _ => .pure _
  | int =>
    rw [hreturns] at hread
    exact hread.bind fun _ => .pure _

/-- A declaration is neither the definition of a struct nor a function. -/
theorem namedThen_declaration (d : Declaration) (rest : List Token) :
    namedThen .leftBrace (ofKinds d.kinds ++ rest).tail = false ∧
      namedThen .leftParen (ofKinds d.kinds ++ rest).tail = false := by
  obtain ⟨type, name, dims, contents, p⟩ := d
  cases type with
  | int => cases dims <;> cases contents <;> exact ⟨rfl, rfl⟩
  | struct name => exact ⟨rfl, rfl⟩

theorem reads_global {d : Declaration} (h : d.Written) (rest : List Token) :
    Reads (item fin (ofKinds d.kinds ++ rest)) (.global d.atStart) rest := by
  have hread : Reads (declaration fin (ofKinds d.kinds ++ rest)) d.atStart rest := reads_declaration h rest
  have hpeek := peek_declaration d rest
  obtain ⟨hstruct, hfunction⟩ := namedThen_declaration d rest
  generalize ofKinds d.kinds ++ rest = ts at hread hpeek hstruct hfunction
  cases ts with
  | nil => rcases hpeek with h | h <;> cases h
  | cons t ts =>
    rw [peek_cons] at hpeek
    rw [List.tail_cons] at hstruct hfunction
    rw [item]
    rcases hpeek with hk | hk
    · simp only [hk, hfunction, Bool.false_eq_true, if_false]
      exact hread.bind fun _ => .pure _
    · simp only [hk, hstruct, Bool.false_eq_true, if_false]
      exact hread.bind fun _ => .pure _

theorem items_append {α : Type} {f : α → List Kind} {g : α → Item} (xs : List α)
    (h : ∀ x ∈ xs, ∀ rest, Reads (item fin (ofKinds (f x) ++ rest)) (g x) rest) {rest : List Token} {is : List Item}
    (hrest : items fin rest = .ok is) : items fin (ofKinds (xs.flatMap f) ++ rest) = .ok (xs.map g ++ is) := by
  induction xs with
  | nil => exact hrest
  | cons x xs ih =>
    obtain ⟨hx, hxs⟩ := List.forall_mem_cons.1 h
    have htokens : ofKinds ((x :: xs).flatMap f) ++ rest = ofKinds (f x) ++ (ofKinds (xs.flatMap f) ++ rest) := by simp
    obtain ⟨hlt, hitem⟩ := hx (ofKinds (xs.flatMap f) ++ rest)
    rw [htokens, items, if_neg ?_, hitem]
    · change (items fin (ofKinds (xs.flatMap f) ++ rest) >>= _) = _
      rw [ih hxs]
      rfl
    · rw [List.isEmpty_iff]
      intro h
      rw [h] at hlt
      cases hlt

/-! ### The end of the tokens -/

mutual
theorem endOfFile_expr (e : Expr) : Kind.endOfFile ∉ e.kinds := by
  have hwithin {n : Nat} {e : Expr} (h : Kind.endOfFile ∉ e.kinds) : Kind.endOfFile ∉ within n e e.kinds := by
    unfold within
    split <;> simp [h]
  match e with
  | .number _ _ | .char _ _ => simp [Expr.kinds]
  | .bool b _ => cases b <;> simp [Expr.kinds]
  | .access _ path _ => simp [Expr.kinds, endOfFile_path path]
  | .binary op a b _ =>
    cases op <;> simp [Expr.kinds, BinaryOp.kind, hwithin (endOfFile_expr a), hwithin (endOfFile_expr b)]
  | .unary op e _ => cases op <;> simp [Expr.kinds, UnaryOp.kind, hwithin (endOfFile_expr e)]
  | .update op true target _ => cases op <;> simp [Expr.kinds, UpdateOp.kind, hwithin (endOfFile_expr target)]
  | .update op false target _ => cases op <;> simp [Expr.kinds, UpdateOp.kind, hwithin (endOfFile_expr target)]
  | .assign target op value _ =>
    cases op <;> simp [Expr.kinds, assignKind, hwithin (endOfFile_expr target), endOfFile_expr value]
  | .fill target contents _ =>
    simp [Expr.kinds, assignKind, hwithin (endOfFile_expr target), endOfFile_contents contents]
  | .call _ args _ => simp [Expr.kinds, endOfFile_args args]

theorem endOfFile_path (path : List (Selector Expr)) : Kind.endOfFile ∉ pathKinds path := by
  match path with
  | [] => simp [pathKinds]
  | .index e :: path => simp [pathKinds, endOfFile_expr e, endOfFile_path path]
  | .field _ :: path => simp [pathKinds, endOfFile_path path]

theorem endOfFile_args (args : List Expr) : Kind.endOfFile ∉ argKinds args := by
  match args with
  | [] => simp [argKinds]
  | e :: es => simp [argKinds, endOfFile_expr e, endOfFile_moreArgs es]

theorem endOfFile_moreArgs (args : List Expr) : Kind.endOfFile ∉ moreArgKinds args := by
  match args with
  | [] => simp [moreArgKinds]
  | e :: es => simp [moreArgKinds, endOfFile_expr e, endOfFile_moreArgs es]

theorem endOfFile_contents (i : Initializer Expr) : Kind.endOfFile ∉ contentsKinds i := by
  match i with
  | .single e => simp [contentsKinds, endOfFile_expr e]
  | .list items _ => simp [contentsKinds, endOfFile_items items]
  | .text _ _ => simp [contentsKinds]

theorem endOfFile_items (items : List (Initializer Expr)) : Kind.endOfFile ∉ itemKinds items := by
  match items with
  | [] => simp [itemKinds]
  | i :: items => simp [itemKinds, endOfFile_contents i, endOfFile_moreItems items]

theorem endOfFile_moreItems (items : List (Initializer Expr)) : Kind.endOfFile ∉ moreItemKinds items := by
  match items with
  | [] => simp [moreItemKinds]
  | i :: items => simp [moreItemKinds, endOfFile_contents i, endOfFile_moreItems items]
end

theorem endOfFile_typeName (type : TypeName) : Kind.endOfFile ∉ type.kinds := by
  cases type <;> simp [TypeName.kinds]

theorem endOfFile_dims (dims : List Nat) : Kind.endOfFile ∉ dimKinds dims := by simp [dimKinds]

theorem endOfFile_declaration (d : Declaration) : Kind.endOfFile ∉ d.kinds := by
  obtain ⟨type, name, dims, contents, p⟩ := d
  cases contents <;> simp [Declaration.kinds, givenKinds, endOfFile_typeName, endOfFile_dims, endOfFile_contents]

theorem endOfFile_condition (e : Expr) : Kind.endOfFile ∉ conditionKinds e := by simp [conditionKinds, endOfFile_expr]

theorem endOfFile_option (e : Option Expr) : Kind.endOfFile ∉ optionKinds e := by
  cases e <;> simp [optionKinds, endOfFile_expr]

theorem endOfFile_caseLabel (label : CaseLabel) : Kind.endOfFile ∉ label.kinds := by
  cases label <;> simp [CaseLabel.kinds, endOfFile_expr]

mutual
theorem endOfFile_statement (s : Statement) : Kind.endOfFile ∉ s.kinds := by
  match s with
  | .declare d => simp [Statement.kinds, endOfFile_declaration]
  | .expr e => simp [Statement.kinds, endOfFile_expr]
  | .print _ _ | .breaks _ | .continues _ | .empty => simp [Statement.kinds]
  | .block body _ => simp [Statement.kinds, endOfFile_body body]
  | .ifElse c a b _ => simp [Statement.kinds, endOfFile_condition, endOfFile_statement a, endOfFile_branch b]
  | .whileLoop c body _ => simp [Statement.kinds, endOfFile_condition, endOfFile_statement body]
  | .doLoop body c _ => simp [Statement.kinds, endOfFile_condition, endOfFile_statement body]
  | .forLoop init c step body _ =>
    simp [Statement.kinds, endOfFile_option, endOfFile_init init, endOfFile_statement body]
  | .switch e cases _ => simp [Statement.kinds, endOfFile_condition, endOfFile_cases cases]
  | .returns e _ => simp [Statement.kinds, endOfFile_option]

theorem endOfFile_body (body : List Statement) : Kind.endOfFile ∉ bodyKinds body := by
  match body with
  | [] => simp [bodyKinds]
  | s :: body => simp [bodyKinds, endOfFile_statement s, endOfFile_body body]

theorem endOfFile_branch (b : Option Statement) : Kind.endOfFile ∉ branchKinds b := by
  match b with
  | none => simp [branchKinds]
  | some s => simp [branchKinds, endOfFile_statement s]

theorem endOfFile_init (init : Option Statement) : Kind.endOfFile ∉ initKinds init := by
  match init with
  | none => simp [initKinds]
  | some s => simp [initKinds, endOfFile_statement s]

theorem endOfFile_cases (cases : List (Case Statement)) : Kind.endOfFile ∉ caseKinds cases := by
  match cases with
  | [] => simp [caseKinds]
  | ⟨label, body, true, unreachable, _⟩ :: cases =>
    simp [caseKinds, endOfFile_caseLabel, endOfFile_body body, endOfFile_body unreachable, endOfFile_cases cases]
  | ⟨label, body, false, unreachable, _⟩ :: cases =>
    simp [caseKinds, endOfFile_caseLabel, endOfFile_body body, endOfFile_body unreachable, endOfFile_cases cases]
end

theorem endOfFile_struct (d : StructDef) : Kind.endOfFile ∉ d.kinds := by
  simp [StructDef.kinds, FieldDef.kinds, endOfFile_typeName, endOfFile_dims]

theorem endOfFile_function (f : FunctionDef) : Kind.endOfFile ∉ f.kinds := by
  obtain ⟨returns, name, params, body, p⟩ := f
  cases params <;> simp [FunctionDef.kinds, parameterKinds, moreParameterKinds, endOfFile_body]

theorem untilEnd_tokens (p : Program) : untilEnd p.tokens = (ofKinds p.kinds, .start) := by
  have hkinds : ∀ t ∈ ofKinds p.kinds, (t.kind != .endOfFile) = true := by
    intro t ht
    obtain ⟨k, hk, rfl⟩ := List.mem_map.1 ht
    rw [ofKind_kind, bne_iff_ne]
    rintro rfl
    simp only [Program.kinds, List.mem_append, List.mem_flatMap] at hk
    rcases hk with (⟨d, -, hd⟩ | ⟨d, -, hd⟩) | ⟨f, -, hf⟩
    · exact endOfFile_struct d hd
    · exact endOfFile_declaration d hd
    · exact endOfFile_function f hf
  have htokens : p.tokens = ofKinds p.kinds ++ [ofKind .endOfFile] := List.map_append
  rw [untilEnd, htokens, List.span_eq_takeWhile_dropWhile, List.takeWhile_append_of_pos hkinds,
    List.dropWhile_append_of_pos hkinds]
  simp

/-! ### Programs -/

/-- A program that can be written is read from its own tokens. -/
theorem program_tokens {p : Program} (h : p.Written) : program p.tokens = .ok p.atStart := by
  have hitems : items .start (ofKinds p.kinds) = .ok
      (p.structs.map (.struct ·.atStart) ++
        (p.globals.map (.global ·.atStart) ++ p.functions.map (.function ·.atStart))) := by
    have htokens : ofKinds p.kinds = ofKinds (p.structs.flatMap StructDef.kinds) ++
        (ofKinds (p.globals.flatMap Declaration.kinds) ++ (ofKinds (p.functions.flatMap FunctionDef.kinds) ++ [])) := by
      simp [Program.kinds]
    have hnil : items .start [] = .ok [] := by rw [items]; rfl
    have hfunctions := items_append p.functions (fun f hf rest => reads_function (h.functions f hf) rest) hnil
    have hglobals := items_append p.globals (fun d hd rest => reads_global (h.globals d hd) rest) hfunctions
    have hstructs := items_append p.structs (fun d hd rest => reads_struct (h.structs d hd) rest) hglobals
    rw [htokens, hstructs, List.append_nil]
  rw [program, untilEnd_tokens]
  change (items .start (ofKinds p.kinds) >>= _) = _
  rw [hitems]
  have hnone {α β : Type} (xs : List α) : xs.filterMap (fun _ => (none : Option β)) = [] :=
    List.filterMap_eq_nil_iff.2 fun _ _ => rfl
  refine congrArg Except.ok ?_
  simp [Item.program, Program.atStart, List.filterMap_map, Function.comp_def, hnone]

/-- Whatever program is read from tokens is read from its own tokens again, but for the
positions of its nodes. -/
theorem program_roundtrip {ts : List Token} {p : Program} (h : program ts = .ok p) :
    program p.tokens = .ok p.atStart :=
  program_tokens (written_program h)

/-- Two conditionals of which the inner one takes the `else`, and operators of four levels. -/
def nested : List Token :=
  ofKinds [.keyword .int, .identifier "x", .symbol .semicolon, .keyword .void, .identifier "main", .symbol .leftParen,
    .symbol .rightParen, .symbol .leftBrace, .keyword .if, .symbol .leftParen, .identifier "x", .symbol .rightParen,
    .keyword .if, .symbol .leftParen, .number 1, .symbol .rightParen, .symbol .semicolon, .keyword .else,
    .identifier "x", .symbol .pipe, .symbol .minus, .symbol .leftParen, .number 1, .symbol .plus, .number 2,
    .symbol .rightParen, .symbol .star, .number 3, .symbol .semicolon, .symbol .rightBrace]

theorem nested_roundtrip : ∃ p, program nested = .ok p ∧ program p.tokens = .ok p.atStart := by
  have hok : (program nested).isOk = true := by cbv
  cases h : program nested with
  | error e =>
    rw [h] at hok
    cases hok
  | ok p => exact ⟨p, rfl, program_roundtrip h⟩

end TapeC.Grammar
