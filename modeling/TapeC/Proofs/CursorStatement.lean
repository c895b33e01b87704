import TapeC.Proofs.CursorExpression

/-! Declarations and statements that are read by an index. -/

namespace TapeC.Grammar

open Program

namespace Cursor

/-! ### Readers of declarations -/

def typeName : Reader TypeName := do
  match (← peek).kind with
  | .keyword .int =>
    let _ ← advance
    return .int
  | .keyword .struct =>
    let _ ← advance
    let name ← identifier
    return .struct name
  | got => refuse (.expectedType got)

def dimension : Reader Nat := do
  let t ← advance
  match t.kind with
  | .number n => if 0 < n then return n.toNat else stop (.refused (.refused t.position .dimension))
  | _ => stop (.refused (.refused t.position .dimension))

def dimensions : Nat → Reader (List Nat)
  | 0 => stop .exhausted
  | depth + 1 => do
    if ← accept (.symbol .leftBracket) then
      let n ← dimension
      consume (.symbol .rightBracket)
      let dims ← dimensions depth
      return n :: dims
    else return []

def contents? (depth : Nat) : Reader (Option (Initializer Expr)) := do
  if ← accept (.symbol .assign) then
    let contents ← contents depth
    return some contents
  else return none

def declaration (depth : Nat) : Reader Declaration := do
  let type ← typeName
  let t ← peek
  let name ← identifier
  let dims ← dimensions depth
  let contents ← contents? depth
  consume (.symbol .semicolon)
  return ⟨type, name, dims, contents, t.position⟩

/-! ### Readers of parts of statements -/

def parenthesized (depth : Nat) : Reader Expr := do
  consume (.symbol .leftParen)
  let e ← expression depth
  consume (.symbol .rightParen)
  return e

def expressionUntil (s : Symbol) (depth : Nat) : Reader (Option Expr) := do
  if ← check (.symbol s) then
    consume (.symbol s)
    return none
  else
    let e ← expression depth
    consume (.symbol s)
    return some e

def printedText : Reader String := do
  let t ← advance
  match t.kind with
  | .string text => return text
  | _ => stop (.refused (.refused t.position .printedText))

def printed : Reader String := do
  consume (.symbol .leftParen)
  let text ← printedText
  consume (.symbol .rightParen)
  consume (.symbol .semicolon)
  return text

def loopInit (depth : Nat) : Reader (Option Statement) := do
  match (← peek).kind with
  | .keyword .int | .keyword .struct =>
    let decl ← declaration depth
    return some (.declare decl)
  | _ =>
    let e ← expressionUntil .semicolon depth
    return e.map .expr

def caseLabel (depth : Nat) : Reader CaseLabel := do
  let t ← advance
  match t.kind with
  | .keyword .case =>
    let e ← expression depth
    consume (.symbol .colon)
    return .value e
  | .keyword .default =>
    consume (.symbol .colon)
    return .default
  | .endOfFile => stop (.refused .unexpectedEnd)
  | got => stop (.refused (.refused t.position (.expectedCase got)))

/-! ### Readers of statements -/

mutual
def statement : Nat → Reader Statement
  | 0 => stop .exhausted
  | depth + 1 => do
    let t ← peek
    match t.kind with
    | .symbol .leftBrace =>
      let _ ← advance
      let body ← blockBody depth
      return .block body t.position
    | .keyword .int | .keyword .struct =>
      let decl ← declaration depth
      return .declare decl
    | .keyword .if =>
      let _ ← advance
      let condition ← parenthesized depth
      let thenBranch ← statement depth
      let otherBranch ← elseBranch depth
      return .ifElse condition thenBranch otherBranch t.position
    | .keyword .while =>
      let _ ← advance
      let condition ← parenthesized depth
      let body ← statement depth
      return .whileLoop condition body t.position
    | .keyword .do =>
      let _ ← advance
      let body ← statement depth
      consume (.keyword .while)
      let condition ← parenthesized depth
      consume (.symbol .semicolon)
      return .doLoop body condition t.position
    | .keyword .for =>
      let _ ← advance
      consume (.symbol .leftParen)
      let init ← loopInit depth
      let condition ← expressionUntil .semicolon depth
      let step ← expressionUntil .rightParen depth
      let body ← statement depth
      return .forLoop init condition step body t.position
    | .keyword .switch =>
      let _ ← advance
      let value ← parenthesized depth
      consume (.symbol .leftBrace)
      let cases ← arms depth
      return .switch value cases t.position
    | .keyword .return =>
      let _ ← advance
      let value ← expressionUntil .semicolon depth
      return .returns value t.position
    | .keyword .break =>
      let _ ← advance
      consume (.symbol .semicolon)
      return .breaks t.position
    | .keyword .continue =>
      let _ ← advance
      consume (.symbol .semicolon)
      return .continues t.position
    | .keyword .print =>
      let _ ← advance
      let text ← printed
      return .print text t.position
    | .symbol .semicolon =>
      let _ ← advance
      return .empty
    | .endOfFile => stop (.refused .unexpectedEnd)
    | _ =>
      let e ← expression depth
      consume (.symbol .semicolon)
      return .expr e

def elseBranch : Nat → Reader (Option Statement)
  | 0 => stop .exhausted
  | depth + 1 => do
    if ← accept (.keyword .else) then
      let s ← statement depth
      return some s
    else return none

def blockBody : Nat → Reader (List Statement)
  | 0 => stop .exhausted
  | depth + 1 => do
    if ← check (.symbol .rightBrace) then
      consume (.symbol .rightBrace)
      return []
    else if ← isAtEnd then stop (.refused .unexpectedEnd)
    else
      let s ← statement depth
      let body ← blockBody depth
      return s :: body

def arms : Nat → Reader (List (Case Statement))
  | 0 => stop .exhausted
  | depth + 1 => do
    if ← accept (.symbol .rightBrace) then return []
    else
      let t ← peek
      let label ← caseLabel depth
      let statements ← armBody depth
      let cases ← arms depth
      return arm label statements t.position :: cases

def armBody : Nat → Reader (List Statement)
  | 0 => stop .exhausted
  | depth + 1 => do
    let t ← peek
    if endsArm t.kind || t.kind == .endOfFile then return []
    else
      let s ← statement depth
      let body ← armBody depth
      return s :: body
end

/-! ### Following the grammar -/

variable {text : Tokens} {depth n : Nat} {ts : List Token}

open Tokens

theorem typeName_follows : text.Follows typeName ts (Grammar.typeName text.fin ts) := by
  rw [typeName]
  refine .peek ?_
  cases ts with
  | nil =>
    rw [next_nil, text.ends]
    exact .refuse
  | cons t ts =>
    obtain ⟨kind, lexeme, p⟩ := t
    cases kind with
    | keyword k =>
      cases k with
      | int => exact .advance (.pure rfl rfl)
      | struct => exact .advance (Follows.identifier.bind fun _ _ _ _ => .pure rfl rfl)
      | _ => exact .refuse
    | _ => exact .refuse

theorem dimension_follows : text.Follows dimension ts (Grammar.dimension text.fin ts) := by
  rw [dimension]
  cases ts with
  | nil =>
    refine .advance_end ?_
    rw [text.ends]
    exact .stop
  | cons t ts =>
    refine .advance ?_
    obtain ⟨kind, lexeme, p⟩ := t
    cases kind with
    | number n =>
      rw [Grammar.dimension]
      dsimp only
      split
      · exact .pure rfl rfl
      · exact .stop
    | _ => exact .stop

theorem dimensions_follows (h : ts.length < depth) :
    text.Follows (dimensions depth) ts (Grammar.dimensions text.fin ts) := by
  induction depth generalizing ts with
  | zero => omega
  | succ depth ih =>
    rw [dimensions, Grammar.dimensions.eq_def]
    cases ts with
    | nil => exact .not_accept_nil nofun (.pure rfl rfl)
    | cons t ts =>
      dsimp only
      rw [List.length_cons] at h
      by_cases ht : t.kind = .symbol .leftBracket
      · rw [if_pos ht]
        refine .accept ht ?_
        refine dimension_follows.bind fun n rest hrest _ => ?_
        refine (Follows.symbol .rightBracket).bind fun _ left hleft _ => ?_
        exact (ih (by omega)).bind fun _ _ _ _ => .pure rfl rfl
      · rw [if_neg ht]
        exact .not_accept ht (.pure rfl rfl)

theorem contents?_follows (h : 20 * ts.length < depth) :
    text.Follows (contents? depth) ts (Grammar.contents? text.fin ts) := by
  rw [contents?]
  cases ts with
  | nil => exact .not_accept_nil nofun (.pure rfl rfl)
  | cons t ts =>
    rw [Grammar.contents?]
    rw [List.length_cons] at h
    by_cases ht : t.kind = .symbol .assign
    · rw [if_pos ht]
      exact .accept ht (((readsExpressions text depth).contents ts (by omega)).bind fun _ _ _ _ => .pure rfl rfl)
    · rw [if_neg ht]
      exact .not_accept ht (.pure rfl rfl)

theorem declaration_follows (h : 20 * ts.length < depth) :
    text.Follows (declaration depth) ts (Grammar.declaration text.fin ts) := by
  rw [declaration, Grammar.declaration]
  refine typeName_follows.bind fun type rest h₁ _ => .peek ?_
  rw [text.next_position]
  refine Follows.identifier.bind fun name rest h₂ _ => ?_
  refine (dimensions_follows (by omega)).bind fun dims rest h₃ _ => ?_
  refine (contents?_follows (by omega)).bind fun contents rest h₄ _ => ?_
  exact (Follows.symbol .semicolon).bind fun _ _ _ _ => .pure rfl rfl

theorem parenthesized_follows (h : 20 * ts.length < depth) :
    text.Follows (parenthesized depth) ts (Grammar.parenthesized text.fin ts) := by
  rw [parenthesized, Grammar.parenthesized]
  refine (Follows.symbol .leftParen).bind fun _ rest h₁ _ => ?_
  refine ((readsExpressions text depth).expression rest (by omega)).bind fun e left h₂ _ => ?_
  exact (Follows.symbol .rightParen).bind fun _ _ _ _ => .pure rfl rfl

theorem expressionUntil_follows (s : Symbol) (h : 20 * ts.length + 14 < depth) :
    text.Follows (expressionUntil s depth) ts (Grammar.expressionUntil text.fin s ts) := by
  rw [expressionUntil, Grammar.expressionUntil]
  refine .check_symbol ?_ ?_
  · exact (Follows.symbol s).bind fun _ _ _ _ => .pure rfl rfl
  · refine ((readsExpressions text depth).expression ts h).bind fun e rest h₁ _ => ?_
    exact (Follows.symbol s).bind fun _ _ _ _ => .pure rfl rfl

theorem printedText_follows : text.Follows printedText ts (Grammar.printedText text.fin ts) := by
  rw [printedText]
  cases ts with
  | nil =>
    refine .advance_end ?_
    rw [text.ends]
    exact .stop
  | cons t ts =>
    refine .advance ?_
    obtain ⟨kind, lexeme, p⟩ := t
    cases kind with
    | string text => exact .pure rfl rfl
    | _ => exact .stop

theorem printed_follows : text.Follows printed ts (Grammar.printed text.fin ts) := by
  rw [printed, Grammar.printed]
  refine (Follows.symbol .leftParen).bind fun _ rest h₁ _ => ?_
  refine printedText_follows.bind fun text rest h₂ _ => ?_
  refine (Follows.symbol .rightParen).bind fun _ rest h₃ _ => ?_
  exact (Follows.symbol .semicolon).bind fun _ _ _ _ => .pure rfl rfl

theorem loopInit_follows (h : 20 * ts.length + 14 < depth) :
    text.Follows (loopInit depth) ts (Grammar.loopInit text.fin ts) := by
  rw [loopInit, Grammar.loopInit]
  refine .peek ?_
  rw [text.next_kind]
  have hdeclared : text.Follows (declaration depth >>= fun decl => pure (some (Statement.declare decl))) ts
      (Grammar.declaration text.fin ts >>= fun r => .ok (r.map fun decl => some (Statement.declare decl))) :=
    (declaration_follows (by omega)).bind fun _ _ _ _ => .pure rfl rfl
  have hother : text.Follows (expressionUntil .semicolon depth >>= fun e => pure (e.map Statement.expr)) ts
      (Grammar.expressionUntil text.fin .semicolon ts >>= fun r => .ok (r.map fun e => e.map Statement.expr)) :=
    (expressionUntil_follows .semicolon h).bind fun _ _ _ _ => .pure rfl rfl
  cases Grammar.peek ts with
  | keyword k =>
    cases k with
    | int => exact hdeclared
    | struct => exact hdeclared
    | _ => exact hother
  | _ => exact hother

theorem caseLabel_follows (h : 20 * ts.length < depth) :
    text.Follows (caseLabel depth) ts (Grammar.caseLabel text.fin ts) := by
  rw [caseLabel]
  cases ts with
  | nil =>
    refine .advance_end ?_
    rw [text.ends]
    exact .stop
  | cons t ts =>
    by_cases hend : t.kind = .endOfFile
    · exact .of_endOfFile hend
    refine .advance ?_
    rw [List.length_cons] at h
    obtain ⟨kind, lexeme, p⟩ := t
    cases kind with
    | keyword k =>
      cases k with
      | case =>
        exact ((readsExpressions text depth).expression ts (by omega)).bind fun _ _ _ _ =>
          (Follows.symbol .colon).bind fun _ _ _ _ => .pure rfl rfl
      | default => exact (Follows.symbol .colon).bind fun _ _ _ _ => .pure rfl rfl
      | _ => exact .stop
    | endOfFile => exact absurd rfl hend
    | _ => exact .stop

/-- The readers of statements follow the grammar, as far as the depth is enough. -/
structure ReadsStatements (text : Tokens) (depth : Nat) : Prop where
  statement : ∀ ts, 20 * ts.length + 17 < depth →
    text.Follows (Cursor.statement depth) ts (Grammar.statement text.fin ts)
  elseBranch : ∀ ts, 20 * ts.length + 17 < depth →
    text.Follows (Cursor.elseBranch depth) ts (Grammar.elseBranch text.fin ts)
  blockBody : ∀ ts, 20 * ts.length + 18 < depth →
    text.Follows (Cursor.blockBody depth) ts (Grammar.blockBody text.fin ts)
  arms : ∀ ts, 20 * ts.length + 17 < depth → text.Follows (Cursor.arms depth) ts (Grammar.arms text.fin ts)
  armBody : ∀ ts, 20 * ts.length + 18 < depth →
    text.Follows (Cursor.armBody depth) ts (Grammar.armBody text.fin ts)

namespace ReadsStatements

variable (ih : ReadsStatements text depth)

include ih

theorem elseBranch_succ (h : 20 * ts.length + 17 < depth + 1) :
    text.Follows (Cursor.elseBranch (depth + 1)) ts (Grammar.elseBranch text.fin ts) := by
  rw [Cursor.elseBranch, Grammar.elseBranch.eq_def]
  cases ts with
  | nil => exact .not_accept_nil nofun (.pure rfl rfl)
  | cons t ts =>
    dsimp only
    rw [List.length_cons] at h
    by_cases ht : t.kind = .keyword .else
    · rw [if_pos ht]
      exact .accept ht ((ih.statement ts (by omega)).bind fun _ _ _ _ => .pure rfl rfl)
    · rw [if_neg ht]
      exact .not_accept ht (.pure rfl rfl)

theorem blockBody_succ (h : 20 * ts.length + 18 < depth + 1) :
    text.Follows (Cursor.blockBody (depth + 1)) ts (Grammar.blockBody text.fin ts) := by
  rw [Cursor.blockBody, Grammar.blockBody]
  refine .check_symbol ?_ ?_
  · exact (Follows.symbol .rightBrace).bind fun _ _ _ _ => .pure rfl rfl
  refine .isAtEnd ?_
  cases ts with
  | nil =>
    rw [Grammar.statement]
    exact .stop
  | cons t ts =>
    refine (ih.statement (t :: ts) (by omega)).bind fun s rest hrest _ => ?_
    exact (ih.blockBody rest (by omega)).bind fun _ _ _ _ => .pure rfl rfl

theorem arms_succ (h : 20 * ts.length + 17 < depth + 1) :
    text.Follows (Cursor.arms (depth + 1)) ts (Grammar.arms text.fin ts) := by
  rw [Cursor.arms, Grammar.arms]
  refine .accept_symbol (fun _ _ => .pure rfl rfl) (.peek ?_)
  rw [text.next_position]
  refine (caseLabel_follows (by omega)).bind fun label rest h₁ _ => ?_
  refine (ih.armBody rest (by omega)).bind fun statements rest h₂ _ => ?_
  exact (ih.arms rest (by omega)).bind fun _ _ _ _ => .pure rfl rfl

theorem armBody_succ (h : 20 * ts.length + 18 < depth + 1) :
    text.Follows (Cursor.armBody (depth + 1)) ts (Grammar.armBody text.fin ts) := by
  rw [Cursor.armBody, Grammar.armBody.eq_def]
  refine .peek ?_
  cases ts with
  | nil =>
    rw [next_nil, text.ends]
    exact .pure rfl rfl
  | cons t ts =>
    by_cases hend : t.kind = .endOfFile
    · exact .of_endOfFile hend
    rw [next_cons, beq_eq_false_iff_ne.2 hend, Bool.or_false]
    dsimp only
    by_cases harm : endsArm t.kind = true
    · rw [if_pos harm, if_pos harm]
      exact .pure rfl rfl
    · rw [if_neg harm, if_neg harm]
      refine (ih.statement (t :: ts) (by omega)).bind fun s rest hrest _ => ?_
      exact (ih.armBody rest (by omega)).bind fun _ _ _ _ => .pure rfl rfl

theorem statement_succ (h : 20 * ts.length + 17 < depth + 1) :
    text.Follows (Cursor.statement (depth + 1)) ts (Grammar.statement text.fin ts) := by
  rw [Cursor.statement, Grammar.statement.eq_def]
  refine .peek ?_
  cases ts with
  | nil =>
    rw [next_nil, text.ends]
    exact .stop
  | cons t ts =>
    rw [next_cons]
    obtain ⟨kind, lexeme, p⟩ := t
    have hdeclared : text.Follows (declaration depth >>= fun decl => pure (Statement.declare decl))
        (⟨kind, lexeme, p⟩ :: ts)
        (Grammar.declaration text.fin (⟨kind, lexeme, p⟩ :: ts) >>= fun r => .ok (r.map Statement.declare)) :=
      (declaration_follows (by omega)).bind fun _ _ _ _ => .pure rfl rfl
    have hother : text.Follows
        (Cursor.expression depth >>= fun e => consume (.symbol .semicolon) >>= fun _ => pure (Statement.expr e))
        (⟨kind, lexeme, p⟩ :: ts)
        (Grammar.expression text.fin (⟨kind, lexeme, p⟩ :: ts) >>= fun r =>
          Grammar.symbol .semicolon r.rest >>= fun s =>
            .ok ((Parsed.mk (Statement.expr r.value) s.rest s.shorter).behind r.shorter)) :=
      ((readsExpressions text depth).expression _ (by omega)).bind fun _ _ _ _ =>
        (Follows.symbol .semicolon).bind fun _ _ _ _ => .pure rfl rfl
    rw [List.length_cons] at h
    cases kind with
    | symbol s =>
      cases s with
      | leftBrace => exact .advance ((ih.blockBody ts (by omega)).bind fun _ _ _ _ => .pure rfl rfl)
      | semicolon => exact .advance (.pure rfl rfl)
      | _ => exact hother
    | keyword k =>
      cases k with
      | int => exact hdeclared
      | struct => exact hdeclared
      | «if» =>
        refine .advance ((parenthesized_follows (by omega)).bind fun condition rest h₁ _ => ?_)
        refine (ih.statement rest (by omega)).bind fun thenBranch rest h₂ _ => ?_
        exact (ih.elseBranch rest (by omega)).bind fun _ _ _ _ => .pure rfl rfl
      | «while» =>
        refine .advance ((parenthesized_follows (by omega)).bind fun condition rest h₁ _ => ?_)
        exact (ih.statement rest (by omega)).bind fun _ _ _ _ => .pure rfl rfl
      | «do» =>
        refine .advance ((ih.statement ts (by omega)).bind fun body rest h₁ _ => ?_)
        have hwhile : text.Follows (consume (.keyword .while)) rest (expect (.keyword .while) rest) :=
          .consume Kind.noConfusion
        refine hwhile.bind fun _ rest h₂ _ => ?_
        refine (parenthesized_follows (by omega)).bind fun condition rest h₃ _ => ?_
        exact (Follows.symbol .semicolon).bind fun _ _ _ _ => .pure rfl rfl
      | «for» =>
        refine .advance ((Follows.symbol .leftParen).bind fun _ rest h₁ _ => ?_)
        refine (loopInit_follows (by omega)).bind fun init rest h₂ _ => ?_
        refine (expressionUntil_follows .semicolon (by omega)).bind fun condition rest h₃ _ => ?_
        refine (expressionUntil_follows .rightParen (by omega)).bind fun step rest h₄ _ => ?_
        exact (ih.statement rest (by omega)).bind fun _ _ _ _ => .pure rfl rfl
      | switch =>
        refine .advance ((parenthesized_follows (by omega)).bind fun value rest h₁ _ => ?_)
        refine (Follows.symbol .leftBrace).bind fun _ rest h₂ _ => ?_
        exact (ih.arms rest (by omega)).bind fun _ _ _ _ => .pure rfl rfl
      | «return» =>
        exact .advance ((expressionUntil_follows .semicolon (by omega)).bind fun _ _ _ _ => .pure rfl rfl)
      | «break» => exact .advance ((Follows.symbol .semicolon).bind fun _ _ _ _ => .pure rfl rfl)
      | «continue» => exact .advance ((Follows.symbol .semicolon).bind fun _ _ _ _ => .pure rfl rfl)
      | print => exact .advance (printed_follows.bind fun _ _ _ _ => .pure rfl rfl)
      | _ => exact hother
    | endOfFile => exact .of_endOfFile rfl
    | _ => exact hother

end ReadsStatements

theorem readsStatements (text : Tokens) (depth : Nat) : ReadsStatements text depth := by
  induction depth with
  | zero => constructor <;> intros <;> omega
  | succ depth ih =>
    exact {
      statement := fun _ => ih.statement_succ
      elseBranch := fun _ => ih.elseBranch_succ
      blockBody := fun _ => ih.blockBody_succ
      arms := fun _ => ih.arms_succ
      armBody := fun _ => ih.armBody_succ }

end Cursor
end TapeC.Grammar
