import TapeC.Proofs.Cursor

/-! Expressions that are read by an index. The loops of the reader are calls of their own, and each call is
allowed one less in depth than the one that makes it. -/

namespace TapeC.Grammar

open Program

namespace Cursor

/-! ### Readers of expressions -/

/-- The updates behind an operand. -/
def updatesAfter (e : Expr) : Nat → Reader Expr
  | 0 => stop .exhausted
  | depth + 1 => do
    match updateOp? (← peek).kind with
    | some op =>
      let _ ← advance
      updatesAfter (.update op false e e.position) depth
    | none => return e

mutual
def expression : Nat → Reader Expr
  | 0 => stop .exhausted
  | depth + 1 => do
    let target ← binary levels depth
    match assignment? (← peek).kind with
    | none => return target
    | some op =>
      let _ ← advance
      if op.isNone && beginsContents (← peek).kind then
        let contents ← contents depth
        return .fill target contents target.position
      else
        let value ← expression depth
        return .assign target op value target.position

def binary (n : Nat) : Nat → Reader Expr
  | 0 => stop .exhausted
  | depth + 1 =>
    match n with
    | 0 => unary depth
    | n + 1 => do
      let left ← binary n depth
      operands n left depth

def operands (n : Nat) (left : Expr) : Nat → Reader Expr
  | 0 => stop .exhausted
  | depth + 1 => do
    match binaryOp? (← peek).kind with
    | none => return left
    | some op =>
      if looseness op = n then
        let _ ← advance
        let right ← binary n depth
        if n = comparisonLevel then return .binary op left right left.position
        else operands n (.binary op left right left.position) depth
      else return left

def unary : Nat → Reader Expr
  | 0 => stop .exhausted
  | depth + 1 => do
    let t ← peek
    match unaryOp? t.kind, updateOp? t.kind with
    | some op, _ =>
      let _ ← advance
      let operand ← unary depth
      return .unary op operand t.position
    | none, some op =>
      let _ ← advance
      let target ← operand depth
      return .update op true target t.position
    | none, none => operand depth

def operand : Nat → Reader Expr
  | 0 => stop .exhausted
  | depth + 1 => do
    let e ← primary depth
    updatesAfter e depth

def primary : Nat → Reader Expr
  | 0 => stop .exhausted
  | depth + 1 => do
    let t ← advance
    match t.kind with
    | .number n => return .number n t.position
    | .char c => return .char c t.position
    | .keyword .true => return .bool true t.position
    | .keyword .false => return .bool false t.position
    | .symbol .leftParen =>
      let e ← expression depth
      consume (.symbol .rightParen)
      return e
    | .identifier name => named t.position name depth
    | .string _ => stop (.refused (.refused t.position .stringValue))
    | .endOfFile => stop (.refused .unexpectedEnd)
    | got => stop (.refused (.refused t.position (.expectedExpression got)))

def named (p : Position) (name : String) : Nat → Reader Expr
  | 0 => stop .exhausted
  | depth + 1 => do
    if ← accept (.symbol .leftParen) then
      let args ← arguments depth
      return .call name args p
    else
      let path ← selectors depth
      return .access name path p

def arguments : Nat → Reader (List Expr)
  | 0 => stop .exhausted
  | depth + 1 => do
    if ← check (.symbol .rightParen) then
      consume (.symbol .rightParen)
      return []
    else
      let args ← argumentList depth
      consume (.symbol .rightParen)
      return args

def argumentList : Nat → Reader (List Expr)
  | 0 => stop .exhausted
  | depth + 1 => do
    let arg ← expression depth
    if ← accept (.symbol .comma) then
      let args ← argumentList depth
      return arg :: args
    else return [arg]

def selectors : Nat → Reader (List (Selector Expr))
  | 0 => stop .exhausted
  | depth + 1 => do
    if ← accept (.symbol .leftBracket) then
      let e ← expression depth
      consume (.symbol .rightBracket)
      let path ← selectors depth
      return .index e :: path
    else if ← accept (.symbol .dot) then
      let name ← identifier
      let path ← selectors depth
      return .field name :: path
    else return []

def contents : Nat → Reader (Initializer Expr)
  | 0 => stop .exhausted
  | depth + 1 => do
    let t ← peek
    match t.kind with
    | .symbol .leftBrace =>
      let _ ← advance
      if ← check (.symbol .rightBrace) then
        consume (.symbol .rightBrace)
        return .list [] t.position
      else
        let items ← contentsList depth
        consume (.symbol .rightBrace)
        return .list items t.position
    | .string text =>
      let _ ← advance
      return .text text t.position
    | _ =>
      let e ← expression depth
      return .single e

def contentsList : Nat → Reader (List (Initializer Expr))
  | 0 => stop .exhausted
  | depth + 1 => do
    let item ← contents depth
    if ← accept (.symbol .comma) then
      let items ← contentsList depth
      return item :: items
    else return [item]
end

/-! ### Following the grammar -/

variable {text : Tokens} {depth n : Nat} {ts : List Token} {e : Expr}

open Tokens

theorem updatesAfter_follows (e : Expr) (h : ts.length < depth) :
    text.Follows (updatesAfter e depth) ts (.ok (Grammar.updatesAfter e ts)) := by
  induction depth generalizing e ts with
  | zero => omega
  | succ depth ih =>
    rw [updatesAfter]
    refine .peek ?_
    cases ts with
    | nil =>
      rw [next_nil, text.ends]
      exact .pure rfl rfl
    | cons t ts =>
      rw [next_cons, Grammar.updatesAfter]
      cases updateOp? t.kind with
      | none => exact .pure rfl rfl
      | some op =>
        refine .advance ?_
        exact (ih _ (by simpa using h)).same fun p => ⟨rfl, rfl⟩

theorem binary_nil (fin : Position) (n : Nat) : Grammar.binary fin n [] = .error .unexpectedEnd := by
  induction n with
  | zero => rw [Grammar.binary, Grammar.unary]
  | succ n ih =>
    rw [Grammar.binary, ih]
    rfl

theorem expression_nil (fin : Position) : Grammar.expression fin [] = .error .unexpectedEnd := by
  rw [Grammar.expression, binary_nil]
  rfl

/-- The readers of expressions follow the grammar, as far as the depth is enough. -/
structure ReadsExpressions (text : Tokens) (depth : Nat) : Prop where
  expression : ∀ ts, 20 * ts.length + 14 < depth →
    text.Follows (Cursor.expression depth) ts (Grammar.expression text.fin ts)
  binary : ∀ n ts, n ≤ levels → 20 * ts.length + (4 + n) < depth →
    text.Follows (Cursor.binary n depth) ts (Grammar.binary text.fin n ts)
  operands : ∀ n left ts, n < levels → 20 * ts.length < depth →
    text.Follows (Cursor.operands n left depth) ts (Grammar.operands text.fin n left ts)
  unary : ∀ ts, 20 * ts.length + 3 < depth → text.Follows (Cursor.unary depth) ts (Grammar.unary text.fin ts)
  operand : ∀ ts, 20 * ts.length + 2 < depth → text.Follows (Cursor.operand depth) ts (Grammar.operand text.fin ts)
  primary : ∀ ts, 20 * ts.length + 1 < depth → text.Follows (Cursor.primary depth) ts (Grammar.primary text.fin ts)
  named : ∀ p name ts, 20 * ts.length + 1 < depth →
    text.Follows (Cursor.named p name depth) ts (Grammar.named text.fin p name ts)
  arguments : ∀ ts, 20 * ts.length + 16 < depth →
    text.Follows (Cursor.arguments depth) ts (Grammar.arguments text.fin ts)
  argumentList : ∀ ts, 20 * ts.length + 15 < depth →
    text.Follows (Cursor.argumentList depth) ts (Grammar.argumentList text.fin ts)
  selectors : ∀ ts, 20 * ts.length < depth →
    text.Follows (Cursor.selectors depth) ts (Grammar.selectors text.fin ts)
  contents : ∀ ts, 20 * ts.length + 15 < depth → text.Follows (Cursor.contents depth) ts (Grammar.contents text.fin ts)
  contentsList : ∀ ts, 20 * ts.length + 16 < depth →
    text.Follows (Cursor.contentsList depth) ts (Grammar.contentsList text.fin ts)

namespace ReadsExpressions

variable (ih : ReadsExpressions text depth)

include ih

theorem expression_succ (h : 20 * ts.length + 14 < depth + 1) :
    text.Follows (Cursor.expression (depth + 1)) ts (Grammar.expression text.fin ts) := by
  rw [Cursor.expression, Grammar.expression]
  refine (ih.binary levels ts (Nat.le_refl _) (by unfold levels; omega)).bind fun target rest hrest _ => ?_
  dsimp only
  refine .peek ?_
  cases rest with
  | nil =>
    rw [next_nil, text.ends]
    exact .pure rfl rfl
  | cons t rest =>
    rw [next_cons]
    dsimp only
    rw [List.length_cons] at hrest
    cases assignment? t.kind with
    | none => exact .pure rfl rfl
    | some op =>
      refine .advance (.peek ?_)
      rw [text.next_kind]
      dsimp only
      by_cases hfill : (op.isNone && beginsContents (Grammar.peek rest)) = true
      · rw [if_pos hfill, if_pos hfill]
        exact (ih.contents rest (by omega)).bind fun _ _ _ _ => .pure rfl rfl
      · rw [if_neg hfill, if_neg hfill]
        exact (ih.expression rest (by omega)).bind fun _ _ _ _ => .pure rfl rfl

theorem binary_succ (hn : n ≤ levels) (h : 20 * ts.length + (4 + n) < depth + 1) :
    text.Follows (Cursor.binary n (depth + 1)) ts (Grammar.binary text.fin n ts) := by
  rw [Cursor.binary.eq_def, Grammar.binary.eq_def]
  cases n with
  | zero => exact ih.unary ts (by omega)
  | succ n =>
    refine (ih.binary n ts (by omega) (by omega)).bind fun left rest hrest _ => ?_
    exact (ih.operands n left rest hn (by omega)).same fun _ => ⟨rfl, rfl⟩

theorem operands_succ (left : Expr) (hn : n < levels) (h : 20 * ts.length < depth + 1) :
    text.Follows (Cursor.operands n left (depth + 1)) ts (Grammar.operands text.fin n left ts) := by
  rw [Cursor.operands, Grammar.operands.eq_def]
  refine .peek ?_
  cases ts with
  | nil =>
    rw [next_nil, text.ends]
    exact .pure rfl rfl
  | cons t ts =>
    rw [next_cons]
    dsimp only
    rw [List.length_cons] at h
    cases binaryOp? t.kind with
    | none => exact .pure rfl rfl
    | some op =>
      dsimp only
      by_cases hop : looseness op = n
      · rw [if_pos hop, if_pos hop]
        have hlevel : 20 * ts.length + (4 + n) < depth := by unfold levels at hn; omega
        refine .advance ((ih.binary n ts (Nat.le_of_lt hn) hlevel).bind fun right rest hrest _ => ?_)
        dsimp only
        by_cases hn' : n = comparisonLevel
        · rw [if_pos hn', if_pos hn']
          exact .pure rfl rfl
        · rw [if_neg hn', if_neg hn']
          exact (ih.operands n _ rest hn (by omega)).same fun _ => ⟨rfl, rfl⟩
      · rw [if_neg hop, if_neg hop]
        exact .pure rfl rfl

theorem operand_succ (h : 20 * ts.length + 2 < depth + 1) :
    text.Follows (Cursor.operand (depth + 1)) ts (Grammar.operand text.fin ts) := by
  rw [Cursor.operand, Grammar.operand]
  refine (ih.primary ts (by omega)).bind fun e rest hrest _ => ?_
  exact (updatesAfter_follows e (by omega)).same fun _ => ⟨rfl, rfl⟩

theorem unary_succ (h : 20 * ts.length + 3 < depth + 1) :
    text.Follows (Cursor.unary (depth + 1)) ts (Grammar.unary text.fin ts) := by
  rw [Cursor.unary, Grammar.unary.eq_def]
  refine .peek ?_
  cases ts with
  | nil =>
    rw [next_nil, text.ends]
    have hend : Grammar.operand text.fin [] = .error .unexpectedEnd := by rw [Grammar.operand, Grammar.primary]; rfl
    exact hend ▸ ih.operand [] (by omega)
  | cons t ts =>
    rw [next_cons]
    dsimp only
    rw [List.length_cons] at h
    cases unaryOp? t.kind with
    | some op =>
      exact .advance ((ih.unary ts (by omega)).bind fun _ _ _ _ => .pure rfl rfl)
    | none =>
      cases updateOp? t.kind with
      | some op => exact .advance ((ih.operand ts (by omega)).bind fun _ _ _ _ => .pure rfl rfl)
      | none => exact ih.operand (t :: ts) (by rw [List.length_cons]; omega)

theorem primary_succ (h : 20 * ts.length + 1 < depth + 1) :
    text.Follows (Cursor.primary (depth + 1)) ts (Grammar.primary text.fin ts) := by
  rw [Cursor.primary, Grammar.primary.eq_def]
  cases ts with
  | nil =>
    refine .advance_end ?_
    rw [text.ends]
    exact .stop
  | cons t ts =>
    rw [List.length_cons] at h
    refine .advance ?_
    obtain ⟨kind, lexeme, p⟩ := t
    cases kind with
    | number n => exact .pure rfl rfl
    | char c => exact .pure rfl rfl
    | keyword k =>
      cases k with
      | true => exact .pure rfl rfl
      | false => exact .pure rfl rfl
      | _ => exact .stop
    | symbol s =>
      cases s with
      | leftParen =>
        exact (ih.expression ts (by omega)).bind fun _ _ _ _ => (Follows.symbol .rightParen).bind fun _ _ _ _ =>
          .pure rfl rfl
      | _ => exact .stop
    | identifier name => exact ih.named p name ts (by omega)
    | _ => exact .stop

theorem named_succ (p : Position) (name : String) (h : 20 * ts.length + 1 < depth + 1) :
    text.Follows (Cursor.named p name (depth + 1)) ts (Grammar.named text.fin p name ts) := by
  rw [Cursor.named, Grammar.named.eq_def]
  cases ts with
  | nil =>
    refine .not_accept_nil nofun ?_
    have hnamed : (.ok (.stay (.access name [] p) []) : Step Expr 1) =
        Grammar.selectors text.fin [] >>= fun r => .ok (r.map (.access name · p)) := by
      rw [Grammar.selectors]
      rfl
    exact hnamed ▸ (ih.selectors [] (by omega)).bind fun _ _ _ _ => .pure rfl rfl
  | cons t ts =>
    dsimp only
    by_cases ht : t.kind = .symbol .leftParen
    · rw [if_pos ht]
      rw [List.length_cons] at h
      exact .accept ht ((ih.arguments ts (by omega)).bind fun _ _ _ _ => .pure rfl rfl)
    · rw [if_neg ht]
      exact .not_accept ht ((ih.selectors (t :: ts) (by omega)).bind fun _ _ _ _ => .pure rfl rfl)

theorem arguments_succ (h : 20 * ts.length + 16 < depth + 1) :
    text.Follows (Cursor.arguments (depth + 1)) ts (Grammar.arguments text.fin ts) := by
  rw [Cursor.arguments, Grammar.arguments]
  refine .check_symbol ?_ ?_
  · exact (Follows.symbol .rightParen).bind fun _ _ _ _ => .pure rfl rfl
  · exact (ih.argumentList ts (by omega)).bind fun _ _ _ _ => (Follows.symbol .rightParen).bind fun _ _ _ _ =>
      .pure rfl rfl

theorem argumentList_succ (h : 20 * ts.length + 15 < depth + 1) :
    text.Follows (Cursor.argumentList (depth + 1)) ts (Grammar.argumentList text.fin ts) := by
  rw [Cursor.argumentList, Grammar.argumentList]
  refine (ih.expression ts (by omega)).bind fun arg rest hrest _ => ?_
  refine .accept_symbol (fun left hleft => ?_) (.pure rfl rfl)
  exact (ih.argumentList left (by omega)).bind fun _ _ _ _ => .pure rfl rfl

theorem selectors_succ (h : 20 * ts.length < depth + 1) :
    text.Follows (Cursor.selectors (depth + 1)) ts (Grammar.selectors text.fin ts) := by
  rw [Cursor.selectors, Grammar.selectors.eq_def]
  cases ts with
  | nil =>
    refine .not_accept_nil nofun ?_
    refine .not_accept_nil nofun ?_
    exact .pure rfl rfl
  | cons t ts =>
    dsimp only
    rw [List.length_cons] at h
    by_cases hbracket : t.kind = .symbol .leftBracket
    · rw [if_pos hbracket]
      refine .accept hbracket ?_
      refine (ih.expression ts (by omega)).bind fun e rest hrest _ => ?_
      refine (Follows.symbol .rightBracket).bind fun _ left hleft _ => ?_
      exact (ih.selectors left (by omega)).bind fun _ _ _ _ => .pure rfl rfl
    rw [if_neg hbracket]
    refine .not_accept hbracket ?_
    by_cases hdot : t.kind = .symbol .dot
    · rw [if_pos hdot]
      refine .accept hdot ?_
      refine Follows.identifier.bind fun name rest hrest _ => ?_
      exact (ih.selectors rest (by omega)).bind fun _ _ _ _ => .pure rfl rfl
    · rw [if_neg hdot]
      exact .not_accept hdot (.pure rfl rfl)

theorem contents_succ (h : 20 * ts.length + 15 < depth + 1) :
    text.Follows (Cursor.contents (depth + 1)) ts (Grammar.contents text.fin ts) := by
  rw [Cursor.contents, Grammar.contents.eq_def]
  refine .peek ?_
  cases ts with
  | nil =>
    rw [next_nil, text.ends]
    have hcontents : (.error .unexpectedEnd : Step (Initializer Expr) 0) =
        Grammar.expression text.fin [] >>= fun r => .ok (r.map .single) := by rw [expression_nil]; rfl
    exact hcontents ▸ (ih.expression [] (by omega)).bind fun _ _ _ _ => .pure rfl rfl
  | cons t ts =>
    rw [next_cons]
    obtain ⟨kind, lexeme, p⟩ := t
    have hvalue : text.Follows (Cursor.expression depth >>= fun e => pure (Initializer.single e))
        (⟨kind, lexeme, p⟩ :: ts)
        (Grammar.expression text.fin (⟨kind, lexeme, p⟩ :: ts) >>= fun r => .ok (r.map Initializer.single)) :=
      (ih.expression _ (by omega)).bind fun _ _ _ _ => .pure rfl rfl
    rw [List.length_cons] at h
    cases kind with
    | symbol s =>
      cases s with
      | leftBrace =>
        refine .advance (.check_symbol ?_ ?_)
        · exact (Follows.symbol .rightBrace).bind fun _ _ _ _ => .pure rfl rfl
        · exact (ih.contentsList ts (by omega)).bind fun _ _ _ _ => (Follows.symbol .rightBrace).bind fun _ _ _ _ =>
            .pure rfl rfl
      | _ => exact hvalue
    | string text => exact .advance (.pure rfl rfl)
    | _ => exact hvalue

theorem contentsList_succ (h : 20 * ts.length + 16 < depth + 1) :
    text.Follows (Cursor.contentsList (depth + 1)) ts (Grammar.contentsList text.fin ts) := by
  rw [Cursor.contentsList, Grammar.contentsList]
  refine (ih.contents ts (by omega)).bind fun item rest hrest _ => ?_
  refine .accept_symbol (fun left hleft => ?_) (.pure rfl rfl)
  exact (ih.contentsList left (by omega)).bind fun _ _ _ _ => .pure rfl rfl

end ReadsExpressions

theorem readsExpressions (text : Tokens) (depth : Nat) : ReadsExpressions text depth := by
  induction depth with
  | zero => constructor <;> intros <;> omega
  | succ depth ih =>
    exact {
      expression := fun _ => ih.expression_succ
      binary := fun _ _ => ih.binary_succ
      operands := fun _ left _ => ih.operands_succ left
      unary := fun _ => ih.unary_succ
      operand := fun _ => ih.operand_succ
      primary := fun _ => ih.primary_succ
      named := fun p name _ => ih.named_succ p name
      arguments := fun _ => ih.arguments_succ
      argumentList := fun _ => ih.argumentList_succ
      selectors := fun _ => ih.selectors_succ
      contents := fun _ => ih.contents_succ
      contentsList := fun _ => ih.contentsList_succ }

end Cursor
end TapeC.Grammar
