import Mathlib.Data.List.TakeDrop
import Mathlib.Data.List.TakeWhile
import TapeC.Proofs.CursorStatement

/-! Programs and lone expressions that are read by an index. On every list of tokens reading comes to an end, at
any depth that the number of tokens asks for, and the end of the text is not stepped over. -/

namespace TapeC.Grammar

open Program

namespace Cursor

/-! ### Readers of programs -/

def fields : Nat → Reader (List FieldDef)
  | 0 => stop .exhausted
  | depth + 1 => do
    if (← check (.symbol .rightBrace)) || (← isAtEnd) then
      consume (.symbol .rightBrace)
      return []
    else
      let type ← typeName
      let t ← peek
      let name ← identifier
      let dims ← dimensions depth
      consume (.symbol .semicolon)
      let others ← fields depth
      return ⟨type, name, dims, t.position⟩ :: others

def structDef (depth : Nat) : Reader StructDef := do
  let t ← peek
  consume (.keyword .struct)
  let name ← identifier
  consume (.symbol .leftBrace)
  let fields ← fields depth
  consume (.symbol .semicolon)
  return ⟨name, fields, t.position⟩

def parameterList : Nat → Reader (List Parameter)
  | 0 => stop .exhausted
  | depth + 1 => do
    if ← check (.keyword .int) then
      let _ ← advance
      let t ← peek
      let name ← identifier
      if ← accept (.symbol .comma) then
        let others ← parameterList depth
        return ⟨name, t.position⟩ :: others
      else return [⟨name, t.position⟩]
    else refuse .parameterType

def parameters (depth : Nat) : Reader (List Parameter) := do
  if ← check (.symbol .rightParen) then
    consume (.symbol .rightParen)
    return []
  else
    let params ← parameterList depth
    consume (.symbol .rightParen)
    return params

def returnKind (kind : Kind) : ReturnKind :=
  match kind with
  | .keyword .void => .void
  | _ => .int

def functionDef (depth : Nat) : Reader FunctionDef := do
  let returns ← advance
  let t ← peek
  let name ← identifier
  consume (.symbol .leftParen)
  let params ← parameters depth
  consume (.symbol .leftBrace)
  let body ← blockBody depth
  return ⟨returnKind returns.kind, name, params, body, t.position⟩

/-- Whether a name and the symbol `s` stand behind the next token. -/
def namedThen (s : Symbol) : Reader Bool := do
  match (← peekAt 1).kind with
  | .identifier _ => return decide ((← peekAt 2).kind = .symbol s)
  | _ => return false

def item (depth : Nat) : Reader Item := do
  match (← peek).kind with
  | .keyword .struct =>
    if ← namedThen .leftBrace then
      let d ← structDef depth
      return .struct d
    else
      let d ← declaration depth
      return .global d
  | .keyword .void =>
    let d ← functionDef depth
    return .function d
  | .keyword .int =>
    if ← namedThen .leftParen then
      let d ← functionDef depth
      return .function d
    else
      let d ← declaration depth
      return .global d
  | .include path _ => refuse (.unexpandedInclude path)
  | got => refuse (.expectedDefinition got)

def items : Nat → Reader (List Item)
  | 0 => stop .exhausted
  | depth + 1 => do
    if ← isAtEnd then return []
    else
      let i ← item depth
      let others ← items depth
      return i :: others

def program (depth : Nat) : Reader Program := do
  let is ← items depth
  return Item.program is

/-- An expression with the end of the text behind it. -/
def standalone (depth : Nat) : Reader Expr := do
  let e ← expression depth
  if ← isAtEnd then return e
  else
    let t ← peek
    refuse (.afterExpression t.kind)

/-! ### Following the grammar -/

variable {text : Tokens} {depth n : Nat} {t : Token} {ts : List Token}

namespace Tokens

variable (text)

theorem state_index (rest : List Token) : (text.state rest).index = (text.state rest).passed.length := by
  simp [state]

theorem passed_prefix (rest : List Token) : (text.state rest).passed <+: text.before := List.take_prefix _ _

variable {text}

theorem peekAt_state (front : List Token) {rest : List Token} (h : front ++ rest <:+ text.before) :
    peekAt front.length text.source (text.state (front ++ rest)) =
      (.ok (text.next rest), text.state (front ++ rest)) := by
  have hrest : rest <:+ text.before := (List.suffix_append front rest).trans h
  have hindex : min ((text.state (front ++ rest)).index + front.length) (text.source.length - 1) =
      (text.state rest).index := by
    have hlength := h.length_le
    simp only [state, source, List.length_append, List.length_cons] at hlength ⊢
    omega
  change fetch (min ((text.state (front ++ rest)).index + front.length) (text.source.length - 1)) text.source _ = _
  rw [hindex]
  exact text.fetch_state hrest _

theorem namedThen_state (h : t :: ts <:+ text.before) (s : Symbol) :
    namedThen s text.source (text.state (t :: ts)) = (.ok (Grammar.namedThen s ts), text.state (t :: ts)) := by
  have hone : peekAt 1 text.source (text.state (t :: ts)) = (.ok (text.next ts), text.state (t :: ts)) :=
    peekAt_state [t] h
  rw [namedThen, bind_ok hone]
  cases ts with
  | nil =>
    rw [next_nil, text.ends]
    rfl
  | cons u ts =>
    have htwo : peekAt 2 text.source (text.state (t :: u :: ts)) = (.ok (text.next ts), text.state (t :: u :: ts)) :=
      peekAt_state [t, u] h
    obtain ⟨kind, lexeme, p⟩ := u
    cases kind with
    | identifier name =>
      change (peekAt 2 >>= fun t => pure (decide (t.kind = .symbol s))) text.source _ = _
      rw [bind_ok htwo, text.next_kind]
      rfl
    | _ => rfl

end Tokens

open Tokens

theorem fields_follows (h : 20 * ts.length < depth) :
    text.Follows (fields depth) ts (Grammar.fields text.fin ts) := by
  induction depth generalizing ts with
  | zero => omega
  | succ depth ih =>
    rw [fields, Grammar.fields]
    refine .check (.isAtEnd ?_)
    rw [text.next_kind]
    change text.Follows (if startsWith .rightBrace ts || ts.isEmpty then _ else _) ts _
    split
    · exact (Follows.symbol .rightBrace).bind fun _ _ _ _ => .pure rfl rfl
    · refine typeName_follows.bind fun type rest h₁ _ => .peek ?_
      rw [text.next_position]
      refine Follows.identifier.bind fun name rest h₂ _ => ?_
      refine (dimensions_follows (by omega)).bind fun dims rest h₃ _ => ?_
      refine (Follows.symbol .semicolon).bind fun _ rest h₄ _ => ?_
      exact (ih (by omega)).bind fun _ _ _ _ => .pure rfl rfl

theorem structDef_follows (ht : t.kind = .keyword .struct) (h : 20 * ts.length < depth) :
    text.Follows (structDef depth) (t :: ts)
      (Grammar.structDef text.fin t.position ts >>= fun r => .ok (r.after t)) := by
  rw [structDef, Grammar.structDef]
  simp only [bind_assoc]
  refine .peek (.consume_cons ht ?_)
  refine Follows.identifier.bind fun name rest h₁ _ => ?_
  refine (Follows.symbol .leftBrace).bind fun _ rest h₂ _ => ?_
  refine (fields_follows (by omega)).bind fun fields rest h₃ _ => ?_
  exact (Follows.symbol .semicolon).bind fun _ _ _ _ => .pure rfl rfl

theorem parameterList_follows (h : 20 * ts.length < depth) :
    text.Follows (parameterList depth) ts (Grammar.parameterList text.fin ts) := by
  induction depth generalizing ts with
  | zero => omega
  | succ depth ih =>
    rw [parameterList, Grammar.parameterList.eq_def]
    refine .check ?_
    cases ts with
    | nil =>
      rw [next_nil, text.ends]
      exact .refuse
    | cons t ts =>
      rw [next_cons]
      dsimp only
      rw [List.length_cons] at h
      by_cases ht : t.kind = .keyword .int
      · rw [if_pos ht, if_pos (decide_eq_true ht)]
        refine .advance (.peek ?_)
        rw [text.next_position]
        refine Follows.identifier.bind fun name rest h₁ _ => ?_
        refine .accept_symbol (fun left hleft => ?_) (.pure rfl rfl)
        exact (ih (by omega)).bind fun _ _ _ _ => .pure rfl rfl
      · rw [if_neg ht, if_neg (by simpa using ht)]
        exact .refuse

theorem parameters_follows (h : 20 * ts.length < depth) :
    text.Follows (parameters depth) ts (Grammar.parameters text.fin ts) := by
  rw [parameters, Grammar.parameters]
  refine .check_symbol ?_ ?_
  · exact (Follows.symbol .rightParen).bind fun _ _ _ _ => .pure rfl rfl
  · exact (parameterList_follows h).bind fun _ _ _ _ => (Follows.symbol .rightParen).bind fun _ _ _ _ => .pure rfl rfl

theorem functionDef_follows {returns : ReturnKind} (ht : returnKind t.kind = returns)
    (h : 20 * (ts.length + 1) < depth) :
    text.Follows (functionDef depth) (t :: ts)
      (Grammar.functionDef text.fin returns ts >>= fun r => .ok (r.after t)) := by
  rw [functionDef, Grammar.functionDef, ← ht]
  simp only [bind_assoc]
  refine .advance (.peek ?_)
  rw [text.next_position]
  refine Follows.identifier.bind fun name rest h₁ _ => ?_
  refine (Follows.symbol .leftParen).bind fun _ rest h₂ _ => ?_
  refine (parameters_follows (by omega)).bind fun params rest h₃ _ => ?_
  refine (Follows.symbol .leftBrace).bind fun _ rest h₄ _ => ?_
  exact ((readsStatements text depth).blockBody rest (by omega)).bind fun _ _ _ _ => .pure rfl rfl

/-- A definition that begins with a token that has been stepped over. -/
theorem definition_follows {α : Type} (wrap : α → Item) {r : Reader α} {x : Step α ts.length}
    (h : text.Follows r (t :: ts) (x >>= fun p => .ok (p.after t))) :
    text.Follows (r >>= fun a => pure (wrap a)) (t :: ts) (x >>= fun p => .ok ((p.map wrap).after t)) := by
  have hwrapped : text.Follows (r >>= fun a => pure (wrap a)) (t :: ts)
      ((x >>= fun p => .ok (p.after t)) >>= fun p => .ok (p.map wrap)) :=
    h.bind fun _ _ _ _ => .pure rfl rfl
  rwa [bind_assoc] at hwrapped

theorem item_follows (h : 20 * (ts.length + 1) < depth) :
    text.Follows (item depth) (t :: ts) (Grammar.item text.fin (t :: ts)) := by
  rw [item]
  obtain ⟨kind, lexeme, p⟩ := t
  refine .peek ?_
  have hglobal : text.Follows (declaration depth >>= fun d => pure (Item.global d)) (⟨kind, lexeme, p⟩ :: ts)
      (Grammar.declaration text.fin (⟨kind, lexeme, p⟩ :: ts) >>= fun r => .ok (r.map Item.global)) :=
    (declaration_follows h).bind fun _ _ _ _ => .pure rfl rfl
  cases kind with
  | keyword k =>
    cases k with
    | struct =>
      refine .looks (text.namedThen_state · .leftBrace) ?_
      rw [Grammar.item]
      dsimp only
      split
      · exact definition_follows .struct (structDef_follows rfl (by omega))
      · exact hglobal
    | void => exact definition_follows .function (functionDef_follows rfl h)
    | int =>
      refine .looks (text.namedThen_state · .leftParen) ?_
      rw [Grammar.item]
      dsimp only
      split
      · exact definition_follows .function (functionDef_follows rfl h)
      · exact hglobal
    | _ => exact .refuse
  | endOfFile => exact .of_endOfFile rfl
  | _ => exact .refuse

/-- What a text comes to of which nothing remains. -/
def whole {α : Type} (x : Except Fault α) : Step α 1 := x.map fun a => ⟨a, [], Nat.one_pos⟩

theorem items_follows (h : 20 * ts.length + 1 < depth) :
    text.Follows (items depth) ts (whole (Grammar.items text.fin ts)) := by
  induction depth generalizing ts with
  | zero => omega
  | succ depth ih =>
    rw [items]
    refine .isAtEnd ?_
    cases ts with
    | nil =>
      rw [Grammar.items]
      exact .pure rfl rfl
    | cons t ts =>
      have hitems : whole (Grammar.items text.fin (t :: ts)) = Grammar.item text.fin (t :: ts) >>= fun p =>
          whole (Grammar.items text.fin p.rest) >>= fun q => .ok (q.map (p.value :: ·)) := by
        rw [Grammar.items]
        cases Grammar.item text.fin (t :: ts) with
        | error fault => rfl
        | ok p =>
          change whole (Grammar.items text.fin p.rest >>= fun is => .ok (p.value :: is)) =
            whole (Grammar.items text.fin p.rest) >>= fun q => .ok (q.map (p.value :: ·))
          cases Grammar.items text.fin p.rest <;> rfl
      rw [List.length_cons] at h
      rw [hitems]
      refine (item_follows (by omega)).bind fun i rest hrest _ => ?_
      rw [List.length_cons] at hrest
      exact (ih (by omega)).bind fun _ _ _ _ => .pure rfl rfl

theorem program_follows (h : 20 * ts.length + 1 < depth) :
    text.Follows (program depth) ts (whole (Item.program <$> Grammar.items text.fin ts)) := by
  have hwhole : whole (Item.program <$> Grammar.items text.fin ts) =
      whole (Grammar.items text.fin ts) >>= fun p => .ok (p.map Item.program) := by
    cases Grammar.items text.fin ts <;> rfl
  rw [hwhole]
  exact (items_follows h).bind fun _ _ _ _ => .pure rfl rfl

/-! ### Whole texts -/

/-- What is put behind tokens so that the last of them marks the end. -/
def mark (ts : List Token) : List Token :=
  match ts.getLast? with
  | none => [⟨.endOfFile, "", .start⟩]
  | some t => if t.kind = .endOfFile then [] else [⟨.endOfFile, "", t.position⟩]

/-- The tokens before the first that marks the end. -/
def inside (ts : List Token) : List Token := ts.takeWhile (·.kind != .endOfFile)

theorem exists_tokens (ts : List Token) :
    ∃ text : Tokens, text.source = ts ++ mark ts ∧ text.before = inside ts ∧ untilEnd ts = (inside ts, text.fin) := by
  have hinner : ∀ t ∈ inside ts, t.kind ≠ .endOfFile := fun t ht => by simpa using List.mem_takeWhile_imp ht
  have hsplit : inside ts ++ ts.dropWhile (·.kind != .endOfFile) = ts := List.takeWhile_append_dropWhile
  rw [untilEnd, List.span_eq_takeWhile_dropWhile, ← inside]
  cases hdrop : ts.dropWhile (·.kind != .endOfFile) with
  | cons t others =>
    have ht : t.kind = .endOfFile := by
      have hhead := List.head?_dropWhile_not (·.kind != .endOfFile) ts
      rw [hdrop] at hhead
      simpa using hhead
    refine ⟨⟨inside ts, t, others ++ mark ts, ht, hinner⟩, ?_, rfl, rfl⟩
    rw [hdrop] at hsplit
    rw [Tokens.source, ← List.cons_append, ← List.append_assoc, hsplit]
  | nil =>
    rw [hdrop, List.append_nil] at hsplit
    rw [hsplit] at hinner ⊢
    rw [mark]
    cases hlast : ts.getLast? with
    | none =>
      rw [List.getLast?_eq_none_iff.1 hlast]
      exact ⟨⟨[], ⟨.endOfFile, "", .start⟩, [], rfl, List.forall_mem_nil _⟩, rfl, rfl, rfl⟩
    | some t =>
      have ht : t.kind ≠ .endOfFile := hinner t (List.mem_of_getLast? hlast)
      dsimp only
      rw [if_neg ht]
      exact ⟨⟨ts, ⟨.endOfFile, "", t.position⟩, [], rfl, hinner⟩, rfl, rfl, by rw [hlast]; rfl⟩

/-- Reading tokens by an index comes to `x`, at any depth that their number asks for. What has been stepped over
lies before the end of the text then, and is all that lies there if there is a value. -/
def Reads {α : Type} (r : Nat → Reader α) (ts : List Token) (x : Except Fault α) : Prop :=
  ∀ depth, 20 * (ts.length + 1) ≤ depth → ∃ s : State,
    r depth (ts ++ mark ts) ⟨0, []⟩ = (x.mapError .refused, s) ∧
      s.index = s.passed.length ∧ s.passed <+: inside ts ∧ (∀ a, x = .ok a → s.passed = inside ts)

theorem reads_of_follows {α : Type} {r : Nat → Reader α} {x : Except Fault α}
    (h : ∀ text : Tokens, untilEnd ts = (text.before, text.fin) → ∀ depth, 20 * (text.before.length + 1) ≤ depth →
      text.Follows (r depth) text.before (whole x)) : Reads r ts x := by
  intro depth hdepth
  obtain ⟨text, hsource, hbefore, huntil⟩ := exists_tokens ts
  have hlength : text.before.length ≤ ts.length := hbefore ▸ (List.takeWhile_prefix _).length_le
  have hread := h text (hbefore ▸ huntil) depth (by omega) List.suffix_rfl
  have hstart : text.state text.before = ⟨0, []⟩ := by simp [state]
  rw [← hsource, ← hbefore, ← hstart]
  cases x with
  | error fault =>
    obtain ⟨left, -, hread⟩ := hread
    exact ⟨text.state left, hread, text.state_index left, text.passed_prefix left, fun _ h => by cases h⟩
  | ok a =>
    exact ⟨text.state [], hread.2, text.state_index [], text.passed_prefix [], fun _ _ => List.take_length⟩

theorem reads_program (ts : List Token) : Reads program ts (Grammar.program ts) := by
  refine reads_of_follows fun text huntil depth hdepth => ?_
  have hprogram : Grammar.program ts = Item.program <$> Grammar.items text.fin text.before := by
    rw [Grammar.program, huntil]
    dsimp only
    cases Grammar.items text.fin text.before <;> rfl
  rw [hprogram]
  exact program_follows (by omega)

/-- An expression with nothing behind it. -/
def alone (p : Parsed Expr n) : Step Expr 1 :=
  match p.rest with
  | [] => .ok ⟨p.value, [], Nat.one_pos⟩
  | t :: _ => .error (.refused t.position (.afterExpression t.kind))

theorem reads_standalone (ts : List Token) : Reads standalone ts (Grammar.standalone ts) := by
  refine reads_of_follows fun text huntil depth hdepth => ?_
  have hstandalone : whole (Grammar.standalone ts) = Grammar.expression text.fin text.before >>= alone := by
    rw [Grammar.standalone, huntil]
    dsimp only
    cases Grammar.expression text.fin text.before with
    | error fault => rfl
    | ok p =>
      obtain ⟨e, rest, h⟩ := p
      cases rest <;> rfl
  rw [hstandalone, standalone]
  refine ((readsExpressions text depth).expression text.before (by omega)).bind fun e rest _ _ => .isAtEnd ?_
  cases rest with
  | nil => exact .pure rfl rfl
  | cons t rest => exact .peek .refuse

end Cursor

/-- Reading by an index comes to an end on every list of tokens, with what the grammar comes to. The index stays
in the list, behind which a mark is put if need be, and does not go over the first mark. -/
theorem indexed_parsing_total (ts : List Token) :
    Cursor.Reads Cursor.program ts (program ts) ∧ Cursor.Reads Cursor.standalone ts (standalone ts) :=
  ⟨Cursor.reads_program ts, Cursor.reads_standalone ts⟩

end TapeC.Grammar
