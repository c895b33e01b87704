import TapeC.Proofs.Relocation

/-! A `for` loop is a block with a `while` loop. The block enters more scopes than the loop does, but
scopes that declare nothing take no cells, so that every part of the loop is lowered at the same cell,
among the same variables. Leaving those scopes moves the head by no cells, and that has no text. -/

namespace TapeC

open Layout Program Tape Routine

/-- The block that a `for` loop stands for. A condition that is left out is true. -/
def Program.Statement.loopBlock (init : Option Statement) (condition step : Option Expr) (body : Statement)
    (position : Position) : Statement :=
  .block (init.toList ++ [.whileLoop (condition.getD (.number 1 position))
    (.block (.block [body] position :: (step.map Statement.expr).toList) position) position]) position

namespace Lowering

/-- Code with the same text and unchanged scopes, or the same fault. -/
inductive SameLowering (scopes : Scopes) :
    (r r' : Except CompileFault ((Code × Scopes) × List Warning)) → Prop where
  | code {a b : Code} {w w' : List Warning} (h : a.text = b.text) :
      SameLowering scopes (.ok ((a, scopes), w)) (.ok ((b, scopes), w'))
  | fault (e : CompileFault) : SameLowering scopes (.error e) (.error e)

namespace Displacement

open Code

/-- The same place, with any warnings. -/
def still : Displacement := ⟨0, fun _ _ => True, fun _ _ => trivial⟩

/-- The same text, whatever comes after it. -/
def SameText (a b : Code) : Prop := ∀ rest, a.charsThen rest = b.charsThen rest

theorem charsThen_append (a b : Code) (rest : List Char) : (a ++ b).charsThen rest = a.charsThen (b.charsThen rest) := rfl

/-! ### Warnings on one side -/

/-- The computation adds warnings at most. -/
def Silent (x : Lower PUnit) : Prop := ∀ w, ∃ w', x.run w = .ok (⟨⟩, w')

variable {α β γ : Type} {S : α → β → Prop} {x : Lower PUnit}

theorem Silent.agree_left {k : PUnit → Lower α} {y : Lower β} (hx : Silent x) (h : still.Agree S (k ⟨⟩) y) :
    still.Agree S (x >>= k) y := by
  intro v w hw
  obtain ⟨v', hv⟩ := hx v
  rw [StateT.run_bind, hv]
  exact h v' w trivial

theorem Silent.agree_right {y : Lower α} {k : PUnit → Lower β} (hx : Silent x) (h : still.Agree S y (k ⟨⟩)) :
    still.Agree S y (x >>= k) := by
  intro v w hw
  obtain ⟨w', hw'⟩ := hx w
  rw [StateT.run_bind, hw']
  exact h v w' trivial

/-- The second result is used further. -/
theorem agree_pure_right {D : Displacement} {T : α → γ → Prop} {x : Lower α} {y : Lower β} {f : β → γ}
    (h : D.Agree S x y) (hf : ∀ a b, S a b → T a (f b)) : D.Agree T x (y >>= fun b => pure (f b)) := by
  have hbind : D.Agree T (x >>= pure) (y >>= fun b => pure (f b)) := h.bind fun a b hab => .pure (hf a b hab)
  rwa [bind_pure] at hbind

theorem silent_checkLoopInit (init : Option Statement) : Silent (checkLoopInit init) := by
  intro w
  unfold checkLoopInit
  split
  · exact ⟨_, rfl⟩
  · exact ⟨w, rfl⟩

theorem silent_checkReturn (t : Statement) (rest : List Statement) : Silent (checkReturn t rest) := by
  intro w
  unfold checkReturn
  split
  · split
    · exact ⟨_, rfl⟩
    · exact ⟨w, rfl⟩
  · exact ⟨w, rfl⟩

/-! ### One place -/

/-- A function without comments, in which calls agree with themselves. -/
structure Steady (act : Activation) : Prop where
  annotate : act.annotate = false
  calls : ∀ name, still.MovedCall act act name

variable {act : Activation} {s s' : Scopes}

theorem Steady.expr (h : Steady act) (hs : s.FoundMoved 0 (fun _ => True) s') (e : Expr) :
    still.MovedAt (expr act s e) (expr act s' e) :=
  expr_moved hs e ⟨fun _ _ _ _ => trivial, fun name _ _ _ => h.calls name⟩

theorem Steady.statement (h : Steady act) (t : Statement) :
    still.MovedIn (fun _ => True) (fun _ => True) (statement act t) (statement act t) :=
  (statement_moved ⟨rfl, rfl, rfl, rfl⟩ t (fun _ _ name _ _ _ => h.calls name) _ fun _ _ => trivial).mono
    fun _ _ => .inr trivial

theorem Steady.note_charsThen (h : Steady act) (t : Statement) (rest : List Char) :
    (((noteText? t).map act.note).getD skip).charsThen rest = rest := by
  cases noteText? t with
  | none => rfl
  | some text => simp [Activation.note, h.annotate, charsThen]

/-! ### Rounds -/

variable {init : Option Statement} {condition step : Option Expr} {body : Statement} {position : Position}

theorem statements_whileLoop (e : Expr) (t : Statement) : statements act [.whileLoop e t position] s = do
    let test ← expr act s e s.offset
    let body ← inScope (statement act t) s
    return (((noteText? (.whileLoop e t position)).map act.note).getD skip ++ repeatWhile test body ++ skip, s) := by
  simp only [statements, checkReturn, statement, noted, plain, whileLoop, bind_assoc, pure_bind]

theorem statements_expr (e : Expr) : statements act [.expr e] s = do
    let value ← expr act s e s.offset
    return (((noteText? (.expr e)).map act.note).getD skip ++ (value ++ left 1) ++ skip, s) := by
  simp only [statements, checkReturn, statement, noted, plain, discard, bind_assoc, pure_bind]

/-- The last part of each round. -/
def stepCode (act : Activation) (step : Option Expr) (s : Scopes) : Lower Code :=
  match step with
  | none => pure skip
  | some e => discard (fun s => expr act s e) s

/-- A round: the body in a scope of its own, and the step. -/
def roundCode (act : Activation) (step : Option Expr) (body : Statement) (s : Scopes) : Lower Code := do
  let body ← inScope (statement act body) s
  let step ← stepCode act step s
  return body ++ step

theorem stepCode_agree (h : Steady act) (hs : s.FoundMoved 0 (fun _ => True) s') (hoffset : s'.offset = s.offset) :
    still.Agree (fun a r => SameText a r.1 ∧ r.2 = s') (stepCode act step s)
      (statements act (step.map Statement.expr).toList s') := by
  cases step with
  | none => exact .pure ⟨fun _ => rfl, rfl⟩
  | some e =>
    simp only [Option.map_some, Option.toList_some, statements_expr, hoffset]
    refine (h.expr hs e s.offset).andThen fun value => .pure ⟨fun tail => ?_, rfl⟩
    simp [charsThen_append, charsThen, h.note_charsThen]

/-- A round and the block of its parts. The scopes of the block, which declare nothing, take no cells. -/
theorem roundCode_agree (h : Steady act) (hs : s.Moved 0 (fun _ => True) s') :
    still.Agree SameText (roundCode act step body s)
      (inScope (statement act (.block (.block [body] position :: (step.map Statement.expr).toList) position)) s') := by
  have hbody : s.enter.Moved 0 (fun _ => True) s'.enter.enter.enter := ⟨hs.enter.inner, hs.find?⟩
  have hfound : s.FoundMoved 0 (fun _ => True) s'.enter.enter := hs.find?
  have hclaimed : s'.enter.claimed = 0 ∧ s'.enter.enter.claimed = 0 := ⟨Nat.sub_self _, Nat.sub_self _⟩
  simp only [roundCode, inScope, statement, plain, statements, bind_assoc, pure_bind]
  refine (silent_checkReturn _ _).agree_right ((silent_checkReturn _ _).agree_right ?_)
  refine (h.statement body _ _ hbody).bindIn fun b t t' ht => ?_
  refine (stepCode_agree h hfound hs.offset).bind fun a r hr => .pure fun tail => ?_
  simp [charsThen_append, charsThen, ht.claimed, hclaimed, hr.1 _, hr.2]

/-- The code of a `for` loop after that of its first part. -/
def roundsAfter (act : Activation) (condition step : Option Expr) (body : Statement) (first : Code) (s : Scopes) :
    Lower (Code × Scopes) := do
  let test ← ((condition.map fun e s => expr act s e).getD fun _ => constant 1) s s.offset
  let round ← roundCode act step body s
  return (first ++ repeatWhile test round, s)

theorem roundsAfter_agree (first : Code) (h : Steady act) (hs : s.Moved 0 (fun _ => True) s') :
    still.Agree (fun r r' => SameText r.1 (first ++ r'.1) ∧ r.2.claimed = r'.2.claimed)
      (roundsAfter act condition step body first s)
      (statements act [.whileLoop (condition.getD (.number 1 position))
        (.block (.block [body] position :: (step.map Statement.expr).toList) position) position] s') := by
  have hcondition : still.MovedAt ((condition.map fun e s => expr act s e).getD (fun _ => constant 1) s)
      (expr act s' (condition.getD (.number 1 position))) := by
    cases condition with
    | none => exact constant_moved
    | some e => exact h.expr hs.find? e
  rw [statements_whileLoop, roundsAfter, hs.offset]
  refine (hcondition s.offset).andThen fun test => ?_
  refine (roundCode_agree h hs).bind fun a b hab => .pure ⟨fun tail => ?_, hs.claimed.symm⟩
  simp [charsThen_append, charsThen, repeatWhile, h.note_charsThen, hab _]

/-! ### Loops -/

/-- The code of the first part of a `for` loop. -/
def firstCode (act : Activation) (init : Option Statement) : CodeIn :=
  match init with
  | none => fun s => pure (skip, s)
  | some t => statement act t

theorem forLoop_eq : forLoop (statement? act init) (condition.map fun e s => expr act s e)
    (step.map fun e s => expr act s e) (statement act body) = inScope fun s =>
      firstCode act init s >>= fun r => roundsAfter act condition step body r.1 r.2 := by
  simp only [forLoop, roundsAfter, roundCode, stepCode, firstCode, bind_assoc, pure_bind]
  cases init <;> cases step <;> rfl

theorem inScope_agree {code code' : CodeIn}
    (h : still.Agree (fun r r' => SameText r.1 r'.1 ∧ r.2.claimed = r'.2.claimed) (code s.enter) (code' s.enter)) :
    still.Agree SameText (inScope code s) (inScope code' s) :=
  h.bind fun _ _ hr => .pure fun tail => by simp only [charsThen_append, hr.1 _, hr.2]

/-- A loop and the block that it stands for. -/
theorem forLoop_agree (h : Steady act) :
    still.Agree SameText
      (forLoop (statement? act init) (condition.map fun e s => expr act s e) (step.map fun e s => expr act s e)
        (statement act body) s)
      (inScope (statements act (init.toList ++ [.whileLoop (condition.getD (.number 1 position))
        (.block (.block [body] position :: (step.map Statement.expr).toList) position) position])) s) := by
  have hrefl : s.enter.Moved 0 (fun _ => True) s.enter := ⟨rfl, fun _ _ => (Option.map_id' ..).symm⟩
  rw [forLoop_eq]
  refine inScope_agree ?_
  cases init with
  | none => exact roundsAfter_agree skip h hrefl
  | some t =>
    rw [Option.toList_some, List.singleton_append, statements]
    refine (silent_checkReturn _ _).agree_right ((h.statement t _ _ hrefl).bindIn fun first next next' hnext => ?_)
    exact agree_pure_right (roundsAfter_agree first h hnext) fun _ _ hr => hr

/-- In the code of the program itself, calls agree with themselves: at no distance, any variable can be named. -/
theorem steady_of_inlineCall {definitions : Definitions} {returns : ReturnKind} {returnCell depth : Nat}
    {active : List String} :
    Steady ⟨definitions, false, returns, returnCell, inlineCall definitions false depth active⟩ := by
  have hglobals : (Scopes.ofGlobals definitions.globals).FoundMoved 0 (fun _ => True) (.ofGlobals definitions.globals) :=
    fun _ _ => (Option.map_id' ..).symm
  have hall : Enclosed definitions (fun _ => True) fun _ => True :=
    ⟨fun _ _ _ _ => trivial, fun _ _ _ _ _ _ _ _ _ _ => trivial⟩
  exact ⟨rfl, fun _ => ⟨rfl, fun _ _ position => inlineCall_moved hglobals hall trivial position⟩⟩

end Displacement

open Displacement

/-- A `for` loop is lowered to the text of the block that it stands for, or refused for the same
fault, and leaves the scopes as they are. -/
theorem forLoop_desugars (definitions : Definitions) (returns : ReturnKind) (returnCell depth : Nat) (active : List String)
    (init : Option Statement) (condition step : Option Expr) (body : Statement) (position : Position) (s : Scopes)
    (w : List Warning) :
    SameLowering s
      ((statement ⟨definitions, false, returns, returnCell, inlineCall definitions false depth active⟩
        (.forLoop init condition step body position) s).run w)
      ((statement ⟨definitions, false, returns, returnCell, inlineCall definitions false depth active⟩
        (.loopBlock init condition step body position) s).run w) := by
  generalize hact : (⟨definitions, false, returns, returnCell, inlineCall definitions false depth active⟩ :
    Activation) = act
  have h : Steady act := hact ▸ steady_of_inlineCall
  have hloop : still.Agree (fun r r' => r.1.text = r'.1.text ∧ r.2 = s ∧ r'.2 = s)
      (statement act (.forLoop init condition step body position) s)
      (statement act (.loopBlock init condition step body position) s) := by
    simp only [statement, Statement.loopBlock, noted, plain, bind_assoc, pure_bind]
    refine (silent_checkLoopInit init).agree_left ((forLoop_agree h).bind fun a b hab => .pure ⟨?_, rfl, rfl⟩)
    exact congrArg String.ofList ((h.note_charsThen _ _).trans (hab []))
  have hrun := hloop w w trivial
  generalize (statement act (.forLoop init condition step body position) s).run w = r at hrun ⊢
  generalize (statement act (.loopBlock init condition step body position) s).run w = r' at hrun ⊢
  rcases r with e | ⟨⟨a, t⟩, v⟩ <;> rcases r' with e' | ⟨⟨b, t'⟩, v'⟩
  · obtain rfl : e = e' := hrun
    exact .fault e
  · exact hrun.elim
  · exact hrun.elim
  · obtain ⟨⟨htext, rfl, rfl⟩, -⟩ := hrun
    exact .code htext

end Lowering
end TapeC
