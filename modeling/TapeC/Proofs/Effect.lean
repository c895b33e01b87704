import TapeC.Proofs.AlikeTree
import TapeC.Proofs.Function

/-! What code may do to variables that were there before it: what it assigns, and what the
functions that it calls do. Names are those of the code around; an effect on a variable that a
statement declares itself is not seen outside. -/

namespace TapeC

open Layout Program

/-! ### Effects of trees -/

/-- Something that code may do to what is outside of it. -/
inductive Effect where
  /-- The variable of the name is assigned, updated or filled. -/
  | assigns (name : String)
  /-- The function of the name is called. -/
  | calls (name : String)
  /-- The returned value is set. -/
  | returns

/-- The effect is not on one of the variables that are declared. -/
def Effect.Outside (declared : List String) : Effect → Prop
  | assigns name => name ∉ declared
  | calls _ | returns => True

namespace Program

/-- The variable that an expression is a part of. -/
def Expr.variable? : Expr → Option String
  | .access name _ _ => some name
  | _ => none

/-- What an expression does itself, apart from its parts. -/
def Expr.effect? : Expr → Option Effect
  | .update _ _ target _ | .assign target _ _ _ | .fill target _ _ => target.variable?.map .assigns
  | .call name _ _ => some (.calls name)
  | _ => none

/-- What an expression does. -/
def Expr.Does (e : Expr) (effect : Effect) : Prop := ∃ t, Expr.Has t e ∧ t.effect? = some effect

/-- The names that are declared after a statement because of it. -/
def Statement.declared : Statement → List String
  | .declare d => [d.name]
  | _ => []

mutual
/-- What a statement does to what is outside of it. -/
def Statement.Does : Statement → Effect → Prop
  | .declare d, effect => ∃ e ∈ d.exprs, e.Does effect
  | .expr e, effect => e.Does effect
  | .block body _, effect => bodyDoes body effect
  | .ifElse c a b _, effect => c.Does effect ∨ a.Does effect ∨ branchDoes b effect
  | .whileLoop c body _, effect | .doLoop body c _, effect => c.Does effect ∨ body.Does effect
  | .forLoop init c step body _, effect => branchDoes init effect ∨
      ((∃ e ∈ c, e.Does effect) ∨ body.Does effect ∨ ∃ e ∈ step, e.Does effect) ∧
        effect.Outside (init.toList.flatMap Statement.declared)
  | .switch value cases _, effect => value.Does effect ∨ casesDo cases effect
  | .returns value _, effect => ∃ e ∈ value, e.Does effect ∨ effect = .returns
  | .print _ _, _ | .breaks _, _ | .continues _, _ | .empty, _ => False

/-- What statements do, each of which sees what those before it declare. -/
def bodyDoes : List Statement → Effect → Prop
  | [], _ => False
  | s :: rest, effect => s.Does effect ∨ bodyDoes rest effect ∧ effect.Outside s.declared

def branchDoes : Option Statement → Effect → Prop
  | none, _ => False
  | some s, effect => s.Does effect

/-- What the arms of a switch do; nothing follows a `break`. -/
def casesDo : List (Case Statement) → Effect → Prop
  | [], _ => False
  | ⟨_, body, _, _, _⟩ :: rest, effect => bodyDoes body effect ∨ casesDo rest effect
end
/-- What a function does to what is outside of it. -/
def FunctionDef.Does (d : FunctionDef) (effect : Effect) : Prop :=
  bodyDoes d.body effect ∧ effect.Outside (d.params.map Parameter.name)

theorem Expr.Does.of_part {e t : Expr} {effect : Effect} (h : t.Does effect) (ht : t ∈ e.parts) : e.Does effect := by
  obtain ⟨u, hu, heffect⟩ := h
  exact ⟨u, .part ht hu, heffect⟩

theorem Expr.Does.of_effect? {e : Expr} {effect : Effect} (h : e.effect? = some effect) : e.Does effect :=
  ⟨e, .self, h⟩

end Program

/-! ### Cells -/

/-- The cell is one of those of the variable. -/
def Layout.Variable.Covers (v : Variable) (x : Nat) : Prop := v.cell ≤ x ∧ x < v.stop

/-- The cell is that of a global variable which the function assigns, or which a function that
it calls does, at once or through others. -/
inductive Layout.Definitions.Touches (definitions : Definitions) : FunctionDef → Nat → Prop where
  | assigns {d : FunctionDef} {name : String} {v : Variable} {x : Nat} (h : d.Does (.assigns name))
      (hv : (Scopes.ofGlobals definitions.globals).find? name = some v) (hx : v.Covers x) : definitions.Touches d x
  | calls {d e : FunctionDef} {name : String} {x : Nat} (h : d.Does (.calls name))
      (he : definitions.callable? name = some (.defined e)) (hx : definitions.Touches e x) : definitions.Touches d x

theorem Layout.Scopes.find?_ofGlobals {definitions : Definitions} {name : String} :
    (Scopes.ofGlobals definitions.globals).find? name =
      (Lowering.globalFrame definitions).vars.find? (·.name == name) := by
  simp [Scopes.find?, Scopes.ofGlobals, Scope.find?, Lowering.globalFrame, Lowering.Frame.vars]

theorem Layout.Scopes.mem_of_find?_ofGlobals {definitions : Definitions} {name : String} {v : Variable}
    (h : (Scopes.ofGlobals definitions.globals).find? name = some v) : v ∈ definitions.globals := by
  rw [Scopes.find?_ofGlobals] at h
  exact List.mem_reverse.1 (List.mem_of_find?_eq_some h)

/-- A function only touches cells of global variables. -/
theorem Layout.Definitions.Touches.covered {definitions : Definitions} {d : FunctionDef} {x : Nat}
    (h : definitions.Touches d x) : ∃ v ∈ definitions.globals, v.Covers x := by
  induction h with
  | assigns _ hv hx => exact ⟨_, Scopes.mem_of_find?_ofGlobals hv, hx⟩
  | calls _ _ _ ih => exact ih

/-- The cells that an effect of code among these scopes is on. -/
def Effect.On (act : Lowering.Activation) (scopes : Scopes) : Effect → Nat → Prop
  | assigns name, x => ∃ v, scopes.find? name = some v ∧ v.Covers x
  | calls name, x => ∃ d, act.definitions.callable? name = some (.defined d) ∧ act.definitions.Touches d x
  | returns, x => x = act.returnCell

namespace Lowering

variable {act : Activation} {scopes scopes' scopes'' : Scopes} {does does' : Effect → Prop} {x : Nat}
  {declared declared' : List String}

/-- The cells that code with these effects may change. -/
def Writable (act : Activation) (scopes : Scopes) (does : Effect → Prop) (x : Nat) : Prop :=
  ∃ effect, does effect ∧ effect.On act scopes x

theorem Writable.mono (h : Writable act scopes does x) (hdoes : ∀ effect, does effect → does' effect) :
    Writable act scopes does' x := by
  obtain ⟨effect, hdoes', hon⟩ := h
  exact ⟨effect, hdoes effect hdoes', hon⟩

/-! ### Scopes -/

/-- What is visible in a function takes cells left of the first free one. -/
structure Settled (act : Activation) (scopes : Scopes) : Prop where
  below : ∀ name v, scopes.find? name = some v → v.stop ≤ scopes.offset
  types : ∀ name v, scopes.find? name = some v → v.shape.type.Sound
  start : scopes.inner.start ≤ scopes.offset
  returned : act.returnCell < scopes.offset
  prepared : Prepared act.definitions scopes.offset

namespace Settled

/-- An effect is on cells left of the first free one. -/
theorem writable_lt (h : Settled act scopes) (hx : Writable act scopes does x) : x < scopes.offset := by
  obtain ⟨effect, -, hon⟩ := hx
  cases effect with
  | assigns name =>
    obtain ⟨v, hv, hx⟩ := hon
    exact Nat.lt_of_lt_of_le hx.2 (h.below name v hv)
  | calls name =>
    obtain ⟨d, -, hx⟩ := hon
    obtain ⟨v, hv, hx⟩ := hx.covered
    exact Nat.lt_of_lt_of_le hx.2 (h.prepared.fits.below v (List.mem_reverse.2 hv))
  | returns => exact hon ▸ h.returned

theorem enter (h : Settled act scopes) : Settled act scopes.enter :=
  ⟨h.below, h.types, Nat.le_refl _, h.returned, h.prepared⟩

theorem reserve (h : Settled act scopes) (n : Nat) : Settled act (scopes.reserve n) :=
  have hle : scopes.offset ≤ (scopes.reserve n).offset := Nat.le_add_right _ n
  ⟨fun name v hv => Nat.le_trans (h.below name v hv) hle, h.types, Nat.le_trans h.start hle,
    Nat.lt_of_lt_of_le h.returned hle, h.prepared.mono hle⟩

end Settled

/-- Scopes after the declaration of variables of these names. -/
structure After (scopes : Scopes) (declared : List String) (scopes' : Scopes) : Prop where
  offset : scopes.offset ≤ scopes'.offset
  start : scopes'.inner.start = scopes.inner.start
  find : ∀ name ∉ declared, scopes'.find? name = scopes.find? name
  fresh : ∀ name ∈ declared, ∀ v, scopes'.find? name = some v → scopes.offset ≤ v.cell

namespace After

theorem refl : After scopes [] scopes := ⟨Nat.le_refl _, rfl, fun _ _ => rfl, nofun⟩

theorem trans (h : After scopes declared scopes') (h' : After scopes' declared' scopes'') :
    After scopes (declared ++ declared') scopes'' where
  offset := Nat.le_trans h.offset h'.offset
  start := h'.start.trans h.start
  find name hname := by
    rw [List.mem_append, not_or] at hname
    rw [h'.find name hname.2, h.find name hname.1]
  fresh name hname v hv := by
    by_cases hname' : name ∈ declared'
    · exact Nat.le_trans h.offset (h'.fresh name hname' v hv)
    · rw [h'.find name hname'] at hv
      exact h.fresh name ((List.mem_append.1 hname).resolve_right hname') v hv

/-- Of the cells that were taken before, code behind declarations may change those which it may
change in front of them, unless an effect is on what is declared. -/
theorem writable (h : After scopes declared scopes') (hlt : x < scopes.offset)
    (hx : Writable act scopes' does x) :
    Writable act scopes (fun effect => does effect ∧ effect.Outside declared) x := by
  obtain ⟨effect, hdoes, hon⟩ := hx
  cases effect with
  | assigns name =>
    obtain ⟨v, hv, hx⟩ := hon
    have hname : name ∉ declared := fun hname => by
      have := h.fresh name hname v hv
      exact absurd hx.1 (by omega)
    exact ⟨_, ⟨hdoes, hname⟩, v, h.find name hname ▸ hv, hx⟩
  | calls => exact ⟨_, ⟨hdoes, trivial⟩, hon⟩
  | returns => exact ⟨_, ⟨hdoes, trivial⟩, hon⟩

end After

theorem find?_declare {name other : String} {shape : Shape} {position : Position} {v : Variable}
    (h : scopes.declare name shape position = .ok (v, scopes')) :
    scopes'.find? other = if name = other then some v else scopes.find? other := by
  rw [Scopes.declare] at h
  split at h
  · cases h
  cases h
  simp only [Scopes.find?, Scope.find?, List.findSome?_cons, List.find?_cons]
  by_cases hname : name = other
  · simp [hname]
  · simp only [beq_eq_false_iff_ne.2 hname, if_neg hname]

/-- A variable is declared at the first free cell. -/
theorem Settled.declare {name : String} {shape : Shape} {position : Position} {v : Variable}
    (h : Settled act scopes) (hs : shape.type.Sound) (hv : scopes.declare name shape position = .ok (v, scopes')) :
    Settled act scopes' ∧ After scopes [name] scopes' ∧ scopes'.offset = scopes.offset + shape.size := by
  have hfind (other : String) : scopes'.find? other = if name = other then some v else scopes.find? other :=
    find?_declare hv
  rw [Scopes.declare] at hv
  split at hv
  · cases hv
  cases hv
  have hle : scopes.offset ≤ scopes.offset + shape.size := Nat.le_add_right _ _
  refine ⟨⟨fun other u hu => ?_, fun other u hu => ?_, Nat.le_trans h.start hle, Nat.lt_of_lt_of_le h.returned hle,
    h.prepared.mono hle⟩, ⟨hle, rfl, fun other hother => ?_, fun other hother u hu => ?_⟩, rfl⟩
  · rw [hfind] at hu
    split at hu
    · cases hu
      exact Nat.le_refl _
    · exact Nat.le_trans (h.below other u hu) hle
  · rw [hfind] at hu
    split at hu
    · cases hu
      exact hs
    · exact h.types other u hu
  · rw [hfind, if_neg fun hname : name = other => hother (hname ▸ List.mem_singleton_self _)]
  · rw [hfind, if_pos (List.mem_singleton.1 hother).symm] at hu
    cases hu
    exact Nat.le_refl _

end Lowering
end TapeC
