import Mathlib.Data.List.Basic
import TapeC.Grammar.Program

/-! Reading tokens by an index into their list. The list is never left behind: a token that marks the end of the
text is not stepped over. A reader of this kind follows a step of the grammar if it comes to the same value or
fault and has stepped over exactly the tokens that the step has read. -/

namespace TapeC.Grammar

namespace Cursor

/-! ### Readers -/

/-- Why reading stops before its end. -/
inductive Stop where
  | refused (fault : Fault)
  /-- The list has no token at an index. -/
  | outside
  /-- The calls go deeper than is allowed. -/
  | exhausted

/-- The index of the next token, and the tokens that have been stepped over. -/
structure State where
  index : Nat
  passed : List Token

/-- What reading a list of tokens comes to, and the state it ends in. -/
def Reader (α : Type) : Type := List Token → State → Except Stop α × State

instance : Monad Reader where
  pure a := fun _ s => (.ok a, s)
  bind m f := fun source s =>
    match m source s with
    | (.ok a, s) => f a source s
    | (.error e, s) => (.error e, s)

section

variable {α β : Type} {r : Reader α} {f : α → Reader β} {source : List Token} {s s' : State} {a : α} {e : Stop}

theorem bind_ok (h : r source s = (.ok a, s')) : (r >>= f) source s = f a source s' := by
  change (match r source s with | (.ok a, s) => f a source s | (.error e, s) => (.error e, s)) = _
  rw [h]

theorem bind_error (h : r source s = (.error e, s')) : (r >>= f) source s = (.error e, s') := by
  change (match r source s with | (.ok a, s) => f a source s | (.error e, s) => (.error e, s)) = _
  rw [h]

end

def stop {α : Type} (e : Stop) : Reader α := fun _ s => (.error e, s)

/-- The token at an index. -/
def fetch (index : Nat) : Reader Token := fun source s =>
  match source[index]? with
  | some t => (.ok t, s)
  | none => (.error .outside, s)

def index : Reader Nat := fun _ s => (.ok s.index, s)

def size : Reader Nat := fun source s => (.ok source.length, s)

/-- Steps over a token, whatever it is. -/
def move : Reader Unit := fun source s => (.ok (), ⟨s.index + 1, s.passed ++ source[s.index]?.toList⟩)

/-- The next token. -/
def peek : Reader Token := do fetch (← index)

/-- A token further on, or the last one. -/
def peekAt (distance : Nat) : Reader Token := do fetch (min ((← index) + distance) ((← size) - 1))

def isAtEnd : Reader Bool := return decide ((← peek).kind = .endOfFile)

/-- Steps over the next token unless it marks the end. -/
def advance : Reader Token := do
  if ← isAtEnd then peek
  else
    move
    fetch ((← index) - 1)

/-- Whether the next token is of a kind. -/
def check (kind : Kind) : Reader Bool := return decide ((← peek).kind = kind)

/-- Steps over the next token if it is of a kind. -/
def accept (kind : Kind) : Reader Bool := do
  if ← check kind then
    let _ ← advance
    return true
  else return false

/-- Refuses the next token. -/
def refuse {α : Type} (cause : Cause) : Reader α := do stop (.refused (.refused (← peek).position cause))

/-- Steps over a token of the given kind. -/
def consume (kind : Kind) : Reader Unit := do
  if ← check kind then
    let _ ← advance
    return ()
  else if ← isAtEnd then stop (.refused .unexpectedEnd)
  else refuse (.expected kind (← peek).kind)

/-- Steps over a name. -/
def identifier : Reader String := do
  match (← peek).kind with
  | .identifier name =>
    let _ ← advance
    return name
  | .endOfFile => stop (.refused .unexpectedEnd)
  | got => refuse (.expectedIdentifier got)

/-! ### Following a step -/

/-- A list of tokens, parted at the first that marks the end. -/
structure Tokens where
  before : List Token
  last : Token
  others : List Token
  ends : last.kind = .endOfFile
  inner : ∀ t ∈ before, t.kind ≠ .endOfFile

namespace Tokens

variable (text : Tokens) {α β : Type} {m n : Nat} {ts rest : List Token} {t : Token}

def source : List Token := text.before ++ text.last :: text.others

/-- The place of the end. -/
def fin : Position := text.last.position

/-- The state in which these tokens before the end remain. -/
def state (rest : List Token) : State :=
  ⟨text.before.length - rest.length, text.before.take (text.before.length - rest.length)⟩

theorem state_of_append {front : List Token} (h : front ++ rest = text.before) :
    text.state rest = ⟨front.length, front⟩ := by
  have hlength : text.before.length - rest.length = front.length := by simp [← h]
  rw [state, hlength, ← h, List.take_left]

/-- The first of the tokens that remain. -/
def next (rest : List Token) : Token := rest.headD text.last

@[simp] theorem next_nil : text.next [] = text.last := rfl

@[simp] theorem next_cons : text.next (t :: ts) = t := rfl

theorem next_kind (rest : List Token) : (text.next rest).kind = Grammar.peek rest := by
  cases rest with
  | nil => exact text.ends
  | cons t rest => rfl

theorem next_position (rest : List Token) : (text.next rest).position = here text.fin rest := by
  cases rest <;> rfl

theorem startsWith_iff {s : Symbol} : startsWith s rest = true ↔ (text.next rest).kind = .symbol s := by
  rw [startsWith, beq_iff_eq, text.next_kind]

theorem fetch_state (h : rest <:+ text.before) (s : State) :
    fetch (text.state rest).index text.source s = (.ok (text.next rest), s) := by
  obtain ⟨front, hfront⟩ := h
  have hget : text.source[front.length]? = some (text.next rest) := by
    rw [source, ← hfront, List.append_assoc, List.getElem?_append_right (Nat.le_refl _), Nat.sub_self]
    cases rest <;> rfl
  rw [text.state_of_append hfront, fetch, hget]

theorem peek_state (h : rest <:+ text.before) :
    Cursor.peek text.source (text.state rest) = (.ok (text.next rest), text.state rest) :=
  text.fetch_state h _

theorem isAtEnd_state (h : rest <:+ text.before) :
    isAtEnd text.source (text.state rest) = (.ok rest.isEmpty, text.state rest) := by
  have hend : decide ((text.next rest).kind = .endOfFile) = rest.isEmpty := by
    cases rest with
    | nil => exact decide_eq_true text.ends
    | cons t ts => exact decide_eq_false (text.inner t (h.mem List.mem_cons_self))
  rw [isAtEnd, bind_ok (text.peek_state h), hend]
  rfl

theorem check_state (h : rest <:+ text.before) (kind : Kind) : check kind text.source (text.state rest) =
    (.ok (decide ((text.next rest).kind = kind)), text.state rest) := by
  rw [check, bind_ok (text.peek_state h)]
  rfl

theorem advance_nil : advance text.source (text.state []) = (.ok text.last, text.state []) := by
  rw [advance, bind_ok (text.isAtEnd_state List.nil_suffix)]
  exact text.peek_state List.nil_suffix

theorem advance_cons (h : t :: ts <:+ text.before) :
    advance text.source (text.state (t :: ts)) = (.ok t, text.state ts) := by
  obtain ⟨front, hfront⟩ := h
  have hnext : text.state ts = ⟨front.length + 1, front ++ [t]⟩ := by
    have hfront : (front ++ [t]) ++ ts = text.before := by simpa using hfront
    rw [text.state_of_append hfront, List.length_append]
    rfl
  have hget : text.source[front.length]? = some t := by
    rw [source, ← hfront, List.append_assoc, List.getElem?_append_right (Nat.le_refl _), Nat.sub_self]
    rfl
  have hmove : move text.source (text.state (t :: ts)) = (.ok (), text.state ts) := by
    rw [text.state_of_append hfront, hnext, move, hget]
    rfl
  rw [advance, bind_ok (text.isAtEnd_state ⟨front, hfront⟩), List.isEmpty_cons, if_neg Bool.false_ne_true,
    bind_ok hmove]
  change fetch ((text.state ts).index - 1) text.source (text.state ts) = _
  rw [hnext, Nat.add_sub_cancel, fetch, hget]

/-- A reader comes to what a step of the grammar comes to, on the tokens that remain. -/
def Follows (r : Reader α) (rest : List Token) (x : Step α n) : Prop :=
  rest <:+ text.before → match x with
    | .ok p => p.rest <:+ rest ∧ r text.source (text.state rest) = (.ok p.value, text.state p.rest)
    | .error fault => ∃ left, left <:+ rest ∧
        r text.source (text.state rest) = (.error (.refused fault), text.state left)

namespace Follows

variable {text} {r : Reader α} {f : α → Reader β} {x : Step α n} {k : Parsed α n → Step β m} {fault : Fault}
  {cause : Cause}

theorem pure {p : Parsed α n} {a : α} (hvalue : p.value = a) (hrest : p.rest = rest) :
    text.Follows (Pure.pure a) rest (.ok p) := by
  subst hvalue hrest
  exact fun _ => ⟨List.suffix_rfl, rfl⟩

theorem stop : text.Follows (Cursor.stop (α := α) (.refused fault)) rest (.error fault : Step α n) :=
  fun _ => ⟨rest, List.suffix_rfl, rfl⟩

theorem bind (hx : text.Follows r rest x)
    (hk : ∀ a left h, left <:+ rest → text.Follows (f a) left (k ⟨a, left, h⟩)) :
    text.Follows (r >>= f) rest (x >>= k) := by
  intro hrest
  have hx := hx hrest
  cases x with
  | error fault =>
    obtain ⟨left, hleft, hx⟩ := hx
    exact ⟨left, hleft, bind_error hx⟩
  | ok p =>
    obtain ⟨a, left, h⟩ := p
    obtain ⟨hleft, hx⟩ := hx
    have hk := hk a left h hleft (hleft.trans hrest)
    rw [bind_ok hx]
    change (match k ⟨a, left, h⟩ with | .ok p => _ | .error fault => _)
    cases hresult : k ⟨a, left, h⟩ with
    | error fault =>
      rw [hresult] at hk
      obtain ⟨left', hleft', hk⟩ := hk
      exact ⟨left', hleft'.trans hleft, hk⟩
    | ok p =>
      rw [hresult] at hk
      exact ⟨hk.1.trans hleft, hk.2⟩

/-- A step that is told with another bound. -/
theorem same {g : Parsed α n → Parsed α m} (hx : text.Follows r rest x)
    (hg : ∀ p, (g p).value = p.value ∧ (g p).rest = p.rest) :
    text.Follows r rest (x >>= fun p => .ok (g p)) := by
  intro hrest
  have hx := hx hrest
  cases x with
  | error fault => exact hx
  | ok p =>
    change (g p).rest <:+ rest ∧ r text.source (text.state rest) = (.ok (g p).value, text.state (g p).rest)
    rw [(hg p).1, (hg p).2]
    exact hx

/-- A reader that only looks at what comes next. -/
theorem looks {a : α} {x : Step β m}
    (hr : rest <:+ text.before → r text.source (text.state rest) = (.ok a, text.state rest))
    (h : text.Follows (f a) rest x) : text.Follows (r >>= f) rest x := by
  intro hrest
  rw [bind_ok (hr hrest)]
  exact h hrest

/-- A reader that steps over the next token. -/
theorem steps {a : α} {x : Step β m}
    (hr : t :: ts <:+ text.before → r text.source (text.state (t :: ts)) = (.ok a, text.state ts))
    (h : text.Follows (f a) ts x) : text.Follows (r >>= f) (t :: ts) x := by
  intro hrest
  have h := h ((List.suffix_cons t ts).trans hrest)
  rw [bind_ok (hr hrest)]
  cases x with
  | error fault =>
    obtain ⟨left, hleft, h⟩ := h
    exact ⟨left, hleft.trans (List.suffix_cons t ts), h⟩
  | ok p => exact ⟨h.1.trans (List.suffix_cons t ts), h.2⟩

theorem peek {f : Token → Reader β} {x : Step β m} (h : text.Follows (f (text.next rest)) rest x) :
    text.Follows (Cursor.peek >>= f) rest x :=
  looks text.peek_state h

theorem check {f : Bool → Reader β} {x : Step β m} {kind : Kind}
    (h : text.Follows (f (decide ((text.next rest).kind = kind))) rest x) :
    text.Follows (Cursor.check kind >>= f) rest x :=
  looks (text.check_state · kind) h

theorem isAtEnd {f : Bool → Reader β} {x : Step β m} (h : text.Follows (f rest.isEmpty) rest x) :
    text.Follows (Cursor.isAtEnd >>= f) rest x :=
  looks text.isAtEnd_state h

theorem advance {f : Token → Reader β} {x : Step β m} (h : text.Follows (f t) ts x) :
    text.Follows (Cursor.advance >>= f) (t :: ts) x :=
  steps text.advance_cons h

theorem advance_end {f : Token → Reader β} {x : Step β m} (h : text.Follows (f text.last) [] x) :
    text.Follows (Cursor.advance >>= f) [] x :=
  looks (fun _ => text.advance_nil) h

theorem refuse : text.Follows (Cursor.refuse cause) rest (Grammar.refuse text.fin rest cause : Step α n) := by
  rw [Cursor.refuse]
  refine .peek ?_
  rw [text.next_position]
  exact .stop

/-- No token before the end marks it. -/
theorem of_endOfFile {x : Step α n} (h : t.kind = .endOfFile) : text.Follows r (t :: ts) x :=
  fun hrest => absurd h (text.inner t (hrest.mem List.mem_cons_self))

theorem consume {kind : Kind} (hkind : kind ≠ .endOfFile) :
    text.Follows (Cursor.consume kind) rest (expect kind rest) := by
  rw [Cursor.consume]
  refine .check ?_
  cases rest with
  | nil =>
    rw [next_nil, text.ends, decide_eq_false hkind.symm, if_neg Bool.false_ne_true]
    exact .isAtEnd .stop
  | cons t ts =>
    rw [next_cons, expect]
    by_cases ht : t.kind = kind
    · rw [if_pos ht, if_pos (decide_eq_true ht)]
      refine .advance ?_
      exact .pure rfl rfl
    · rw [if_neg ht, decide_eq_false ht, if_neg Bool.false_ne_true]
      refine .isAtEnd (.peek ?_)
      exact .refuse

theorem symbol (s : Symbol) : text.Follows (Cursor.consume (.symbol s)) rest (Grammar.symbol s rest) :=
  consume nofun

theorem identifier : text.Follows Cursor.identifier rest (Grammar.identifier rest) := by
  rw [Cursor.identifier]
  refine .peek ?_
  cases rest with
  | nil =>
    rw [next_nil, text.ends]
    exact .stop
  | cons t ts =>
    obtain ⟨kind, lexeme, p⟩ := t
    cases kind with
    | identifier name =>
      refine .advance ?_
      exact .pure rfl rfl
    | endOfFile => exact .of_endOfFile rfl
    | _ => exact .refuse

theorem accept {f : Bool → Reader β} {x : Step β m} {kind : Kind} (ht : t.kind = kind)
    (h : text.Follows (f true) ts x) : text.Follows (Cursor.accept kind >>= f) (t :: ts) x := by
  refine steps (fun hrest => ?_) h
  rw [Cursor.accept, bind_ok (text.check_state hrest kind), next_cons, decide_eq_true ht, if_pos rfl,
    bind_ok (text.advance_cons hrest)]
  rfl

theorem not_accept {f : Bool → Reader β} {x : Step β m} {kind : Kind} (ht : (text.next rest).kind ≠ kind)
    (h : text.Follows (f false) rest x) : text.Follows (Cursor.accept kind >>= f) rest x := by
  refine looks (fun hrest => ?_) h
  rw [Cursor.accept, bind_ok (text.check_state hrest kind), decide_eq_false ht, if_neg Bool.false_ne_true]
  rfl

theorem not_accept_nil {f : Bool → Reader β} {x : Step β m} {kind : Kind} (hkind : kind ≠ .endOfFile)
    (h : text.Follows (f false) [] x) : text.Follows (Cursor.accept kind >>= f) [] x :=
  not_accept (fun hlast => hkind (hlast.symm.trans text.ends)) h

/-- A token that is known to be of the kind that is asked for. -/
theorem consume_cons {f : Unit → Reader β} {x : Step β m} {kind : Kind} (ht : t.kind = kind)
    (h : text.Follows (f ()) ts x) : text.Follows (Cursor.consume kind >>= f) (t :: ts) x := by
  refine steps (fun hrest => ?_) h
  rw [Cursor.consume, bind_ok (text.check_state hrest kind), next_cons, decide_eq_true ht, if_pos rfl,
    bind_ok (text.advance_cons hrest)]
  rfl

/-- Whether a symbol comes next. -/
theorem check_symbol {f : Bool → Reader β} {s : Symbol} {x y : Step β m} (htrue : text.Follows (f true) rest x)
    (hfalse : text.Follows (f false) rest y) :
    text.Follows (Cursor.check (.symbol s) >>= f) rest (if startsWith s rest then x else y) := by
  refine .check ?_
  by_cases h : startsWith s rest = true
  · rwa [if_pos h, decide_eq_true (text.startsWith_iff.1 h)]
  · rwa [if_neg h, decide_eq_false (mt text.startsWith_iff.2 h)]

/-- A symbol that is stepped over if it comes next. -/
theorem accept_symbol {f : Bool → Reader β} {s : Symbol} {k : Parsed Unit rest.length → Step β m} {y : Step β m}
    (htrue : ∀ left h, text.Follows (f true) left (k ⟨(), left, h⟩)) (hfalse : text.Follows (f false) rest y) :
    text.Follows (Cursor.accept (.symbol s) >>= f) rest
      (if startsWith s rest then Grammar.symbol s rest >>= k else y) := by
  by_cases h : startsWith s rest = true
  · rw [if_pos h]
    cases rest with
    | nil => cases h
    | cons t ts =>
      have ht : t.kind = .symbol s := text.startsWith_iff.1 h
      have hsymbol : Grammar.symbol s (t :: ts) = .ok (.first () t ts) := by rw [Grammar.symbol, expect, if_pos ht]
      rw [hsymbol]
      exact .accept ht (htrue ts _)
  · rw [if_neg h]
    exact .not_accept (mt text.startsWith_iff.2 h) hfalse

end Follows
end Tokens
end Cursor
end TapeC.Grammar
