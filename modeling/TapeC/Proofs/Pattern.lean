import Mathlib.Data.List.Basic
import Mathlib.Data.List.TakeWhile
import TapeC.Token.Rule

/-! Patterns of lexemes. A pattern may match the beginning of a text in more than one way. The ways
are tried in a fixed order, and the first that leads to the end of the pattern is its match. Each rule
finds what its pattern matches. -/

namespace TapeC.Token

/-- What the beginning of a text may look like. -/
inductive Pattern where
  /-- A character of a class. -/
  | one (p : Char → Bool)
  | empty
  /-- The end of the text. -/
  | ending
  | seq (a b : Pattern)
  /-- The second is tried after the first. -/
  | alt (a b : Pattern)
  /-- Any number of repetitions. The more of them are tried first if it is greedy, else the fewer. -/
  | star (greedy : Bool) (a : Pattern)

namespace Pattern

abbrev many (a : Pattern) : Pattern := star true a

abbrev few (a : Pattern) : Pattern := star false a

/-- One or more. -/
abbrev some (a : Pattern) : Pattern := seq a (many a)

def literal : List Char → Pattern
  | [] => empty
  | c :: cs => seq (one (· == c)) (literal cs)

/-- What remains behind at most `n` repetitions of `f`. A repetition that takes no character is not
made. -/
def repeated (greedy : Bool) (f : List Char → List (List Char)) : Nat → List Char → List (List Char)
  | 0, cs => [cs]
  | n + 1, cs =>
    let more := ((f cs).filter (·.length < cs.length)).flatMap (repeated greedy f n)
    if greedy then more ++ [cs] else cs :: more

/-- What remains of a text behind each match of its beginning, in the order in which they are tried. -/
def rests : Pattern → List Char → List (List Char)
  | one _, [] => []
  | one p, c :: cs => if p c then [cs] else []
  | empty, cs => [cs]
  | ending, cs => if cs.isEmpty then [[]] else []
  | seq a b, cs => (a.rests cs).flatMap b.rests
  | alt a b, cs => a.rests cs ++ b.rests cs
  | star greedy a, cs => repeated greedy a.rests cs.length cs

/-- What remains behind the match. -/
def rest? (a : Pattern) (cs : List Char) : Option (List Char) := (a.rests cs).head?

end Pattern

/-- What the lexemes of a rule look like. -/
def Rule.pattern : Rule → Pattern
  | .fixed spelling _ => .literal spelling
  | .blanks => .some (.one Text.isBlank)
  | .includeSearched => .seq (.literal includeWord) (.seq (.many (.one Text.isBlank)) (enclosed '<' '>'))
  | .includeQuoted => .seq (.literal includeWord) (.seq (.many (.one Text.isBlank)) (enclosed '"' '"'))
  | .word => .seq (.one isWordStart) (.many (.one isWordPart))
  | .decimal => .some (.one Char.isDigit)
  | .hexadecimal => .seq (.one (· == '0')) (.seq (.one fun c => c == 'x' || c == 'X') (.some (.one isHexDigit)))
  | .string => .seq (.one (· == '"')) (.seq (.many (written '"')) (.one (· == '"')))
  | .char => .seq (.one (· == '\'')) (.seq (.alt
      (.seq (.one (· == '\\')) (.seq (.one (· == 'x')) (.seq (.one isHexDigit) (.one isHexDigit)))) (written '\''))
      (.one (· == '\'')))
  | .lineComment => .seq (.literal ['/', '/']) (.seq (.many (.one (· ≠ '\n'))) (.alt (.one (· == '\n')) .ending))
  | .blockComment => .seq (.literal ['/', '*']) (.seq (.few (.one fun _ => true)) (.literal ['*', '/']))
  | .any => .one fun _ => true
where
  /-- A path in its delimiters. -/
  enclosed (opening closing : Char) : Pattern :=
    .seq (.one (· == opening)) (.seq (.some (.one fun c => c ≠ closing && c ≠ '\n')) (.one (· == closing)))
  /-- A character between quotes, or two that begin with a backslash. -/
  written (quote : Char) : Pattern :=
    .alt (.seq (.one (· == '\\')) (.one (· ≠ '\n'))) (.one fun c => c ≠ quote && c ≠ '\\' && c ≠ '\n')

namespace Pattern

variable {a b c : Pattern} {p : Char → Bool} {x : Char} {cs : List Char}

theorem rest?_seq : (seq a b).rest? cs = (a.rests cs).findSome? b.rest? := List.head?_flatMap

@[simp] theorem rest?_one_nil : (one p).rest? [] = none := rfl

@[simp] theorem rest?_one_cons : (one p).rest? (x :: cs) = if p x then Option.some cs else none := by
  rw [rest?, rests]
  split <;> rfl

@[simp] theorem rest?_alt : (alt a b).rest? cs = (a.rest? cs).or (b.rest? cs) := List.head?_append

@[simp] theorem rest?_seq_one_nil : (seq (one p) b).rest? [] = none := rfl

@[simp] theorem rest?_seq_one_cons : (seq (one p) b).rest? (x :: cs) = if p x then b.rest? cs else none := by
  rw [rest?_seq, rests]
  split
  · simp
  · rfl

@[simp] theorem rest?_seq_seq : (seq (seq a b) c).rest? cs = (seq a (seq b c)).rest? cs :=
  congrArg List.head? List.flatMap_assoc

@[simp] theorem rest?_seq_alt : (seq (alt a b) c).rest? cs = ((seq a c).rest? cs).or ((seq b c).rest? cs) := by
  rw [rest?, rests, rests, List.flatMap_append, List.head?_append]
  rfl

theorem rest?_seq_empty : (seq a empty).rest? cs = a.rest? cs :=
  congrArg List.head? (List.flatMap_singleton' _)

theorem rest?_seq_literal (s : List Char) :
    (seq (literal s) b).rest? cs = if s.isPrefixOf cs then b.rest? (cs.drop s.length) else none := by
  induction s generalizing cs with
  | nil => simp [literal, rest?_seq, rests]
  | cons c s ih =>
    rw [literal, rest?_seq_seq]
    cases cs with
    | nil => rfl
    | cons x cs =>
      rw [rest?_seq_one_cons, ih, List.isPrefixOf_cons_cons]
      by_cases hx : x = c
      · simp [hx]
      · simp [hx, Ne.symm hx]

theorem rest?_literal (s : List Char) :
    (literal s).rest? cs = if s.isPrefixOf cs then Option.some (cs.drop s.length) else none := by
  rw [← rest?_seq_empty, rest?_seq_literal]
  rfl

/-! ### Repetitions -/

theorem repeated_eq (greedy : Bool) (f : List Char → List (List Char)) {m n : Nat} (hm : cs.length ≤ m)
    (hn : cs.length ≤ n) : repeated greedy f m cs = repeated greedy f n cs := by
  induction m generalizing n cs with
  | zero =>
    cases n with
    | zero => rfl
    | succ n =>
      have hnone : (f cs).filter (·.length < cs.length) = [] := by
        rw [Nat.le_zero.1 hm]
        exact List.filter_eq_nil_iff.2 (by simp)
      simp [repeated, hnone]
  | succ m ih =>
    cases n with
    | zero =>
      have hnone : (f cs).filter (·.length < cs.length) = [] := by
        rw [Nat.le_zero.1 hn]
        exact List.filter_eq_nil_iff.2 (by simp)
      simp [repeated, hnone]
    | succ n =>
      have hmore : ((f cs).filter (·.length < cs.length)).flatMap (repeated greedy f m) =
          ((f cs).filter (·.length < cs.length)).flatMap (repeated greedy f n) := by
        refine List.flatMap_congr fun rest hrest => ?_
        have hlt : rest.length < cs.length := by simpa using (List.mem_filter.1 hrest).2
        exact ih (by omega) (by omega)
      rw [repeated, repeated, hmore]

/-- What a repetition leaves and what is left if none is made. -/
theorem rests_star (greedy : Bool) : (star greedy a).rests cs =
    let more := ((a.rests cs).filter (·.length < cs.length)).flatMap (star greedy a).rests
    if greedy then more ++ [cs] else cs :: more := by
  rw [rests, repeated_eq greedy _ (Nat.le_refl _) (Nat.le_succ _), repeated]
  have hmore : ((a.rests cs).filter (·.length < cs.length)).flatMap (repeated greedy a.rests cs.length) =
      ((a.rests cs).filter (·.length < cs.length)).flatMap (star greedy a).rests := by
    refine List.flatMap_congr fun rest hrest => ?_
    have hlt : rest.length < cs.length := by simpa using (List.mem_filter.1 hrest).2
    exact repeated_eq greedy _ (Nat.le_of_lt hlt) (Nat.le_refl _)
  rw [hmore]

theorem rest?_seq_many : (seq (many a) b).rest? cs =
    (((a.rests cs).filter (·.length < cs.length)).findSome? (seq (many a) b).rest?).or (b.rest? cs) := by
  rw [rest?, rests, rests_star, if_pos rfl, List.flatMap_append, List.head?_append, List.flatMap_assoc,
    List.head?_flatMap, List.flatMap_singleton]
  rfl

theorem rest?_seq_few : (seq (few a) b).rest? cs =
    (b.rest? cs).or (((a.rests cs).filter (·.length < cs.length)).findSome? (seq (few a) b).rest?) := by
  rw [rest?, rests, rests_star, if_neg Bool.false_ne_true, List.flatMap_cons, List.head?_append, List.flatMap_assoc,
    List.head?_flatMap]
  rfl

theorem filter_rests_one_cons :
    ((one p).rests (x :: cs)).filter (·.length < (x :: cs).length) = if p x then [cs] else [] := by
  rw [rests]
  split <;> simp

/-- What follows the repetitions begins with no character that could be repeated. -/
theorem rest?_seq_many_one (h : ∀ x cs, p x = true → b.rest? (x :: cs) = none) :
    (seq (many (one p)) b).rest? cs = b.rest? (cs.dropWhile p) := by
  induction cs with
  | nil => rw [rest?_seq_many]; rfl
  | cons x cs ih =>
    rw [rest?_seq_many, filter_rests_one_cons, List.dropWhile_cons]
    split
    next hx => simp [ih, h x cs hx]
    next => rfl

theorem rest?_many_one : (many (one p)).rest? cs = Option.some (cs.dropWhile p) := by
  induction cs with
  | nil => rfl
  | cons x cs ih =>
    rw [← rest?_seq_empty, rest?_seq_many, filter_rests_one_cons, List.dropWhile_cons]
    split
    · simp [rest?_seq_empty, ih]
    · rfl

theorem rest?_seq_some_one (h : ∀ x cs, p x = true → b.rest? (x :: cs) = none) :
    (seq (some (one p)) b).rest? cs = if cs.takeWhile p = [] then none else b.rest? (cs.dropWhile p) := by
  rw [rest?_seq_seq]
  cases cs with
  | nil => rfl
  | cons x cs =>
    rw [rest?_seq_one_cons, rest?_seq_many_one h, List.takeWhile_cons, List.dropWhile_cons]
    split <;> rfl

theorem rest?_some_one :
    (some (one p)).rest? cs = if cs.takeWhile p = [] then none else Option.some (cs.dropWhile p) := by
  cases cs with
  | nil => rfl
  | cons x cs =>
    rw [rest?_seq_one_cons, rest?_many_one, List.takeWhile_cons, List.dropWhile_cons]
    split <;> rfl

end Pattern

/-! ### What the rules find -/

theorem drop_takeWhile_length (p : Char → Bool) (cs : List Char) :
    cs.drop (cs.takeWhile p).length = cs.dropWhile p := by
  have h : cs.takeWhile p ++ cs.dropWhile p = cs := List.takeWhile_append_dropWhile
  calc cs.drop (cs.takeWhile p).length
    _ = (cs.takeWhile p ++ cs.dropWhile p).drop (cs.takeWhile p).length := by rw [h]
    _ = cs.dropWhile p := List.drop_left

theorem takeWhile_line {body : List Char} (h : '\n' ∉ body) (rest : List Char) :
    (body ++ rest).takeWhile (fun c => decide (c ≠ '\n')) = body ++ rest.takeWhile fun c => decide (c ≠ '\n') :=
  List.takeWhile_append_of_pos fun _ hc => decide_eq_true (ne_of_mem_of_not_mem hc h)

theorem dropWhile_line {body : List Char} (h : '\n' ∉ body) (rest : List Char) :
    (body ++ rest).dropWhile (fun c => decide (c ≠ '\n')) = rest.dropWhile fun c => decide (c ≠ '\n') :=
  List.dropWhile_append_of_pos fun _ hc => decide_eq_true (ne_of_mem_of_not_mem hc h)

theorem lineCommentLength_last {body : List Char} (h : '\n' ∉ body) :
    lineCommentLength ('/' :: '/' :: body) = 2 + body.length := by
  have hbody := takeWhile_line h []
  rw [List.append_nil] at hbody
  rw [lineCommentLength, hbody]
  simp

theorem lineCommentLength_line {body : List Char} (h : '\n' ∉ body) (rest : List Char) :
    lineCommentLength ('/' :: '/' :: (body ++ '\n' :: rest)) = 3 + body.length := by
  rw [lineCommentLength, takeWhile_line h]
  simp

/-- A character that begins no escape. -/
theorem ne_backslash {c : Char} {cs : List Char} (hlast : c = '\\' → cs = [] → False)
    (hescape : ∀ d ds, c = '\\' → cs = d :: ds → False) : c ≠ '\\' := by
  rintro rfl
  cases cs with
  | nil => exact hlast rfl rfl
  | cons d ds => exact hescape d ds rfl rfl

/-- The text behind its first `n` characters, if that are any. -/
def behind (n : Nat) (cs : List Char) : Option (List Char) := if n = 0 then none else some (cs.drop n)

namespace Rule

open Pattern

variable (cs : List Char)

theorem behind_takeWhile (p : Char → Bool) : behind (cs.takeWhile p).length cs =
    if cs.takeWhile p = [] then none else some (cs.dropWhile p) := by
  rw [behind, drop_takeWhile_length]
  simp [List.length_eq_zero_iff]

theorem rest?_fixed {spelling : List Char} (kind : Kind) (h : spelling ≠ []) :
    (fixed spelling kind).pattern.rest? cs = behind ((fixed spelling kind).length cs) cs := by
  rw [pattern, rest?_literal, length]
  split
  · rw [behind, if_neg (by simpa using h)]
  · rfl

theorem rest?_word : word.pattern.rest? cs = behind (word.length cs) cs := by
  cases cs with
  | nil => rfl
  | cons c cs =>
    rw [pattern, rest?_seq_one_cons, rest?_many_one, length, wordLength]
    split
    · rw [behind, if_neg (by omega), Nat.add_comm, List.drop_succ_cons, drop_takeWhile_length]
    · rfl

theorem rest?_hexadecimal : hexadecimal.pattern.rest? cs = behind (hexadecimal.length cs) cs := by
  rw [pattern, length]
  unfold hexLength
  split
  next x cs =>
    rw [rest?_seq_one_cons, rest?_seq_one_cons, rest?_some_one]
    by_cases hx : (x == 'x' || x == 'X') = true
    · by_cases hdigits : cs.takeWhile isHexDigit = []
      · simp [hx, hdigits, behind]
      · simp [hx, hdigits, behind, Nat.add_comm 2, drop_takeWhile_length]
    · simp [hx, behind]
  next h =>
    match cs with
    | [] => rfl
    | [c] =>
      rw [rest?_seq_one_cons, rest?_seq_one_nil, ite_self]
      rfl
    | c :: x :: cs =>
      have hc : c ≠ '0' := fun hc => h x cs (by rw [hc])
      simp [rest?_seq_one_cons, hc, behind]

theorem rest?_enclosed_cons (opening closing c : Char) : (pattern.enclosed opening closing).rest? (c :: cs) =
    let path := cs.takeWhile fun d => d ≠ closing && d ≠ '\n'
    if c = opening ∧ path ≠ [] ∧ (cs.drop path.length).head? = Option.some closing then
      Option.some (cs.drop (path.length + 1)) else none := by
  have hpath : ∀ x cs, (decide (x ≠ closing) && decide (x ≠ '\n')) = true →
      (one (· == closing)).rest? (x :: cs) = none := by
    intro x cs hx
    have hne : x ≠ closing := (by simpa using hx : x ≠ closing ∧ _).1
    simp [rest?_one_cons, hne]
  dsimp only
  rw [pattern.enclosed, rest?_seq_one_cons, rest?_seq_some_one hpath, ← List.drop_drop, drop_takeWhile_length]
  generalize cs.takeWhile (fun d => decide (d ≠ closing) && decide (d ≠ '\n')) = path
  generalize cs.dropWhile (fun d => decide (d ≠ closing) && decide (d ≠ '\n')) = ds
  cases ds with
  | nil => simp [rest?_one_nil]
  | cons d ds =>
    by_cases hc : c = opening <;> by_cases hp : path = [] <;> by_cases hd : d = closing <;>
      simp [hc, hp, hd, rest?_one_cons]

/-- A directive whose delimiters are not blank. -/
theorem rest?_include {opening closing : Char} (hopening : Text.isBlank opening = false) :
    (seq (literal includeWord) (seq (many (one Text.isBlank)) (pattern.enclosed opening closing))).rest? cs =
      behind (includeLength opening closing cs) cs := by
  have hblank : ∀ x cs, Text.isBlank x = true → (pattern.enclosed opening closing).rest? (x :: cs) = none := by
    intro x cs hx
    have hne : x ≠ opening := by
      rintro rfl
      rw [hopening] at hx
      cases hx
    rw [rest?_enclosed_cons]
    simp [hne]
  rw [rest?_seq_literal, includeLength]
  split
  · dsimp only
    rw [rest?_seq_many_one hblank, drop_takeWhile_length]
    split
    next c ds hds =>
      have hbehind : cs.drop (includeWord.length + ((cs.drop includeWord.length).takeWhile Text.isBlank).length) =
          c :: ds := by
        rw [← List.drop_drop, drop_takeWhile_length, hds]
      rw [hds, rest?_enclosed_cons]
      generalize ds.takeWhile (fun d => decide (d ≠ closing) && decide (d ≠ '\n')) = path
      by_cases hfound : c = opening ∧ path ≠ [] ∧ (ds.drop path.length).head? = Option.some closing
      · have hlength : (decide (c = opening) && decide (path.length ≠ 0) &&
            decide ((ds.drop path.length).head? = Option.some closing)) = true := by
          simpa [and_assoc] using hfound
        have hend : cs.drop (includeWord.length + ((cs.drop includeWord.length).takeWhile Text.isBlank).length +
            path.length + 2) = ds.drop (path.length + 1) := by
          rw [Nat.add_assoc, ← List.drop_drop, hbehind]
          rfl
        rw [if_pos hfound, if_pos hlength, behind, if_neg (by omega), hend]
      · have hlength : ¬ (decide (c = opening) && decide (path.length ≠ 0) &&
            decide ((ds.drop path.length).head? = Option.some closing)) = true := by
          simpa [and_assoc] using hfound
        rw [if_neg hfound, if_neg hlength]
        rfl
    next hds => rw [hds]; rfl
  · rfl

theorem rests_written_escape (quote c : Char) :
    (pattern.written quote).rests ('\\' :: c :: cs) = if c = '\n' then [] else [cs] := by
  by_cases hc : c = '\n' <;> simp [pattern.written, rests, hc]

theorem rests_written_plain {quote c : Char} (hc : c ≠ '\\') :
    (pattern.written quote).rests (c :: cs) = if c = quote ∨ c = '\n' then [] else [cs] := by
  by_cases hq : c = quote <;> by_cases hn : c = '\n' <;> simp_all [pattern.written, rests]

theorem rest?_stringTail :
    (seq (many (pattern.written '"')) (one (· == '"'))).rest? cs = (stringTail? cs).map cs.drop := by
  fun_induction stringTail? cs with
  | case1 => rfl
  | case2 cs => rw [rest?_seq_many]; rfl
  | case3 => rw [rest?_seq_many]; rfl
  | case4 cs => rw [rest?_seq_many]; rfl
  | case5 c cs hc ih =>
    have hlt : cs.length < cs.length + 1 + 1 := by omega
    rw [rest?_seq_many, rests_written_escape, if_neg hc]
    simp [rest?_one_cons, hlt, ih, Option.map_map, Function.comp_def]
  | case6 cs => rw [rest?_seq_many]; rfl
  | case7 c cs hquote hlast hescape hc ih =>
    have hquote : c ≠ '"' := hquote
    rw [rest?_seq_many, rests_written_plain _ (ne_backslash hlast hescape), if_neg (by simp [hquote, hc])]
    simp [rest?_one_cons, hquote, ih, Option.map_map, Function.comp_def]

theorem rest?_string : string.pattern.rest? cs = behind (string.length cs) cs := by
  rw [pattern, length]
  unfold stringLength
  split
  next cs =>
    rw [rest?_seq_one_cons, rest?_stringTail]
    cases stringTail? cs with
    | none => rfl
    | some n => rfl
  next h =>
    cases cs with
    | nil => rfl
    | cons c cs =>
      have hc : c ≠ '"' := fun hc => h cs (by rw [hc])
      simp [rest?_seq_one_cons, hc, behind]

theorem rest?_seq_written_escape (quote c : Char) {b : Pattern} :
    (seq (pattern.written quote) b).rest? ('\\' :: c :: cs) = if c = '\n' then none else b.rest? cs := by
  rw [rest?_seq, rests_written_escape]
  split <;> simp

theorem rest?_seq_written_plain {quote c : Char} {b : Pattern} (hc : c ≠ '\\') :
    (seq (pattern.written quote) b).rest? (c :: cs) = if c = quote ∨ c = '\n' then none else b.rest? cs := by
  rw [rest?_seq, rests_written_plain _ hc]
  split <;> simp

theorem rest?_byteEscape_none (h : ∀ a b cs', cs = '\\' :: 'x' :: a :: b :: '\'' :: cs' → False) :
    (seq (seq (one (· == '\\')) (seq (one (· == 'x')) (seq (one isHexDigit) (one isHexDigit))))
      (one (· == '\''))).rest? cs = none := by
  match cs with
  | [] | [_] | [_, _] | [_, _, _] | [_, _, _, _] => simp
  | c :: d :: a :: b :: e :: cs =>
    by_cases hc : c = '\\'
    · by_cases hd : d = 'x'
      · have he : e ≠ '\'' := fun he => h a b cs (by rw [hc, hd, he])
        simp [he]
      · simp [hd]
    · simp [hc]

theorem rest?_written_none (hescape : ∀ c cs', cs = '\\' :: c :: '\'' :: cs' → False)
    (hplain : ∀ c cs', cs = c :: '\'' :: cs' → False) :
    (seq (pattern.written '\'') (one (· == '\''))).rest? cs = none := by
  match cs with
  | [] => rfl
  | [c] =>
    by_cases hc : c = '\\'
    · subst hc
      rfl
    · simp [rest?_seq_written_plain _ hc]
  | c :: d :: cs =>
    have hd : d ≠ '\'' := fun hd => hplain c cs (by rw [hd])
    by_cases hc : c = '\\'
    · subst hc
      have hthird : (one (· == '\'')).rest? cs = none := by
        cases cs with
        | nil => rfl
        | cons e cs =>
          have he : e ≠ '\'' := fun he => hescape d cs (by rw [he])
          simp [he]
      simp [rest?_seq_written_escape, hthird]
    · simp [rest?_seq_written_plain _ hc, hd]

theorem rest?_literalChar : (seq (alt (seq (one (· == '\\')) (seq (one (· == 'x')) (seq (one isHexDigit)
    (one isHexDigit)))) (pattern.written '\'')) (one (· == '\''))).rest? cs =
      if literalCharLength cs = 0 then none else Option.some (cs.drop (literalCharLength cs + 1)) := by
  have hquote : isHexDigit '\'' = false := by decide
  rw [rest?_seq_alt]
  unfold literalCharLength
  split
  next a b cs =>
    by_cases ha : a = '\''
    · subst ha
      simp [rest?_seq_written_escape, hquote]
    · by_cases hhex : (isHexDigit a && isHexDigit b) = true
      · have := Bool.and_eq_true_iff.1 hhex
        simp [this]
      · have hnot : ¬ (isHexDigit a = true ∧ isHexDigit b = true) := fun h => hhex (Bool.and_eq_true_iff.2 h)
        rw [if_neg hhex, if_neg ha, if_pos rfl]
        simpa [rest?_seq_written_escape, ha] using hnot
  next c cs h =>
    by_cases hc : c = '\n'
    · simp [hc, rest?_seq_written_escape]
    · simp [hc, rest?_seq_written_escape, hquote]
  next c cs h =>
    by_cases hc : c = '\\'
    · subst hc
      cases cs with
      | nil => simp [rest?_seq_written_escape]
      | cons d cs =>
        have hd : d ≠ '\'' := fun hd => h cs rfl (by rw [hd])
        simp [rest?_seq_written_escape, hd]
    · by_cases hq : c = '\'' <;> by_cases hn : c = '\n' <;> simp [rest?_seq_written_plain, hc, hq, hn]
  next hhex hescape hplain =>
    rw [if_pos rfl, Option.or_eq_none_iff]
    exact ⟨rest?_byteEscape_none _ hhex, rest?_written_none _ hescape hplain⟩

theorem rest?_char : char.pattern.rest? cs = behind (char.length cs) cs := by
  rw [pattern, length]
  unfold charLength
  split
  next cs =>
    rw [rest?_seq_one_cons, if_pos (beq_self_eq_true _), rest?_literalChar]
    split
    next h => rfl
    next h => rfl
  next h =>
    cases cs with
    | nil => rfl
    | cons c cs =>
      have hc : c ≠ '\'' := fun hc => h cs (by rw [hc])
      simp [hc, behind]

theorem rest?_lineComment : lineComment.pattern.rest? cs = behind (lineComment.length cs) cs := by
  have hline : ∀ x cs, decide (x ≠ '\n') = true → (alt (one (· == '\n')) ending).rest? (x :: cs) = none := by
    intro x cs hx
    have hx : x ≠ '\n' := by simpa using hx
    simp only [rest?_alt, rest?_one_cons, beq_eq_false_iff_ne.2 hx]
    rfl
  rw [pattern, rest?_seq_literal, length]
  split
  next h =>
    obtain ⟨ds, rfl⟩ := List.isPrefixOf_iff_prefix.1 h
    rw [List.drop_left, rest?_seq_many_one hline]
    by_cases hlast : '\n' ∈ ds
    · obtain ⟨body, rest, rfl, hbody⟩ := List.eq_append_cons_of_mem hlast
      have hdrop : ('/' :: '/' :: (body ++ '\n' :: rest)).drop (3 + body.length) = rest := by
        rw [show 3 + body.length = body.length + 1 + 1 + 1 by omega]
        simp
      have hrest := dropWhile_line hbody ('\n' :: rest)
      rw [List.cons_append, List.cons_append, List.nil_append, lineCommentLength_line hbody, behind,
        if_neg (by omega), hdrop, hrest]
      rfl
    · have hdrop : ('/' :: '/' :: ds).drop (2 + ds.length) = [] := List.drop_eq_nil_of_le (by simp; omega)
      have hrest := dropWhile_line hlast []
      rw [List.append_nil] at hrest
      rw [List.cons_append, List.cons_append, List.nil_append, lineCommentLength_last hlast, behind,
        if_neg (by omega), hdrop, hrest]
      rfl
  next h =>
    unfold lineCommentLength
    split
    next ds => exact absurd (by simp) h
    next => rfl

theorem rest?_blockCommentTail : (seq (few (one fun _ => true)) (literal ['*', '/'])).rest? cs =
    (blockCommentTail? cs).map cs.drop := by
  fun_induction blockCommentTail? cs with
  | case1 => rfl
  | case2 cs => rw [rest?_seq_few]; rfl
  | case3 c cs h ih =>
    have hnot : (['*', '/'].isPrefixOf (c :: cs)) = false := by
      rw [Bool.eq_false_iff, Ne, List.isPrefixOf_iff_prefix]
      rintro ⟨ds, hds⟩
      cases hds
      exact h ds rfl rfl
    rw [rest?_seq_few, filter_rests_one_cons, rest?_literal, hnot]
    simp [ih, Option.map_map, Function.comp_def]

theorem rest?_blockComment : blockComment.pattern.rest? cs = behind (blockComment.length cs) cs := by
  rw [pattern, length]
  unfold blockCommentLength
  split
  next cs =>
    have hmarks : ('/' :: '*' :: cs).drop ['/', '*'].length = cs := rfl
    rw [rest?_seq_literal, if_pos (by simp), hmarks, rest?_blockCommentTail]
    cases blockCommentTail? cs with
    | none => rfl
    | some n => rfl
  next h =>
    rw [rest?_seq_literal, if_neg]
    · rfl
    · rw [List.isPrefixOf_iff_prefix]
      rintro ⟨ds, hds⟩
      exact h ds hds.symm

theorem rest?_any : any.pattern.rest? cs = behind (any.length cs) cs := by
  cases cs <;> rfl

/-- How the tokens of a rule are spelled if all are spelled alike. -/
def spelling? : Rule → Option (List Char)
  | fixed spelling _ => Option.some spelling
  | _ => none

theorem spelling_ne_nil : ∀ rule ∈ table, ∀ spelling ∈ rule.spelling?, spelling ≠ [] := by decide

/-- A rule of the table finds what its pattern matches. -/
theorem rest?_pattern {rule : Rule} (h : rule ∈ table) : rule.pattern.rest? cs = behind (rule.length cs) cs := by
  cases rule with
  | fixed spelling kind =>
    exact rest?_fixed cs kind (spelling_ne_nil _ h spelling rfl)
  | blanks => rw [pattern, rest?_some_one, length, behind_takeWhile]
  | includeSearched => exact rest?_include cs (by decide)
  | includeQuoted => exact rest?_include cs (by decide)
  | word => exact rest?_word cs
  | decimal => rw [pattern, rest?_some_one, length, behind_takeWhile]
  | hexadecimal => exact rest?_hexadecimal cs
  | string => exact rest?_string cs
  | char => exact rest?_char cs
  | lineComment => exact rest?_lineComment cs
  | blockComment => exact rest?_blockComment cs
  | any => exact rest?_any cs

end Rule
end TapeC.Token
