import Mathlib.Data.List.Infix
import TapeC.Proofs.Pattern

/-! The lexemes that rules can find. A lexeme that a rule has found in one text is found by it, or is the
beginning of what is found, wherever else a text begins with it. -/

namespace TapeC.Token

/-! ### Characters -/

theorem isWordPart_of_isWordStart {c : Char} (h : isWordStart c = true) : isWordPart c = true := by
  simp only [isWordStart, isWordPart, Char.isAlphanum, Bool.or_eq_true] at h ⊢
  tauto

theorem isWordPart_of_isDigit {c : Char} (h : c.isDigit = true) : isWordPart c = true := by
  simp [isWordPart, Char.isAlphanum, h]

theorem isWordStart_range {c : Char} (h : isWordStart c = true) : 65 ≤ c.toNat ∧ c.toNat ≤ 122 := by
  change ((decide (c.val ≥ 'A'.val ∧ c.val ≤ 'Z'.val) || (decide (c.val ≥ 'a'.val) && decide (c.val ≤ 'z'.val))) ||
    c == '_') = true at h
  simp only [Bool.or_eq_true, Bool.and_eq_true, decide_eq_true_eq, beq_iff_eq] at h
  obtain (⟨hfirst, hlast⟩ | ⟨hfirst, hlast⟩) | rfl := h
  · have hfirst : 65 ≤ c.toNat := hfirst
    have hlast : c.toNat ≤ 90 := hlast
    omega
  · have hfirst : 97 ≤ c.toNat := hfirst
    have hlast : c.toNat ≤ 122 := hlast
    omega
  · decide

theorem isDigit_range {c : Char} (h : c.isDigit = true) : 48 ≤ c.toNat ∧ c.toNat ≤ 57 := by
  rw [Char.isDigit, Bool.and_eq_true, decide_eq_true_eq, decide_eq_true_eq] at h
  exact h

theorem isWordPart_range {c : Char} (h : isWordPart c = true) : 48 ≤ c.toNat ∧ c.toNat ≤ 122 := by
  have hcases : isWordStart c = true ∨ c.isDigit = true := by
    simp only [isWordStart, isWordPart, Char.isAlphanum, Bool.or_eq_true] at h ⊢
    tauto
  obtain h | h := hcases
  · have := isWordStart_range h
    omega
  · have := isDigit_range h
    omega

theorem isBlank_of_isWordPart {c : Char} (h : isWordPart c = true) : Text.isBlank c = false := by
  have := isWordPart_range h
  simp [Text.isBlank, Text.blankRanges]
  omega

theorem isBlank_of_isHexDigit {c : Char} (h : isHexDigit c = true) : Text.isBlank c = false := by
  have hrange : 48 ≤ c.toNat ∧ c.toNat ≤ 102 := by
    unfold isHexDigit Text.Escaped.digitValue? at h
    split at h
    next hc => exact ⟨hc.1, Nat.le_trans (show c.toNat ≤ 57 from hc.2) (by decide)⟩
    split at h
    next hc => exact ⟨Nat.le_trans (by decide) (show 97 ≤ c.toNat from hc.1), hc.2⟩
    split at h
    next hc =>
      have hlast : c.toNat ≤ 70 := hc.2
      exact ⟨Nat.le_trans (by decide) (show 65 ≤ c.toNat from hc.1), Nat.le_trans hlast (by decide)⟩
    cases h
  simp [Text.isBlank, Text.blankRanges]
  omega

theorem isDigit_of_isWordStart {c : Char} (h : isWordStart c = true) : c.isDigit = false := by
  have hstart := isWordStart_range h
  by_contra hdigit
  have := isDigit_range (Bool.of_not_eq_false hdigit)
  omega

/-! ### Ends that are searched -/

variable {cs tail rest : List Char} {n : Nat}

theorem stringTail?_plain {c : Char} (hquote : c ≠ '"') (hbackslash : c ≠ '\\') :
    stringTail? (c :: cs) = if c = '\n' then none else (stringTail? cs).map (· + 1) :=
  stringTail?.eq_5 _ _ hquote (fun h _ => hbackslash h) (fun _ _ h _ => hbackslash h)

theorem stringTail?_split (h : stringTail? cs = some n) :
    ∃ tail rest, cs = tail ++ rest ∧ tail.length = n ∧ stringTail? tail = some n := by
  fun_induction stringTail? cs generalizing n with
  | case1 => cases h
  | case2 cs =>
    cases h
    exact ⟨['"'], cs, rfl, rfl, rfl⟩
  | case3 => cases h
  | case4 cs => cases h
  | case5 c cs hc ih =>
    obtain ⟨n, hn, rfl⟩ := Option.map_eq_some_iff.1 h
    obtain ⟨tail, rest, rfl, hlength, htail⟩ := ih hn
    refine ⟨'\\' :: c :: tail, rest, rfl, by simp [hlength], ?_⟩
    rw [stringTail?, if_neg hc, htail]
    rfl
  | case6 cs => cases h
  | case7 c cs hquote hlast hescape hc ih =>
    obtain ⟨n, hn, rfl⟩ := Option.map_eq_some_iff.1 h
    obtain ⟨tail, rest, rfl, hlength, htail⟩ := ih hn
    refine ⟨c :: tail, rest, rfl, by simp [hlength], ?_⟩
    rw [stringTail?_plain hquote (ne_backslash hlast hescape), if_neg hc, htail]
    rfl

theorem stringTail?_append (h : stringTail? tail = some n) (rest : List Char) :
    stringTail? (tail ++ rest) = some n := by
  fun_induction stringTail? tail generalizing n with
  | case1 => cases h
  | case2 cs => exact h
  | case3 => cases h
  | case4 cs => cases h
  | case5 c cs hc ih =>
    obtain ⟨n, hn, rfl⟩ := Option.map_eq_some_iff.1 h
    rw [List.cons_append, List.cons_append, stringTail?, if_neg hc, ih hn]
    rfl
  | case6 cs => cases h
  | case7 c cs hquote hlast hescape hc ih =>
    obtain ⟨n, hn, rfl⟩ := Option.map_eq_some_iff.1 h
    rw [List.cons_append, stringTail?_plain hquote (ne_backslash hlast hescape), if_neg hc, ih hn]
    rfl

theorem blockCommentTail?_split (h : blockCommentTail? cs = some n) :
    ∃ tail rest, cs = tail ++ rest ∧ tail.length = n ∧ blockCommentTail? tail = some n := by
  fun_induction blockCommentTail? cs generalizing n with
  | case1 => cases h
  | case2 cs =>
    cases h
    exact ⟨['*', '/'], cs, rfl, rfl, rfl⟩
  | case3 c cs hclose ih =>
    obtain ⟨n, hn, rfl⟩ := Option.map_eq_some_iff.1 h
    obtain ⟨tail, rest, rfl, hlength, htail⟩ := ih hn
    refine ⟨c :: tail, rest, rfl, by simp [hlength], ?_⟩
    rw [blockCommentTail?, htail]
    · rfl
    · rintro ds rfl rfl
      exact hclose _ rfl rfl

theorem blockCommentTail?_append (h : blockCommentTail? tail = some n) (rest : List Char) :
    blockCommentTail? (tail ++ rest) = some n := by
  fun_induction blockCommentTail? tail generalizing n with
  | case1 => cases h
  | case2 cs => exact h
  | case3 c cs hclose ih =>
    obtain ⟨n, hn, rfl⟩ := Option.map_eq_some_iff.1 h
    rw [List.cons_append, blockCommentTail?, ih hn]
    · rfl
    · rintro ds rfl hds
      cases cs with
      | nil => cases hn
      | cons d cs =>
        cases hds
        exact hclose _ rfl rfl

theorem blockCommentTail?_shape (h : blockCommentTail? cs = some n) :
    ∃ body rest, cs = body ++ '*' :: '/' :: rest ∧ n = body.length + 2 ∧ ¬ ['*', '/'] <:+: body := by
  fun_induction blockCommentTail? cs generalizing n with
  | case1 => cases h
  | case2 cs =>
    cases h
    exact ⟨[], cs, rfl, rfl, by simp⟩
  | case3 c cs hclose ih =>
    obtain ⟨n, hn, rfl⟩ := Option.map_eq_some_iff.1 h
    obtain ⟨body, rest, rfl, rfl, hinside⟩ := ih hn
    refine ⟨c :: body, rest, rfl, rfl, fun hinfix => ?_⟩
    obtain hprefix | hinfix := List.infix_cons_iff.1 hinfix
    · obtain ⟨more, hmore⟩ := hprefix
      cases hmore
      exact hclose (more ++ '*' :: '/' :: rest) rfl rfl
    · exact hinside hinfix

/-! ### What the rules look for -/

/-- An include directive from its word to the delimiter that closes the path. -/
def Directive (opening closing : Char) (lexeme : List Char) : Prop :=
  ∃ blanks path, lexeme = includeWord ++ (blanks ++ opening :: (path ++ [closing])) ∧
    (∀ c ∈ blanks, Text.isBlank c = true) ∧ path ≠ [] ∧ ∀ c ∈ path, c ≠ closing ∧ c ≠ '\n'

/-- What may stand between the quotes of a character literal. -/
inductive CharBody : List Char → Prop where
  | hex {a b : Char} (ha : isHexDigit a = true) (hb : isHexDigit b = true) : CharBody ['\\', 'x', a, b]
  | escape {c : Char} (h : c ≠ '\n') : CharBody ['\\', c]
  | plain {c : Char} (hquote : c ≠ '\'') (hbackslash : c ≠ '\\') (hline : c ≠ '\n') : CharBody [c]

namespace Rule

/-- The lexemes of a rule. -/
def Spells : Rule → List Char → Prop
  | fixed spelling _, lexeme => lexeme = spelling
  | blanks, lexeme => ∀ c ∈ lexeme, Text.isBlank c = true
  | includeSearched, lexeme => Directive '<' '>' lexeme
  | includeQuoted, lexeme => Directive '"' '"' lexeme
  | word, lexeme => ∃ c cs, lexeme = c :: cs ∧ isWordStart c = true ∧ ∀ d ∈ cs, isWordPart d = true
  | decimal, lexeme => ∀ c ∈ lexeme, c.isDigit = true
  | hexadecimal, lexeme => ∃ x digits, lexeme = '0' :: x :: digits ∧ (x = 'x' ∨ x = 'X') ∧ digits ≠ [] ∧
      ∀ c ∈ digits, isHexDigit c = true
  | string, lexeme => ∃ tail, lexeme = '"' :: tail ∧ stringTail? tail = some tail.length
  | char, lexeme => ∃ body, lexeme = '\'' :: (body ++ ['\'']) ∧ CharBody body
  | lineComment, lexeme => ∃ body, '\n' ∉ body ∧
      (lexeme = '/' :: '/' :: body ∨ lexeme = '/' :: '/' :: (body ++ ['\n']))
  | blockComment, lexeme => ∃ tail, lexeme = '/' :: '*' :: tail ∧ blockCommentTail? tail = some tail.length
  | any, lexeme => ∃ c, lexeme = [c]

variable {cs lexeme rest : List Char}

/-- A bracketed comment ends where it first can. -/
theorem blockComment_shape (h : blockComment.Spells lexeme) :
    ∃ body, lexeme = '/' :: '*' :: (body ++ ['*', '/']) ∧ ¬ ['*', '/'] <:+: body := by
  obtain ⟨tail, rfl, htail⟩ := h
  obtain ⟨body, more, rfl, hlength, hinside⟩ := blockCommentTail?_shape htail
  obtain rfl : more = [] := by simpa using hlength
  exact ⟨body, rfl, hinside⟩

/-- A lexeme of a rule at the beginning of a text, as long as what the rule finds. -/
def Finds (rule : Rule) (cs : List Char) : Prop :=
  ∃ lexeme rest, cs = lexeme ++ rest ∧ lexeme.length = rule.length cs ∧ rule.Spells lexeme

theorem finds_of_takeWhile {rule : Rule} {p : Char → Bool} (hlength : rule.length cs = (cs.takeWhile p).length)
    (h : rule.Spells (cs.takeWhile p)) : rule.Finds cs :=
  ⟨_, _, List.takeWhile_append_dropWhile.symm, hlength.symm, h⟩

theorem mem_takeWhile {p : Char → Bool} : ∀ c ∈ cs.takeWhile p, p c = true := fun _ => List.mem_takeWhile_imp

theorem finds_fixed {spelling : List Char} {kind : Kind} (h : 0 < (fixed spelling kind).length cs) :
    (fixed spelling kind).Finds cs := by
  rw [length] at h
  split at h
  next hprefix =>
    obtain ⟨rest, rfl⟩ := List.isPrefixOf_iff_prefix.1 hprefix
    exact ⟨spelling, rest, rfl, by rw [length, if_pos hprefix], rfl⟩
  next => cases h

theorem finds_word (h : 0 < word.length cs) : word.Finds cs := by
  rw [length] at h
  cases cs with
  | nil => cases h
  | cons c cs =>
    rw [wordLength] at h
    split at h
    next hc =>
      refine ⟨c :: cs.takeWhile isWordPart, cs.dropWhile isWordPart, ?_, ?_, c, _, rfl, hc, mem_takeWhile⟩
      · rw [List.cons_append, List.takeWhile_append_dropWhile]
      · rw [length, wordLength, if_pos hc, List.length_cons, Nat.add_comm]
    next => cases h

theorem finds_hexadecimal (h : 0 < hexadecimal.length cs) : hexadecimal.Finds cs := by
  have hlength : hexadecimal.length cs = hexLength cs := rfl
  unfold hexLength at hlength
  split at hlength
  next x cs =>
    dsimp only at hlength
    split at hlength
    next hx =>
      have hx : (x = 'x' ∨ x = 'X') ∧ cs.takeWhile isHexDigit ≠ [] := by simpa using hx
      refine ⟨'0' :: x :: cs.takeWhile isHexDigit, cs.dropWhile isHexDigit, ?_, ?_, x, _, rfl, hx.1, hx.2,
        mem_takeWhile⟩
      · rw [List.cons_append, List.cons_append, List.takeWhile_append_dropWhile]
      · rw [hlength, List.length_cons, List.length_cons]
        omega
    next => omega
  next => omega

theorem finds_string (h : 0 < string.length cs) : string.Finds cs := by
  have hlength : string.length cs = stringLength cs := rfl
  unfold stringLength at hlength
  split at hlength
  next cs =>
    cases htail : stringTail? cs with
    | none =>
      rw [htail] at hlength
      exact absurd h (hlength ▸ Nat.lt_irrefl 0)
    | some n =>
      obtain ⟨tail, rest, rfl, hn, htail'⟩ := stringTail?_split htail
      rw [htail] at hlength
      refine ⟨'"' :: tail, rest, rfl, ?_, tail, rfl, hn ▸ htail'⟩
      rw [hlength, List.length_cons, hn]
      rfl
  next => omega

theorem finds_blockComment (h : 0 < blockComment.length cs) : blockComment.Finds cs := by
  have hlength : blockComment.length cs = blockCommentLength cs := rfl
  unfold blockCommentLength at hlength
  split at hlength
  next cs =>
    cases htail : blockCommentTail? cs with
    | none =>
      rw [htail] at hlength
      exact absurd h (hlength ▸ Nat.lt_irrefl 0)
    | some n =>
      obtain ⟨tail, rest, rfl, hn, htail'⟩ := blockCommentTail?_split htail
      rw [htail] at hlength
      refine ⟨'/' :: '*' :: tail, rest, rfl, ?_, tail, rfl, hn ▸ htail'⟩
      rw [hlength, List.length_cons, List.length_cons, hn]
      rfl
  next => omega

theorem exists_charBody (h : literalCharLength cs ≠ 0) :
    ∃ body rest, cs = body ++ '\'' :: rest ∧ body.length = literalCharLength cs ∧ CharBody body := by
  unfold literalCharLength at h ⊢
  split at h
  next a b cs =>
    split at h
    next hhex =>
      have hhex := Bool.and_eq_true_iff.1 hhex
      exact ⟨['\\', 'x', a, b], cs, rfl, by simp [hhex], .hex hhex.1 hhex.2⟩
    next hhex =>
      split at h
      next ha =>
        subst ha
        exact ⟨['\\', 'x'], b :: '\'' :: cs, rfl, by simp [hhex], .escape (by decide)⟩
      next => exact absurd rfl h
  next c cs hnot =>
    split at h
    next => exact absurd rfl h
    next hc => exact ⟨['\\', c], cs, rfl, by simp [hc], .escape hc⟩
  next c cs hnot =>
    split at h
    next => exact absurd rfl h
    next hc =>
      have hplain : (c ≠ '\'' ∧ c ≠ '\\') ∧ c ≠ '\n' := by simpa using hc
      exact ⟨[c], cs, rfl, by simp [hc], .plain hplain.1.1 hplain.1.2 hplain.2⟩
  next => exact absurd rfl h

theorem finds_char (h : 0 < char.length cs) : char.Finds cs := by
  have hlength : char.length cs = charLength cs := rfl
  unfold charLength at hlength
  split at hlength
  next cs =>
    split at hlength
    next => omega
    next hne =>
      obtain ⟨body, rest, hcs, hbody, hspells⟩ := exists_charBody hne
      refine ⟨'\'' :: (body ++ ['\'']), rest, by simp [hcs], ?_, body, rfl, hspells⟩
      rw [hlength, ← hbody]
      simp
  next => omega

theorem finds_lineComment (h : 0 < lineComment.length cs) : lineComment.Finds cs := by
  have hmarks : ∃ ds, cs = '/' :: '/' :: ds := by
    rw [length] at h
    unfold lineCommentLength at h
    split at h
    next ds => exact ⟨ds, rfl⟩
    next => cases h
  obtain ⟨ds, rfl⟩ := hmarks
  by_cases hlast : '\n' ∈ ds
  · obtain ⟨body, rest, rfl, hbody⟩ := List.eq_append_cons_of_mem hlast
    refine ⟨'/' :: '/' :: (body ++ ['\n']), rest, by simp, ?_, body, hbody, .inr rfl⟩
    rw [length, lineCommentLength_line hbody]
    simp
    omega
  · refine ⟨'/' :: '/' :: ds, [], by simp, ?_, ds, hlast, .inl rfl⟩
    rw [length, lineCommentLength_last hlast]
    simp
    omega

/-- A directive is found whatever follows it. -/
theorem includeLength_directive {opening closing : Char} (hopening : Text.isBlank opening = false)
    (h : Directive opening closing lexeme) (rest : List Char) :
    includeLength opening closing (lexeme ++ rest) = lexeme.length := by
  obtain ⟨blanks, path, rfl, hblanks, hpath, hinside⟩ := h
  have hword : includeWord.isPrefixOf (includeWord ++ (blanks ++ opening :: (path ++ closing :: rest))) = true :=
    List.isPrefixOf_iff_prefix.2 (List.prefix_append _ _)
  have hbehind : (blanks ++ opening :: (path ++ closing :: rest)).takeWhile Text.isBlank = blanks := by
    rw [List.takeWhile_append_of_pos hblanks]
    simp [hopening]
  have hfound : (path ++ closing :: rest).takeWhile (fun d => d ≠ closing && d ≠ '\n') = path := by
    rw [List.takeWhile_append_of_pos (by simpa using hinside)]
    simp
  have hne : path.length ≠ 0 := by simpa using hpath
  have hlexeme : includeWord ++ (blanks ++ opening :: (path ++ [closing])) ++ rest =
      includeWord ++ (blanks ++ opening :: (path ++ closing :: rest)) := by simp
  rw [hlexeme, includeLength, if_pos hword]
  dsimp only
  rw [List.drop_left, hbehind, List.drop_left]
  dsimp only
  rw [hfound, List.drop_left]
  simp [hne]
  omega

/-- The parts of a text at whose beginning a class of characters ends. -/
theorem exists_takeWhile {p : Char → Bool} {d : Char} {ds : List Char} (h : cs.dropWhile p = d :: ds) :
    ∃ run, cs.takeWhile p = run ∧ cs = run ++ d :: ds ∧ ∀ c ∈ run, p c = true :=
  ⟨_, rfl, by rw [← h, List.takeWhile_append_dropWhile], mem_takeWhile⟩

theorem finds_include {opening closing : Char} (hopening : Text.isBlank opening = false)
    (h : 0 < includeLength opening closing cs) :
    ∃ lexeme rest, cs = lexeme ++ rest ∧ lexeme.length = includeLength opening closing cs ∧
      Directive opening closing lexeme := by
  have hshape : ∃ lexeme rest, cs = lexeme ++ rest ∧ Directive opening closing lexeme := by
    rw [includeLength] at h
    split at h
    next hprefix =>
      obtain ⟨ds, rfl⟩ := List.isPrefixOf_iff_prefix.1 hprefix
      dsimp only at h
      rw [List.drop_left, drop_takeWhile_length] at h
      split at h
      next c es hes =>
        split at h
        next hfound =>
          rw [drop_takeWhile_length] at hfound
          simp only [Bool.and_eq_true, decide_eq_true_eq, Ne, List.length_eq_zero_iff] at hfound
          obtain ⟨⟨rfl, hne⟩, hclosing⟩ := hfound
          obtain ⟨rest, hrest⟩ := List.head?_eq_some_iff.1 hclosing
          obtain ⟨blanks, -, rfl, hblanks⟩ := exists_takeWhile hes
          obtain ⟨path, hpath, rfl, hinside⟩ := exists_takeWhile hrest
          rw [hpath] at hne
          refine ⟨_, rest, ?_, blanks, path, rfl, hblanks, hne, fun d hd => by simpa using hinside d hd⟩
          simp
        next => cases h
      next => cases h
    next => cases h
  obtain ⟨lexeme, rest, rfl, hdirective⟩ := hshape
  exact ⟨lexeme, rest, rfl, (includeLength_directive hopening hdirective rest).symm, hdirective⟩

/-- What a rule finds is one of its lexemes. -/
theorem finds {rule : Rule} (h : 0 < rule.length cs) : rule.Finds cs := by
  cases rule with
  | fixed spelling kind => exact finds_fixed h
  | blanks => exact finds_of_takeWhile rfl mem_takeWhile
  | includeSearched => exact finds_include (by decide) h
  | includeQuoted => exact finds_include (by decide) h
  | word => exact finds_word h
  | decimal => exact finds_of_takeWhile rfl mem_takeWhile
  | hexadecimal => exact finds_hexadecimal h
  | string => exact finds_string h
  | char => exact finds_char h
  | lineComment => exact finds_lineComment h
  | blockComment => exact finds_blockComment h
  | any =>
    cases cs with
    | nil => cases h
    | cons c cs => exact ⟨[c], cs, rfl, rfl, c, rfl⟩

/-! ### Finding a lexeme again -/

theorem length_string (h : string.Spells lexeme) (rest : List Char) :
    string.length (lexeme ++ rest) = lexeme.length := by
  obtain ⟨tail, rfl, htail⟩ := h
  rw [length, List.cons_append, stringLength, stringTail?_append htail]
  rfl

theorem length_blockComment (h : blockComment.Spells lexeme) (rest : List Char) :
    blockComment.length (lexeme ++ rest) = lexeme.length := by
  obtain ⟨tail, rfl, htail⟩ := h
  rw [length, List.cons_append, List.cons_append, blockCommentLength, blockCommentTail?_append htail]
  rfl

theorem literalCharLength_body {body : List Char} (h : CharBody body) (rest : List Char) :
    literalCharLength (body ++ '\'' :: rest) = body.length := by
  have hquote : isHexDigit '\'' = false := by decide
  cases h with
  | hex ha hb => simp [literalCharLength, ha, hb]
  | @escape c hc =>
    change literalCharLength ('\\' :: c :: '\'' :: rest) = 2
    unfold literalCharLength
    split
    next a b cs heq =>
      obtain ⟨rfl, rfl, rfl⟩ : c = 'x' ∧ '\'' = a ∧ rest = b :: '\'' :: cs := by simpa using heq
      simp [hquote]
    next d cs hnot heq =>
      obtain ⟨rfl, -⟩ : c = d ∧ rest = cs := by simpa using heq
      exact if_neg hc
    next hescape heq =>
      injection heq with hslash heq
      injection heq with _ htail
      exact (hescape _ hslash.symm htail.symm).elim
    next hescape hplain => exact (hescape _ _ rfl).elim
  | @plain c hquote hbackslash hline =>
    change literalCharLength (c :: '\'' :: rest) = 1
    unfold literalCharLength
    split
    next heq => exact absurd (List.cons.inj heq).1 hbackslash
    next heq => exact absurd (List.cons.inj heq).1 hbackslash
    next heq =>
      injection heq with hc
      exact if_neg (by simp [← hc, hquote, hbackslash, hline])
    next hplain => exact (hplain _ _ rfl).elim

theorem length_char (h : char.Spells lexeme) (rest : List Char) : char.length (lexeme ++ rest) = lexeme.length := by
  obtain ⟨body, rfl, hbody⟩ := h
  have hlexeme : '\'' :: (body ++ ['\'']) ++ rest = '\'' :: (body ++ '\'' :: rest) := by simp
  have hne : body.length ≠ 0 := by cases hbody <;> simp
  rw [hlexeme, length, charLength, literalCharLength_body hbody, if_neg hne]
  simp

/-- A rule finds its lexemes, or longer ones, wherever they stand. -/
theorem length_of_spells {rule : Rule} (h : rule.Spells lexeme) (rest : List Char) :
    lexeme.length ≤ rule.length (lexeme ++ rest) := by
  cases rule with
  | fixed spelling kind =>
    rw [h, length, if_pos (List.isPrefixOf_iff_prefix.2 (List.prefix_append _ _))]
  | blanks =>
    rw [length, List.takeWhile_append_of_pos h, List.length_append]
    omega
  | includeSearched => exact (includeLength_directive (by decide) h rest).ge
  | includeQuoted => exact (includeLength_directive (by decide) h rest).ge
  | word =>
    obtain ⟨c, cs, rfl, hc, hcs⟩ := h
    rw [length, List.cons_append, wordLength, if_pos hc, List.takeWhile_append_of_pos hcs]
    simp
    omega
  | decimal =>
    rw [length, List.takeWhile_append_of_pos h, List.length_append]
    omega
  | hexadecimal =>
    obtain ⟨x, digits, rfl, hx, hne, hdigits⟩ := h
    rw [length, List.cons_append, List.cons_append, hexLength, List.takeWhile_append_of_pos hdigits]
    simp [hx, hne]
    omega
  | string => exact (length_string h rest).ge
  | char => exact (length_char h rest).ge
  | lineComment =>
    obtain ⟨body, hbody, rfl | rfl⟩ := h
    · rw [length, List.cons_append, List.cons_append, lineCommentLength, takeWhile_line hbody]
      simp
      split <;> omega
    · have hlexeme : '/' :: '/' :: (body ++ ['\n']) ++ rest = '/' :: '/' :: (body ++ '\n' :: rest) := by simp
      rw [hlexeme, length, lineCommentLength_line hbody]
      simp
      omega
  | blockComment => exact (length_blockComment h rest).ge
  | any =>
    obtain ⟨c, rfl⟩ := h
    exact Nat.le_refl 1

variable {rule : Rule}

theorem length_le (rule : Rule) (cs : List Char) : rule.length cs ≤ cs.length := by
  obtain h | h := Nat.eq_zero_or_pos (rule.length cs)
  · omega
  · obtain ⟨lexeme, rest, rfl, hlength, -⟩ := finds h
    simp [← hlength]

/-- A text is a lexeme if it is found, whatever follows. -/
theorem spells_of_length_append (hne : cs ≠ []) (h : rule.length (cs ++ rest) = cs.length) : rule.Spells cs := by
  obtain ⟨lexeme, rest', heq, hlength, hspells⟩ := finds (h ▸ List.length_pos_of_ne_nil hne)
  obtain ⟨rfl, -⟩ := List.append_inj heq.symm (hlength.trans h)
  exact hspells

theorem spells_of_length (hne : cs ≠ []) (h : rule.length cs = cs.length) : rule.Spells cs :=
  spells_of_length_append hne (show rule.length (cs ++ []) = _ by rwa [List.append_nil])

/-- What a rule finds in the first part of a text it finds there whatever follows. -/
theorem length_le_append (h : rule.length (cs ++ tail) ≤ cs.length) (tail' : List Char) :
    rule.length (cs ++ tail) ≤ rule.length (cs ++ tail') := by
  obtain hzero | hpos := Nat.eq_zero_or_pos (rule.length (cs ++ tail))
  · omega
  obtain ⟨lexeme, rest, heq, hlength, hspells⟩ := finds hpos
  obtain ⟨more, rfl⟩ : lexeme <+: cs :=
    List.prefix_of_prefix_length_le ⟨rest, heq.symm⟩ (List.prefix_append _ tail) (by omega)
  rw [← hlength, List.append_assoc]
  exact length_of_spells hspells _

/-! ### First characters -/

/-- Lexemes of the rule may begin with the character. -/
def starts : Rule → Char → Bool
  | fixed spelling _, c => spelling.head? = some c
  | blanks, c => Text.isBlank c
  | includeSearched, c | includeQuoted, c => c = '#'
  | word, c => isWordStart c
  | decimal, c => c.isDigit
  | hexadecimal, c => c = '0'
  | string, c => c = '"'
  | char, c => c = '\''
  | lineComment, c | blockComment, c => c = '/'
  | any, _ => true

theorem starts_of_spells {c : Char} (h : rule.Spells (c :: cs)) : rule.starts c = true := by
  cases rule with
  | fixed spelling kind => simp [starts, ← show c :: cs = spelling from h]
  | blanks => exact h c List.mem_cons_self
  | includeSearched | includeQuoted =>
    obtain ⟨blanks, path, heq, -⟩ := h
    cases heq
    rfl
  | word =>
    obtain ⟨d, ds, heq, hd, -⟩ := h
    cases heq
    exact hd
  | decimal => exact h c List.mem_cons_self
  | hexadecimal =>
    obtain ⟨x, digits, heq, -⟩ := h
    cases heq
    rfl
  | string =>
    obtain ⟨tail, heq, -⟩ := h
    cases heq
    rfl
  | char =>
    obtain ⟨body, heq, -⟩ := h
    cases heq
    rfl
  | lineComment =>
    obtain ⟨body, -, heq | heq⟩ := h <;> cases heq <;> rfl
  | blockComment =>
    obtain ⟨tail, heq, -⟩ := h
    cases heq
    rfl
  | any => rfl

/-! ### Rules of the table -/

theorem spelling_not_blank (rule : Rule) (hmem : rule ∈ table) :
    ∀ spelling ∈ rule.spelling?, ∀ c ∈ spelling, Text.isBlank c = false := by
  have hall : ∀ rule ∈ table, ∀ spelling ∈ rule.spelling?, spelling.all (!Text.isBlank ·) = true := by decide
  intro spelling hspelling c hc
  simpa using List.all_eq_true.1 (hall rule hmem spelling hspelling) c hc

/-- The rules with lexemes in which there are blanks. -/
theorem spells_blank {c : Char} (hmem : rule ∈ table) (h : rule.Spells lexeme) (hc : c ∈ lexeme)
    (hblank : Text.isBlank c = true) :
    rule ∈ [blanks, includeSearched, includeQuoted, string, char, lineComment, blockComment, any] := by
  rw [← Bool.not_eq_false] at hblank
  cases rule with
  | blanks | includeSearched | includeQuoted | string | char | lineComment | blockComment | any => decide
  | fixed spelling kind => exact absurd (spelling_not_blank _ hmem spelling rfl c (h ▸ hc)) hblank
  | word =>
    obtain ⟨d, ds, rfl, hd, hds⟩ := h
    have hword : isWordPart c = true := by
      obtain rfl | hc := List.mem_cons.1 hc
      exacts [isWordPart_of_isWordStart hd, hds c hc]
    exact absurd (isBlank_of_isWordPart hword) hblank
  | decimal => exact absurd (isBlank_of_isWordPart (isWordPart_of_isDigit (h c hc))) hblank
  | hexadecimal =>
    obtain ⟨x, digits, rfl, hx, -, hdigits⟩ := h
    obtain rfl | hc := List.mem_cons.1 hc
    · exact absurd rfl hblank
    obtain rfl | hc := List.mem_cons.1 hc
    · obtain rfl | rfl := hx <;> exact absurd rfl hblank
    · exact absurd (isBlank_of_isHexDigit (hdigits c hc)) hblank

/-- Only a run of blanks begins with a blank. -/
theorem starts_blank {c : Char} (hmem : rule ∈ table) (h : rule.starts c = true) (hc : Text.isBlank c = true) :
    rule = blanks ∨ rule = any := by
  have hpart : isWordPart c = false := by
    by_contra hpart
    rw [isBlank_of_isWordPart (Bool.of_not_eq_false hpart)] at hc
    cases hc
  cases rule with
  | fixed spelling kind =>
    have hhead : spelling.head? = some c := by simpa [starts] using h
    rw [spelling_not_blank _ hmem spelling rfl c (List.mem_of_mem_head? hhead)] at hc
    cases hc
  | blanks => exact .inl rfl
  | word =>
    rw [isWordPart_of_isWordStart h] at hpart
    cases hpart
  | decimal =>
    rw [isWordPart_of_isDigit h] at hpart
    cases hpart
  | any => exact .inr rfl
  | includeSearched | includeQuoted | hexadecimal | string | char | lineComment | blockComment =>
    obtain rfl := of_decide_eq_true h
    exact absurd hc (by decide)

theorem starts_directive : ∀ rule ∈ table, rule.starts '#' → rule ∈ [includeSearched, includeQuoted, any] := by
  decide

theorem starts_string : ∀ rule ∈ table, rule.starts '"' → rule ∈ [string, any] := by decide

theorem starts_char : ∀ rule ∈ table, rule.starts '\'' → rule ∈ [char, any] := by decide

theorem starts_comment : ∀ rule ∈ table, rule.starts '/' → rule ∈ [fixed ['/'] (.symbol .slash),
    fixed ['/', '/'] (.symbol .slashSlash), fixed ['/', '='] (.compound (.symbol .slash)), lineComment, blockComment,
    any] := by decide

/-! ### What lexemes become -/

/-- What the lexemes of a rule become, apart from their values. -/
inductive Makes : Rule → Option Kind → Prop where
  | fixed {spelling kind} : Makes (fixed spelling kind) (some kind)
  | blanks : Makes blanks none
  | includeSearched {path} : Makes includeSearched (some (.include path false))
  | includeQuoted {path} : Makes includeQuoted (some (.include path true))
  | word {name} : Makes word (some (.identifier name))
  | decimal {value} : Makes decimal (some (.number value))
  | hexadecimal {value} : Makes hexadecimal (some (.number value))
  | string {text} : Makes string (some (.string text))
  | char {code} : Makes char (some (.char code))
  | lineComment : Makes lineComment none
  | blockComment : Makes blockComment none

variable {kind : Option Kind}

theorem exists_number {base : Nat} {digits : List Char} (h : some <$> numberKind base digits = .ok kind) :
    ∃ n, kind = some (.number n) := by
  unfold numberKind at h
  dsimp only at h
  split at h
  · cases h
    exact ⟨_, rfl⟩
  · cases h

theorem makes (h : rule.kind? lexeme = .ok kind) : rule.Makes kind := by
  cases rule with
  | fixed => cases h; exact .fixed
  | blanks => cases h; exact .blanks
  | includeSearched => cases h; exact .includeSearched
  | includeQuoted => cases h; exact .includeQuoted
  | word => cases h; exact .word
  | decimal =>
    obtain ⟨n, rfl⟩ := exists_number h
    exact .decimal
  | hexadecimal =>
    obtain ⟨n, rfl⟩ := exists_number h
    exact .hexadecimal
  | string =>
    rw [kind?] at h
    cases hbody : literalBody lexeme with
    | error fault => rw [hbody] at h; cases h
    | ok body => rw [hbody] at h; cases h; exact .string
  | char =>
    rw [kind?, charKind] at h
    cases hbody : literalBody lexeme with
    | error fault => rw [hbody] at h; cases h
    | ok body =>
      rw [hbody] at h
      dsimp only [bind, Except.bind] at h
      split at h <;> cases h
      exact .char
  | lineComment => cases h; exact .lineComment
  | blockComment => cases h; exact .blockComment
  | any => cases h

end Rule
end TapeC.Token
