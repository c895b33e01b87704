import TapeC.Proofs.Tiling

/-! String literals with escapes. The decoder reads every escape that a literal may hold. Besides these it takes
a plus sign for the first digit of a byte, and one digit for a byte at the end of a literal. -/

namespace TapeC

namespace Text.Escaped

/-! ### Escapes and what they stand for -/

/-- The escapes of one letter, with the characters they stand for. -/
def letters : List (Char × Char) :=
  [('n', '\n'), ('t', '\t'), ('r', '\r'), ('0', '\x00'), ('\\', '\\'), ('\'', '\''), ('"', '"')]

/-- The escapes of a literal. What comes after one does not matter. -/
inductive Escape : (escape after : List Char) → Char → Prop where
  | letter {after c d} (h : (c, d) ∈ letters) : Escape ['\\', c] after d
  | byte {after a b m n} (ha : digitValue? a = some m) (hb : digitValue? b = some n) :
      Escape ['\\', 'x', a, b] after (Char.ofNat (16 * m + n))

/-- What is no escape but is taken for one: a plus sign and a digit, and one digit with nothing after it. -/
inductive Loose : (escape after : List Char) → Char → Prop where
  | signed {after b n} (hb : digitValue? b = some n) : Loose ['\\', 'x', '+', b] after (Char.ofNat n)
  | last {a m} (ha : digitValue? a = some m) : Loose ['\\', 'x', a] [] (Char.ofNat m)

def Accepted (escape after : List Char) (c : Char) : Prop := Escape escape after c ∨ Loose escape after c

/-- The body of a literal denotes the text in which each of its escapes is replaced by what it stands for and
everything else is kept. -/
inductive Denotes (E : (escape after : List Char) → Char → Prop) : (body text : List Char) → Prop where
  | nil : Denotes E [] []
  | plain {c body text} (hc : c ≠ '\\') (h : Denotes E body text) : Denotes E (c :: body) (c :: text)
  | escape {escape c body text} (hc : E escape body c) (h : Denotes E body text) :
      Denotes E (escape ++ body) (c :: text)

/-- Somewhere in the body, behind escapes and other characters, stands what is only taken for an escape. -/
def HasLoose (body : List Char) : Prop :=
  ∃ front escape after c, body = front ++ (escape ++ after) ∧ (∃ text, Denotes Escape front text) ∧
    Loose escape after c

variable {E E' : (escape after : List Char) → Char → Prop} {body text e after : List Char}
  {c d a b : Char} {n : Nat}

theorem Denotes.mono (h : Denotes E body text) (hE : ∀ e after c, E e after c → E' e after c) :
    Denotes E' body text := by
  induction h with
  | nil => exact .nil
  | plain hc _ ih => exact .plain hc ih
  | escape hc _ ih => exact .escape (hE _ _ _ hc) ih

/-! ### What the decoder reads -/

theorem simple?_eq_some_iff : simple? c = some d ↔ (c, d) ∈ letters := by
  constructor
  · intro h
    unfold simple? at h
    split at h <;> cases h <;> decide
  · have hall : ∀ entry ∈ letters, simple? entry.1 = some entry.2 := by decide
    exact fun h => hall (c, d) h

theorem hexByte?_pair : hexByte? [a, b] = some n ↔
    (a = '+' ∧ digitValue? b = some n) ∨ ∃ m k, digitValue? a = some m ∧ digitValue? b = some k ∧ 16 * m + k = n := by
  have hplus : digitValue? '+' = none := by decide
  by_cases ha : a = '+'
  · subst ha
    simp [hexByte?, hplus]
  · rw [hexByte?]
    · simp [ha, Option.bind_eq_some_iff]
    · exact fun h => ha h

theorem decode_plain (hc : c ≠ '\\') (body : List Char) :
    decode (c :: body) = do return c :: (← decode body) := by
  rw [decode] <;> simp_all

theorem decode_letter (h : simple? c = some d) (body : List Char) :
    decode ('\\' :: c :: body) = do return d :: (← decode body) := by
  have hx : c ≠ 'x' := by
    rintro rfl
    cases h
  rw [decode, h] <;> simp_all

theorem decode_byte (h : hexByte? [a, b] = some n) (body : List Char) :
    decode ('\\' :: 'x' :: a :: b :: body) = do return Char.ofNat n :: (← decode body) := by
  rw [decode, h]

theorem decode_accepted (h : Accepted e body c) (htext : decode body = .ok text) :
    decode (e ++ body) = .ok (c :: text) := by
  obtain h | h := h
  · cases h with
    | letter hletter => exact (decode_letter (simple?_eq_some_iff.2 hletter) body).trans (by rw [htext]; rfl)
    | byte ha hb => exact (decode_byte (hexByte?_pair.2 (.inr ⟨_, _, ha, hb, rfl⟩)) body).trans (by rw [htext]; rfl)
  · cases h with
    | signed hb => exact (decode_byte (hexByte?_pair.2 (.inl ⟨rfl, hb⟩)) body).trans (by rw [htext]; rfl)
    | last ha =>
      cases htext
      rw [List.append_nil, decode, hexByte?, ha]
      simp

theorem decode_of_denotes (h : Denotes Accepted body text) : decode body = .ok text := by
  induction h with
  | nil => rfl
  | plain hc _ ih => rw [decode_plain hc, ih]; rfl
  | escape hc _ ih => exact decode_accepted hc ih

theorem exists_of_decode_cons {x : Char} (h : (do return x :: (← decode body)) = Except.ok text) :
    ∃ more, decode body = .ok more ∧ text = x :: more := by
  cases hbody : decode body with
  | error fault => rw [hbody] at h; cases h
  | ok more =>
    rw [hbody] at h
    cases h
    exact ⟨more, rfl, rfl⟩

theorem denotes_of_decode (h : decode body = .ok text) : Denotes Accepted body text := by
  fun_induction decode body generalizing text with
  | case1 =>
    cases h
    exact .nil
  | case2 => cases h
  | case3 a b body n hbyte ih =>
    obtain ⟨more, hmore, rfl⟩ := exists_of_decode_cons h
    have hescape : Accepted ['\\', 'x', a, b] body (Char.ofNat n) := by
      obtain ⟨rfl, hb⟩ | ⟨m, k, ha, hb, rfl⟩ := hexByte?_pair.1 hbyte
      · exact .inr (.signed hb)
      · exact .inl (.byte ha hb)
    exact .escape hescape (ih hmore)
  | case4 => cases h
  | case5 short hshort n hbyte =>
    -- Two characters and more are read by the branch before, none are no byte.
    cases h
    match short, hshort, hbyte with
    | [a], _, hbyte =>
      have hescape : Accepted ['\\', 'x', a] [] (Char.ofNat n) := .inr (.last hbyte)
      exact .escape hescape .nil
    | a :: b :: more, hshort, _ => exact (hshort a b more rfl).elim
  | case6 => cases h
  | case7 c body hx hshort d hletter ih =>
    obtain ⟨more, hmore, rfl⟩ := exists_of_decode_cons h
    have hescape : Accepted ['\\', c] body d := .inl (.letter (simple?_eq_some_iff.1 hletter))
    exact .escape hescape (ih hmore)
  | case8 => cases h
  | case9 c body hlast hx hshort hescape ih =>
    obtain ⟨more, hmore, rfl⟩ := exists_of_decode_cons h
    exact .plain (Token.ne_backslash hlast hescape) (ih hmore)

theorem decode_eq_ok_iff : decode body = .ok text ↔ Denotes Accepted body text :=
  ⟨denotes_of_decode, decode_of_denotes⟩

/-! ### Bodies without what is only taken for an escape -/

theorem letters_ne_x : ∀ entry ∈ letters, entry.1 ≠ 'x' := by decide

namespace Escape

variable {e' after' x y : List Char}

theorem anywhere (h : Escape e after c) (after' : List Char) : Escape e after' c := by
  cases h with
  | letter h => exact .letter h
  | byte ha hb => exact .byte ha hb

theorem head_eq (h : Escape e after c) : e.head? = some '\\' := by
  cases h <;> rfl

theorem eq_of_append (h : Escape e after c) (h' : Escape e' after' d) (heq : e ++ x = e' ++ y) :
    x = y := by
  cases h with
  | letter h =>
    cases h' with
    | letter => simpa using (List.cons.inj (List.cons.inj heq).2).2
    | byte => exact (letters_ne_x _ h (List.cons.inj (List.cons.inj heq).2).1).elim
  | byte ha hb =>
    cases h' with
    | letter h' => exact (letters_ne_x _ h' (List.cons.inj (List.cons.inj heq).2).1.symm).elim
    | byte => simp_all

theorem append_ne_of_loose (h : Escape e after c) (h' : Loose e' after' d) :
    e ++ x ≠ e' ++ after' := by
  intro heq
  cases h with
  | letter h =>
    refine letters_ne_x _ h ?_
    cases h' <;> exact (List.cons.inj (List.cons.inj heq).2).1
  | @byte _ a b m n ha hb =>
    cases h' with
    | signed =>
      have hplus : digitValue? '+' = none := by decide
      obtain ⟨rfl, -⟩ : a = '+' ∧ _ := List.cons.inj (List.cons.inj (List.cons.inj heq).2).2
      exact absurd (hplus.symm.trans ha) (by simp)
    | last => simp at heq

end Escape

theorem HasLoose.plain (hc : c ≠ '\\') (h : HasLoose body) : HasLoose (c :: body) := by
  obtain ⟨front, loose, after, d, rfl, ⟨text, hfront⟩, hloose⟩ := h
  exact ⟨c :: front, loose, after, d, rfl, ⟨c :: text, .plain hc hfront⟩, hloose⟩

theorem HasLoose.escape (hc : Escape e body c) (h : HasLoose body) : HasLoose (e ++ body) := by
  obtain ⟨front, loose, after, d, rfl, ⟨text, hfront⟩, hloose⟩ := h
  exact ⟨e ++ front, loose, after, d, (List.append_assoc _ _ _).symm,
    ⟨c :: text, .escape (hc.anywhere front) hfront⟩, hloose⟩

theorem hasLoose_of_loose (h : Loose e after c) : HasLoose (e ++ after) :=
  ⟨[], e, after, c, rfl, ⟨[], .nil⟩, h⟩

/-- Where nothing is only taken for an escape, the decoder reads escapes alone. -/
theorem denotes_of_not_hasLoose (h : Denotes Accepted body text) (hloose : ¬ HasLoose body) :
    Denotes Escape body text := by
  induction h with
  | nil => exact .nil
  | plain hc _ ih => exact .plain hc (ih fun h => hloose (h.plain hc))
  | escape hc _ ih =>
    obtain hc | hc := hc
    · exact .escape hc (ih fun h => hloose (h.escape hc))
    · exact (hloose (hasLoose_of_loose hc)).elim

theorem exists_of_denotes_plain (hc : c ≠ '\\') (h : Denotes Escape (c :: body) text) :
    ∃ more, Denotes Escape body more := by
  generalize hwhole : c :: body = whole at h
  cases h with
  | nil => cases hwhole
  | plain _ h =>
    cases hwhole
    exact ⟨_, h⟩
  | escape hd _ =>
    have hhead := congrArg List.head? hwhole
    rw [List.head?_append, hd.head_eq] at hhead
    exact absurd (Option.some.inj hhead) hc

theorem exists_of_denotes_escape (hc : Escape e after c) (h : Denotes Escape (e ++ body) text) :
    ∃ more, Denotes Escape body more := by
  generalize hwhole : e ++ body = whole at h
  cases h with
  | nil =>
    have := hc.head_eq
    simp_all
  | plain hd h =>
    have hhead := congrArg List.head? hwhole
    rw [List.head?_append, hc.head_eq] at hhead
    exact absurd (Option.some.inj hhead).symm hd
  | escape hd h =>
    obtain rfl := hc.eq_of_append hd hwhole
    exact ⟨_, h⟩

theorem Loose.not_denotes (hc : Loose e after c) : ¬ Denotes Escape (e ++ after) text := by
  intro h
  generalize hwhole : e ++ after = whole at h
  cases h with
  | nil => cases hc <;> cases hwhole
  | plain hd h => cases hc <;> cases hwhole <;> exact hd rfl
  | escape hd h => exact hd.append_ne_of_loose hc hwhole.symm

theorem HasLoose.not_denotes (h : HasLoose body) : ¬ Denotes Escape body text := by
  obtain ⟨front, loose, after, c, rfl, ⟨shown, hfront⟩, hloose⟩ := h
  -- Escapes are read alike wherever they stand, so that the reading of the body cannot step over `loose`.
  induction hfront generalizing text with
  | nil => exact hloose.not_denotes
  | plain hd _ ih =>
    intro h
    obtain ⟨more, hmore⟩ := exists_of_denotes_plain hd h
    exact ih hmore
  | escape hd _ ih =>
    intro h
    rw [List.append_assoc] at h
    obtain ⟨more, hmore⟩ := exists_of_denotes_escape hd h
    exact ih hmore

/-! ### Texts written in escapes -/

/-- A hexadecimal digit, in either case. -/
def hexDigit (upper : Bool) (n : Nat) : Char := if upper then n.digitChar.toUpper else n.digitChar

/-- A character, written as an escape if it fits in a byte. -/
def byteEscapedChar (upper : Bool) (c : Char) : List Char :=
  if c.toNat < 256 then ['\\', 'x', hexDigit upper (c.toNat / 16), hexDigit upper (c.toNat % 16)] else [c]

def byteEscaped (upper : Bool) (text : List Char) : List Char := text.flatMap (byteEscapedChar upper)

theorem digitValue?_hexDigit : ∀ upper, ∀ n < 16, digitValue? (hexDigit upper n) = some n := by decide

theorem hexDigit_plain : ∀ upper, ∀ n < 16, hexDigit upper n ∉ ['"', '\\', '\n'] := by decide

theorem denotes_byteEscaped (upper : Bool) (text : List Char) : Denotes Escape (byteEscaped upper text) text := by
  induction text with
  | nil => exact .nil
  | cons c text ih =>
    rw [byteEscaped, List.flatMap_cons, byteEscapedChar]
    split
    next hc =>
      have hfirst := digitValue?_hexDigit upper (c.toNat / 16) (by omega)
      have hsecond := digitValue?_hexDigit upper (c.toNat % 16) (by omega)
      have hescape := @Escape.byte (byteEscaped upper text) _ _ _ _ hfirst hsecond
      rw [Nat.div_add_mod, Char.ofNat_toNat] at hescape
      exact .escape hescape ih
    next hc =>
      refine .plain ?_ ih
      rintro rfl
      exact hc (by decide)

end Text.Escaped

namespace Token

open Text.Escaped

/-! ### String literals -/

variable {literal body rest text tail : List Char} {p : Position}

theorem eq_append_quote (h : stringTail? tail = some tail.length) : ∃ body, tail = body ++ ['"'] := by
  fun_induction stringTail? tail with
  | case1 => cases h
  | case2 cs =>
    obtain rfl : cs = [] := by simpa using h
    exact ⟨[], rfl⟩
  | case3 => cases h
  | case4 => cases h
  | case5 c cs hc ih =>
    obtain ⟨n, hn, hlength⟩ := Option.map_eq_some_iff.1 h
    obtain ⟨body, rfl⟩ := ih (by simp_all)
    exact ⟨'\\' :: c :: body, rfl⟩
  | case6 => cases h
  | case7 c cs _ _ _ hc ih =>
    obtain ⟨n, hn, hlength⟩ := Option.map_eq_some_iff.1 h
    obtain ⟨body, rfl⟩ := ih (by simp_all)
    exact ⟨c :: body, rfl⟩

theorem stringTail?_byteEscaped (upper : Bool) (text : List Char) :
    stringTail? (byteEscaped upper text ++ ['"']) = some (byteEscaped upper text ++ ['"']).length := by
  have hplain : ∀ c, c ∉ ['"', '\\', '\n'] → ∀ cs, stringTail? (c :: cs) = (stringTail? cs).map (· + 1) := by
    intro c hc cs
    simp only [List.mem_cons, List.not_mem_nil, or_false, not_or] at hc
    rw [stringTail?_plain hc.1 hc.2.1, if_neg hc.2.2]
  induction text with
  | nil => rfl
  | cons c text ih =>
    rw [byteEscaped, List.flatMap_cons, List.append_assoc, ← byteEscaped, byteEscapedChar]
    split
    next hc =>
      have hfirst := hexDigit_plain upper (c.toNat / 16) (by omega)
      have hsecond := hexDigit_plain upper (c.toNat % 16) (by omega)
      rw [List.cons_append, List.cons_append, stringTail?, if_neg (by decide), List.cons_append, hplain _ hfirst,
        List.cons_append, hplain _ hsecond, List.nil_append, ih]
      rfl
    next hc =>
      have hne : c ∉ ['"', '\\', '\n'] := by
        intro hmem
        simp only [List.mem_cons, List.not_mem_nil, or_false] at hmem
        obtain rfl | rfl | rfl := hmem <;> exact hc (by decide)
      rw [List.cons_append, hplain _ hne, List.nil_append, ih]
      rfl

namespace Rule

theorem string_matches_iff : string.Matches literal rest ↔ string.Spells literal := by
  rw [matches_iff (by decide)]
  constructor
  · rintro ⟨hne, hlength⟩
    exact spells_of_length_append hne hlength
  · intro h
    refine ⟨?_, length_string h rest⟩
    obtain ⟨tail, rfl, -⟩ := h
    exact List.cons_ne_nil _ _

theorem string_shape (h : string.Spells literal) : ∃ body, literal = '"' :: (body ++ ['"']) := by
  obtain ⟨tail, rfl, htail⟩ := h
  obtain ⟨body, rfl⟩ := eq_append_quote htail
  exact ⟨body, rfl⟩

/-- No other rule finds anything at the beginning of a string literal, except a single character. -/
theorem wins_string (h : string.Spells literal) (rest : List Char) : string.Wins literal rest := by
  have hlength := length_string h rest
  obtain ⟨body, rfl⟩ := string_shape h
  obtain ⟨rule, lexeme, more, heq, hwins⟩ := exists_wins (List.cons_ne_nil '"' (body ++ ['"'] ++ rest))
  obtain ⟨c, cs, rfl⟩ := List.exists_cons_of_ne_nil hwins.ne_nil
  obtain ⟨rfl, -⟩ := List.cons.inj heq
  have hrule := starts_string rule hwins.mem (starts_of_spells hwins.spells)
  simp only [List.mem_cons, List.not_mem_nil, or_false] at hrule
  obtain rfl | rfl := hrule
  · have hsame := hlength.symm.trans ((congrArg string.length heq).trans hwins.finds)
    obtain ⟨hlexeme, rfl⟩ := List.append_inj heq hsame
    exact hlexeme ▸ hwins
  · obtain ⟨d, hd⟩ := hwins.spells
    have hle := hwins.length_le (show string ∈ table by decide)
    rw [← heq, hd] at hle
    have hlong := hlength.symm.trans_le hle
    simp at hlong

end Rule

/-- What the scanner makes of a string literal at `p` whose body denotes a text by the given escapes: a token with
that text, and a refusal at `p` if there is none. -/
structure Scanned (E : (escape after : List Char) → Char → Prop) (p : Position) (literal body rest : List Char) :
    Prop where
  accepted_iff : (∃ tokens, scanFrom p literal = .ok tokens) ↔ ∃ text, Denotes E body text
  token : ∀ text, Denotes E body text → scanFrom p (literal ++ rest) = (scanFrom (p.after literal) rest).map
    (⟨.string (String.ofList text), String.ofList literal, p⟩ :: ·)
  refused : (¬ ∃ text, Denotes E body text) → ∃ fault, scanFrom p (literal ++ rest) = .error (p, .escape fault)

theorem literalBody_quoted (body : List Char) :
    literalBody ('"' :: (body ++ ['"'])) = (decode body).mapError .escape := by
  simp [literalBody]

theorem scanFrom_string (h : Rule.string.Spells ('"' :: (body ++ ['"']))) (hbody : decode body = .ok text)
    (p : Position) (rest : List Char) :
    scanFrom p ('"' :: (body ++ ['"']) ++ rest) = (scanFrom (p.after ('"' :: (body ++ ['"']))) rest).map
      (⟨.string (String.ofList text), String.ofList ('"' :: (body ++ ['"'])), p⟩ :: ·) := by
  rw [scanFrom_append p (Rule.wins_string h rest), Rule.kind?, literalBody_quoted, hbody]
  rfl

theorem scanFrom_string_error {fault : Text.Escaped.Fault} (h : Rule.string.Spells ('"' :: (body ++ ['"'])))
    (hbody : decode body = .error fault) (p : Position) (rest : List Char) :
    scanFrom p ('"' :: (body ++ ['"']) ++ rest) = .error (p, .escape fault) := by
  rw [scanFrom_append p (Rule.wins_string h rest), Rule.kind?, literalBody_quoted, hbody]
  rfl

theorem scanned_accepted (h : Rule.string.Spells ('"' :: (body ++ ['"']))) (p : Position) (rest : List Char) :
    Scanned Accepted p ('"' :: (body ++ ['"'])) body rest := by
  cases hbody : decode body with
  | error fault =>
    have hnot : ¬ ∃ text, Denotes Accepted body text := by
      rintro ⟨text, htext⟩
      cases hbody.symm.trans (decode_eq_ok_iff.2 htext)
    refine ⟨⟨?_, fun hdenotes => (hnot hdenotes).elim⟩, fun text htext => (hnot ⟨text, htext⟩).elim,
      fun _ => ⟨fault, scanFrom_string_error h hbody p rest⟩⟩
    rintro ⟨tokens, htokens⟩
    have herror := scanFrom_string_error h hbody p []
    rw [List.append_nil] at herror
    cases herror.symm.trans htokens
  | ok text =>
    have hdenotes : ∃ text, Denotes Accepted body text := ⟨text, decode_eq_ok_iff.1 hbody⟩
    refine ⟨⟨fun _ => hdenotes, fun _ => ?_⟩, fun text htext => scanFrom_string h (decode_eq_ok_iff.2 htext) p rest,
      fun hnot => (hnot hdenotes).elim⟩
    have hscan := scanFrom_string h hbody p []
    rw [List.append_nil, scanFrom_nil] at hscan
    exact ⟨_, hscan⟩

theorem scanned_escape_iff (h : Rule.string.Spells ('"' :: (body ++ ['"']))) (p : Position) (rest : List Char) :
    Scanned Escape p ('"' :: (body ++ ['"'])) body rest ↔
      ¬ (HasLoose body ∧ ∃ text, Denotes Accepted body text) := by
  have haccepted := scanned_accepted h p rest
  constructor
  · rintro hescape ⟨hloose, hdenotes⟩
    obtain ⟨text, htext⟩ := hescape.accepted_iff.1 (haccepted.accepted_iff.2 hdenotes)
    exact hloose.not_denotes htext
  · intro hnot
    have hsame : Denotes Escape body = Denotes Accepted body := by
      ext text
      refine ⟨fun htext => htext.mono fun _ _ _ => .inl, fun htext => denotes_of_not_hasLoose htext ?_⟩
      exact fun hloose => hnot ⟨hloose, text, htext⟩
    exact ⟨hsame ▸ haccepted.accepted_iff, hsame ▸ haccepted.token, hsame ▸ haccepted.refused⟩

/-- A string literal with its text written in escapes of bytes. -/
def quotedBytes (upper : Bool) (text : String) : List Char := '"' :: (byteEscaped upper text.toList ++ ['"'])

/-- A string literal is scanned by the escapes that the decoder accepts: into the text that it denotes by them, or
else it is refused at its place. The same holds of the escapes proper, unless the literal is accepted with
something in it that is only taken for an escape. A text written in escapes of bytes is scanned as itself. -/
theorem scan_string_literal (p : Position) (rest : List Char) :
    (∀ literal, Rule.string.Matches literal rest → ∃ body, literal = '"' :: (body ++ ['"']) ∧
      Scanned Accepted p literal body rest ∧
      (Scanned Escape p literal body rest ↔ ¬ (HasLoose body ∧ ∃ text, Denotes Accepted body text))) ∧
    ∀ upper text, Rule.string.Matches (quotedBytes upper text) rest ∧
      scanFrom p (quotedBytes upper text ++ rest) = (scanFrom (p.after (quotedBytes upper text)) rest).map
        (⟨.string text, String.ofList (quotedBytes upper text), p⟩ :: ·) := by
  constructor
  · intro literal h
    have hspells := Rule.string_matches_iff.1 h
    obtain ⟨body, rfl⟩ := Rule.string_shape hspells
    exact ⟨body, rfl, scanned_accepted hspells p rest, scanned_escape_iff hspells p rest⟩
  · intro upper text
    have hspells : Rule.string.Spells (quotedBytes upper text) := ⟨_, rfl, stringTail?_byteEscaped upper text.toList⟩
    have hdenotes : Denotes Accepted (byteEscaped upper text.toList) text.toList :=
      (denotes_byteEscaped upper text.toList).mono fun _ _ _ => .inl
    have hscan := scanFrom_string hspells (decode_eq_ok_iff.2 hdenotes) p rest
    rw [String.ofList_toList] at hscan
    exact ⟨Rule.string_matches_iff.2 hspells, hscan⟩

theorem scan_string_literal_tab : Rule.string.Matches ['"', 'a', '\\', 't', '"'] [';'] ∧
    ∃ body, ['"', 'a', '\\', 't', '"'] = '"' :: (body ++ ['"']) ∧
      Scanned Accepted .start ['"', 'a', '\\', 't', '"'] body [';'] ∧
      (Scanned Escape .start ['"', 'a', '\\', 't', '"'] body [';'] ↔
        ¬ (HasLoose body ∧ ∃ text, Denotes Accepted body text)) := by
  have hmatches : Rule.string.Matches ['"', 'a', '\\', 't', '"'] [';'] := by
    rw [Rule.Matches]
    decide +kernel
  exact ⟨hmatches, (scan_string_literal .start [';']).1 _ hmatches⟩

/-- A byte of one digit is accepted at the end of a literal. -/
theorem short_byte_accepted : ¬ ∀ (p : Position) (literal rest : List Char), Rule.string.Matches literal rest →
    ∃ body, literal = '"' :: (body ++ ['"']) ∧ Scanned Escape p literal body rest := by
  intro h
  have hmatches : Rule.string.Matches ['"', '\\', 'x', '4', '"'] [] := by
    rw [Rule.Matches]
    decide +kernel
  have hspells := Rule.string_matches_iff.1 hmatches
  obtain ⟨body, hbody, hscanned⟩ := h .start _ _ hmatches
  obtain rfl : body = ['\\', 'x', '4'] := by
    have heq := (List.cons.inj hbody).2
    exact (List.append_inj' (show ['\\', 'x', '4'] ++ ['"'] = body ++ ['"'] from heq) rfl).1.symm
  have hloose : Loose ['\\', 'x', '4'] [] '\x04' := .last (m := 4) (by decide)
  refine (scanned_escape_iff hspells .start []).1 hscanned ⟨hasLoose_of_loose hloose, ['\x04'], ?_⟩
  exact decode_eq_ok_iff.1 (by decide +kernel)

end Token

end TapeC
