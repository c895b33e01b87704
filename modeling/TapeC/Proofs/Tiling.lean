import Mathlib.Data.List.Infix
import TapeC.Proofs.Longest

/-! Scanning cuts a source text into stretches that follow one another without gaps: tokens, and blanks and
comments that are skipped. Each stretch is the longest match of the rules at its place. -/

namespace TapeC

namespace Position

/-- The place behind a text: its lines are counted by line feeds, its columns from the last of them. -/
def behind (text : List Char) : Position :=
  ⟨1 + text.count '\n', 1 + (text.reverse.takeWhile (· ≠ '\n')).length⟩

theorem after_start (text : List Char) : start.after text = behind text := by
  induction text using List.reverseRecOn with
  | nil => rfl
  | append_singleton text c ih =>
    rw [after_append, ih]
    by_cases hc : c = '\n'
    · simp [behind, after, next, hc]
      omega
    · simp [behind, after, next, hc]
      omega

end Position

namespace Token

/-! ### Stretches of a text -/

/-- A stretch of a source text. -/
inductive Part where
  | token (t : Token)
  | skipped (text : List Char)

namespace Part

def text : Part → List Char
  | token t => t.lexeme.toList
  | skipped text => text

def token? : Part → Option Token
  | token t => some t
  | skipped _ => none

/-- What kind of token it is. -/
def kind? (part : Part) : Option Kind := part.token?.map (·.kind)

/-- The text that parts make up. -/
def texts (parts : List Part) : List Char := parts.flatMap text

end Part

/-- Blanks or a comment, before `after`. -/
inductive Skippable : (text after : List Char) → Prop where
  | blanks {text after} (hne : text ≠ []) (h : ∀ c ∈ text, Text.isBlank c = true) : Skippable text after
  | line {body after} (h : '\n' ∉ body) : Skippable ('/' :: '/' :: (body ++ ['\n'])) after
  | lastLine {body} (h : '\n' ∉ body) : Skippable ('/' :: '/' :: body) []
  | block {body after} (h : ¬ ['*', '/'] <:+: body) : Skippable ('/' :: '*' :: (body ++ ['*', '/'])) after

namespace Rule

/-- A rule matches the lexeme of a text that goes on with the rest. -/
def Matches (rule : Rule) (lexeme rest : List Char) : Prop :=
  rule.pattern.rest? (lexeme ++ rest) = some rest

/-- The lexeme is the longest match of the table at its place and, of equally long ones, that of the earliest
rule. -/
def Chosen (rule : Rule) (lexeme rest : List Char) : Prop :=
  rule.Matches lexeme rest ∧ ∃ earlier later, table = earlier ++ rule :: later ∧
    (∀ other ∈ earlier, ∀ found more, found ++ more = lexeme ++ rest → other.Matches found more →
      found.length < lexeme.length) ∧
    ∀ other ∈ later, ∀ found more, found ++ more = lexeme ++ rest → other.Matches found more →
      found.length ≤ lexeme.length

end Rule

/-- A part stands rightly between the texts before and after it. -/
structure Part.Fits (before : List Char) (part : Part) (after : List Char) : Prop where
  chosen : ∃ rule : Rule, rule.Chosen part.text after ∧ rule.kind? part.text = .ok part.kind?
  position : ∀ t ∈ part.token?, t.position = .behind before
  skippable : part.token? = none → Skippable part.text after
  keyword : ∀ k, part.kind? = some (.keyword k) ↔
    ∃ spelling, (spelling, k) ∈ Rule.keywords ∧ (part.text ++ after).takeWhile isWordPart = spelling.toList

/-- Parts of a text that stand rightly one behind the other. -/
def Tiling (before : List Char) (parts : List Part) (after : List Char) : Prop :=
  ∀ front part back, parts = front ++ part :: back →
    part.Fits (before ++ Part.texts front) (Part.texts back ++ after)

/-- No token can begin a text: the longest match of the table is refused. -/
structure Refused (cs : List Char) (fault : Fault) : Prop where
  chosen : ∃ (rule : Rule) (lexeme rest : List Char),
    cs = lexeme ++ rest ∧ rule.Chosen lexeme rest ∧ rule.kind? lexeme = .error fault
  unidentified : ∀ c, fault = .unidentified c → cs.head? = some c ∧
    ∀ rule ∈ Rule.table, ∀ lexeme rest, cs = lexeme ++ rest → rule.Matches lexeme rest → rule = .any

/-! ### What the winner is -/

namespace Rule

variable {rule : Rule} {lexeme rest : List Char}

theorem matches_iff (h : rule ∈ table) :
    rule.Matches lexeme rest ↔ lexeme ≠ [] ∧ rule.length (lexeme ++ rest) = lexeme.length := by
  have hle := length_le rule (lexeme ++ rest)
  rw [Matches, rest?_pattern _ h, behind]
  constructor
  · intro hrest
    split at hrest
    next => cases hrest
    next hne =>
      have hdrop := congrArg List.length (Option.some.inj hrest)
      rw [List.length_drop] at hdrop
      rw [List.length_append] at hdrop hle
      have hlength : rule.length (lexeme ++ rest) = lexeme.length := by omega
      refine ⟨?_, hlength⟩
      rintro rfl
      exact hne hlength
  · rintro ⟨hne, hlength⟩
    rw [hlength, if_neg (by simpa using hne), List.drop_left]

/-- A comment that no line feed ends is the end of the text. -/
theorem lineComment_last {body : List Char} (h : Wins lineComment ('/' :: '/' :: body) rest) (hbody : '\n' ∉ body) :
    rest = [] := by
  have hfinds := h.finds
  by_cases hlast : '\n' ∈ rest
  · obtain ⟨line, more, rfl, hline⟩ := List.eq_append_cons_of_mem hlast
    have hlength := lineCommentLength_line (List.not_mem_append hbody hline) more
    rw [length, List.cons_append, List.cons_append, ← List.append_assoc, hlength] at hfinds
    simp at hfinds
    omega
  · have hlength := lineCommentLength_last (List.not_mem_append hbody hlast)
    rw [length, List.cons_append, List.cons_append, hlength] at hfinds
    exact List.length_eq_zero_iff.1 (by simp at hfinds; omega)

namespace Wins

variable (h : rule.Wins lexeme rest)

include h

theorem chosen : rule.Chosen lexeme rest := by
  obtain ⟨earlier, later, htable, hearlier, hlater⟩ := h.first
  refine ⟨(matches_iff h.mem).2 ⟨h.ne_nil, h.finds⟩, earlier, later, htable, ?_, ?_⟩
  · intro other hmem found more heq hmatches
    have hother : other ∈ table := by simp [htable, hmem]
    have := ((matches_iff hother).1 hmatches).2
    rw [heq] at this
    exact this ▸ hearlier other hmem
  · intro other hmem found more heq hmatches
    have hother : other ∈ table := by simp [htable, hmem]
    have := ((matches_iff hother).1 hmatches).2
    rw [heq] at this
    exact this ▸ hlater other hmem

theorem skippable (hkind : rule.kind? lexeme = .ok none) : Skippable lexeme rest := by
  have hspells := h.spells
  cases makes hkind with
  | blanks => exact .blanks h.ne_nil hspells
  | lineComment =>
    obtain ⟨body, hbody, rfl | rfl⟩ := hspells
    · obtain rfl := lineComment_last h hbody
      exact .lastLine hbody
    · exact .line hbody
  | blockComment =>
    obtain ⟨body, rfl, hinside⟩ := blockComment_shape hspells
    exact .block hinside

end Wins

theorem table_words : ∀ rule ∈ table, ∀ spelling ∈ rule.spelling?,
    (spelling.head?.all fun c => !isWordStart c) ∨ word.length spelling = spelling.length := by decide

/-- A lexeme that begins like a word is a word, or a single character that begins no token. -/
theorem spells_word {c : Char} {cs : List Char} (hmem : rule ∈ table) (hspells : rule.Spells (c :: cs))
    (hc : isWordStart c = true) : word.Spells (c :: cs) ∨ rule = any := by
  have hstarts := starts_of_spells hspells
  cases rule with
  | fixed spelling kind =>
    left
    cases hspells
    obtain hall | hlength := table_words _ hmem (c :: cs) rfl
    · simp [hc] at hall
    exact spells_of_length (List.cons_ne_nil c cs) hlength
  | blanks =>
    have := isBlank_of_isWordPart (isWordPart_of_isWordStart hc)
    simp [starts, this] at hstarts
  | word => exact .inl hspells
  | decimal => simp [starts, isDigit_of_isWordStart hc] at hstarts
  | any => exact .inr rfl
  | includeSearched | includeQuoted | hexadecimal | string | char | lineComment | blockComment =>
    simp only [starts, decide_eq_true_eq] at hstarts
    subst hstarts
    exact absurd hc (by decide)

theorem any_last : ∀ rule ∈ table, table.idxOf any ≤ table.idxOf rule → rule = any := by decide

/-- Only a character that begins no token is unidentified. -/
theorem eq_any_of_unidentified {c : Char} (h : rule.kind? lexeme = .error (.unidentified c)) :
    rule = any ∧ c = lexeme.headD ' ' := by
  have hnumber : ∀ base digits, some <$> numberKind base digits ≠ .error (.unidentified c) := by
    intro base digits hnumber
    unfold numberKind at hnumber
    dsimp only at hnumber
    split at hnumber <;> cases hnumber
  have hbody : literalBody lexeme ≠ .error (.unidentified c) := by
    intro hbody
    rw [literalBody] at hbody
    cases hdecode : Text.Escaped.decode (lexeme.drop 1).dropLast with
    | error fault => rw [hdecode] at hbody; cases hbody
    | ok body => rw [hdecode] at hbody; cases hbody
  cases rule with
  | fixed | blanks | includeSearched | includeQuoted | word | lineComment | blockComment => cases h
  | decimal => exact (hnumber _ _ h).elim
  | hexadecimal => exact (hnumber _ _ h).elim
  | string =>
    rw [kind?] at h
    cases hdecoded : literalBody lexeme with
    | error fault =>
      rw [hdecoded] at h
      cases h
      exact (hbody hdecoded).elim
    | ok body => rw [hdecoded] at h; cases h
  | char =>
    rw [kind?, charKind] at h
    cases hdecoded : literalBody lexeme with
    | error fault =>
      rw [hdecoded] at h
      cases h
      exact (hbody hdecoded).elim
    | ok body =>
      rw [hdecoded] at h
      dsimp only [bind, Except.bind] at h
      split at h <;> cases h
  | any =>
    cases h
    exact ⟨rfl, rfl⟩

/-! ### Keywords -/

/-- The rule of a keyword. -/
def ofKeyword (entry : String × Keyword) : Rule := fixed entry.1.toList (.keyword entry.2)

theorem ofKeyword_mem : ∀ entry ∈ keywords, ofKeyword entry ∈ table := by decide

theorem eq_ofKeyword {k : Keyword} (hmem : rule ∈ table) (h : rule.Makes (some (.keyword k))) :
    ∃ entry ∈ keywords, rule = ofKeyword entry ∧ entry.2 = k := by
  cases h with
  | fixed =>
    simp only [table, List.mem_append, List.mem_map, fixed.injEq, Kind.keyword.injEq] at hmem
    obtain ((⟨entry, hentry, hspelling, hk⟩ | ⟨s, -, -, hkind⟩) | ⟨s, -, -, hkind⟩) | hother := hmem
    · exact ⟨entry, hentry, by rw [ofKeyword, hspelling, hk], hk⟩
    · cases hkind
    · cases hkind
    · simp at hother

/-- Keywords are spelled like words. -/
theorem keyword_spells : ∀ entry ∈ keywords, word.Spells entry.1.toList := by
  have hlength : ∀ entry ∈ keywords, entry.1.toList ≠ [] ∧ word.length entry.1.toList = entry.1.toList.length := by
    decide
  exact fun entry hentry => spells_of_length (hlength entry hentry).1 (hlength entry hentry).2

/-- No two keywords are spelled alike, nor is any token of an earlier rule. -/
theorem keyword_first : ∀ entry ∈ keywords, ∀ rule ∈ table, table.idxOf rule ≤ table.idxOf (ofKeyword entry) →
    rule.spelling?.all (· = entry.1.toList) → rule = ofKeyword entry := by
  decide +kernel

/-- The run of word characters at a text that begins with a word. -/
theorem takeWhile_word (h : word.Spells lexeme) (rest : List Char) :
    (lexeme ++ rest).takeWhile isWordPart = lexeme ++ rest.takeWhile isWordPart := by
  obtain ⟨c, cs, rfl, hc, hcs⟩ := h
  exact List.takeWhile_append_of_pos (List.forall_mem_cons.2 ⟨isWordPart_of_isWordStart hc, hcs⟩)

theorem length_word (h : word.Spells lexeme) (rest : List Char) :
    word.length (lexeme ++ rest) = ((lexeme ++ rest).takeWhile isWordPart).length := by
  obtain ⟨c, cs, rfl, hc, hcs⟩ := h
  rw [length, List.cons_append, wordLength, if_pos hc, List.takeWhile_cons, if_pos (isWordPart_of_isWordStart hc),
    List.length_cons, Nat.add_comm]

/-- A keyword is what wins exactly if all of the word at its place is spelled like it. -/
theorem Wins.keyword_iff (h : rule.Wins lexeme rest) (k : Keyword) :
    rule.kind? lexeme = .ok (some (.keyword k)) ↔
      ∃ spelling, (spelling, k) ∈ keywords ∧ (lexeme ++ rest).takeWhile isWordPart = spelling.toList := by
  constructor
  · intro hkind
    obtain ⟨⟨spelling, k⟩, hentry, rfl, rfl⟩ := eq_ofKeyword h.mem (makes hkind)
    obtain rfl : lexeme = spelling.toList := h.spells
    refine ⟨spelling, hentry, ?_⟩
    have hword : word.Spells spelling.toList := keyword_spells _ hentry
    have hle : word.length (spelling.toList ++ rest) ≤ spelling.toList.length := h.length_le (by decide)
    rw [length_word hword, takeWhile_word hword, List.length_append] at hle
    rw [takeWhile_word hword, List.length_eq_zero_iff.1 (by omega : (rest.takeWhile isWordPart).length = 0),
      List.append_nil]
  · rintro ⟨spelling, hentry, hrun⟩
    have hword : word.Spells spelling.toList := keyword_spells _ hentry
    have hfixed : (ofKeyword (spelling, k)).length (lexeme ++ rest) = spelling.toList.length :=
      if_pos (List.isPrefixOf_iff_prefix.2 (hrun ▸ List.takeWhile_prefix _))
    have hle : spelling.toList.length ≤ lexeme.length := hfixed ▸ h.length_le (ofKeyword_mem _ hentry)
    obtain ⟨c, cs, hspelling, hc, -⟩ := hword
    obtain ⟨cs', rfl⟩ : ∃ cs', lexeme = c :: cs' := by
      obtain ⟨d, ds, rfl⟩ := List.exists_cons_of_ne_nil h.ne_nil
      have hprefix : c :: cs <+: d :: (ds ++ rest) := hspelling ▸ hrun ▸ List.takeWhile_prefix _
      exact ⟨ds, by rw [(List.cons_prefix_cons.1 hprefix).1]⟩
    have hlexeme : (c :: cs').length = spelling.toList.length ∧ rule.spelling?.all (· = spelling.toList) := by
      obtain hlexeme | rfl := spells_word h.mem h.spells hc
      · have hprefix : c :: cs' <+: spelling.toList := by
          rw [← hrun, takeWhile_word hlexeme]
          exact List.prefix_append _ _
        have heq := hprefix.eq_of_length_le hle
        refine ⟨by rw [heq], ?_⟩
        rw [Option.all_eq_true]
        intro s hs
        cases rule with
        | fixed s' kind =>
          cases hs
          exact decide_eq_true (heq ▸ h.spells.symm)
        | _ => cases hs
      · obtain ⟨d, hd⟩ := h.spells
        have hpos : 0 < spelling.toList.length := by simp [hspelling]
        have hone := congrArg List.length hd
        exact ⟨by simp only [List.length_singleton] at hone; omega, rfl⟩
    have hfirst := h.idxOf_le (hfixed.trans hlexeme.1.symm)
    rw [keyword_first _ hentry rule h.mem hfirst hlexeme.2]
    rfl

end Rule

/-! ### Scanning -/

/-- The part of a text that a lexeme makes up. -/
def Part.ofLexeme (before lexeme : List Char) : Option Kind → Part
  | some kind => .token ⟨kind, String.ofList lexeme, .behind before⟩
  | none => .skipped lexeme

section

variable {before after lexeme rest : List Char} {kind : Option Kind}

@[simp] theorem Part.text_ofLexeme : (ofLexeme before lexeme kind).text = lexeme := by
  cases kind
  · rfl
  · exact String.toList_ofList

@[simp] theorem Part.token?_ofLexeme :
    (ofLexeme before lexeme kind).token? = kind.map fun kind => ⟨kind, String.ofList lexeme, .behind before⟩ := by
  cases kind <;> rfl

@[simp] theorem Part.kind?_ofLexeme : (ofLexeme before lexeme kind).kind? = kind := by
  cases kind <;> rfl

theorem Rule.Wins.fits {rule : Rule} (h : rule.Wins lexeme rest) (hkind : rule.kind? lexeme = .ok kind)
    (before : List Char) : (Part.ofLexeme before lexeme kind).Fits before rest where
  chosen := ⟨rule, by rw [Part.text_ofLexeme]; exact h.chosen, by rw [Part.text_ofLexeme, Part.kind?_ofLexeme, hkind]⟩
  position := by
    rintro t ht
    obtain ⟨kind, -, rfl⟩ := Option.map_eq_some_iff.1 (Part.token?_ofLexeme ▸ ht)
    rfl
  skippable := by
    rintro hnone
    obtain rfl : kind = none := by simpa using hnone
    exact h.skippable hkind
  keyword := by
    intro k
    rw [Part.kind?_ofLexeme, Part.text_ofLexeme, ← h.keyword_iff, hkind]
    simp

theorem Rule.Wins.refused {rule : Rule} {fault : Fault} (h : rule.Wins lexeme rest)
    (hkind : rule.kind? lexeme = .error fault) : Refused (lexeme ++ rest) fault where
  chosen := ⟨rule, lexeme, rest, rfl, h.chosen, hkind⟩
  unidentified := by
    rintro c rfl
    obtain ⟨rfl, hc⟩ := Rule.eq_any_of_unidentified hkind
    obtain ⟨d, rfl⟩ := h.spells
    refine ⟨by rw [hc]; rfl, fun rule hmem found more heq hmatches => ?_⟩
    obtain ⟨hne, hlength⟩ := (Rule.matches_iff hmem).1 hmatches
    rw [← heq] at hlength
    have hle := h.length_le hmem
    have hpos := List.length_pos_of_ne_nil hne
    exact Rule.any_last rule hmem (h.idxOf_le (by rw [List.length_singleton] at hle ⊢; omega))

theorem Tiling.nil : Tiling before [] after := by
  intro front part back heq
  simp at heq

theorem Tiling.cons {part : Part} {parts : List Part} (hpart : part.Fits before (Part.texts parts ++ after))
    (hparts : Tiling (before ++ part.text) parts after) : Tiling before (part :: parts) after := by
  intro front p back heq
  cases front with
  | nil =>
    obtain ⟨rfl, rfl⟩ := List.cons.inj heq
    simpa [Part.texts] using hpart
  | cons q front =>
    obtain ⟨rfl, rfl⟩ := List.cons.inj heq
    simpa [Part.texts] using hparts front p back rfl

end

/-- What scanning a text that follows another can come to. -/
def Outcome (before cs : List Char) : Except (Position × Fault) (List Token) → Prop
  | .ok tokens => ∃ parts, cs = Part.texts parts ∧ Tiling before parts [] ∧
      tokens = parts.filterMap Part.token? ++ [⟨.endOfFile, "", .behind (before ++ cs)⟩]
  | .error (p, fault) => ∃ parts rest, cs = Part.texts parts ++ rest ∧ Tiling before parts rest ∧
      p = .behind (before ++ Part.texts parts) ∧ Refused rest fault

theorem outcome_append {before lexeme rest : List Char} {rule : Rule} {kind : Option Kind}
    {result : Except (Position × Fault) (List Token)} (h : rule.Wins lexeme rest)
    (hkind : rule.kind? lexeme = .ok kind) (hresult : Outcome (before ++ lexeme) rest result) :
    Outcome before (lexeme ++ rest) do
      let more ← result
      return (kind.map fun kind => ⟨kind, String.ofList lexeme, .behind before⟩).toList ++ more := by
  have hfits := h.fits hkind before
  cases result with
  | ok tokens =>
    obtain ⟨parts, rfl, hparts, rfl⟩ := hresult
    refine ⟨.ofLexeme before lexeme kind :: parts, by simp [Part.texts], .cons ?_ ?_, ?_⟩
    · rwa [List.append_nil]
    · rwa [Part.text_ofLexeme]
    · cases kind <;> simp
  | error e =>
    obtain ⟨parts, rest, rfl, hparts, hp, hrefused⟩ := hresult
    refine ⟨.ofLexeme before lexeme kind :: parts, rest, by simp [Part.texts], .cons hfits ?_, ?_, hrefused⟩
    · rwa [Part.text_ofLexeme]
    · simp [hp, Part.texts]

theorem scanFrom_outcome (before cs : List Char) : Outcome before cs (scanFrom (.behind before) cs) := by
  induction cs using Rule.wins_induction generalizing before with
  | nil =>
    rw [scanFrom_nil]
    exact ⟨[], rfl, .nil, by simp⟩
  | step rule lexeme rest h ih =>
    have hafter : (Position.behind before).after lexeme = .behind (before ++ lexeme) := by
      rw [← Position.after_start, ← Position.after_append, Position.after_start]
    rw [scanFrom_append _ h, hafter]
    cases hkind : rule.kind? lexeme with
    | error fault => exact ⟨[], lexeme ++ rest, rfl, .nil, by simp [Part.texts], h.refused hkind⟩
    | ok kind => exact outcome_append h hkind (ih _)

/-- A source text is cut into tokens and what is skipped, without gaps. Where that ends, the text ends, or no
token begins. -/
theorem scan_tiling (source : String) :
    match scan source with
    | .ok tokens => ∃ parts, source.toList = Part.texts parts ∧ Tiling [] parts [] ∧
        tokens = parts.filterMap Part.token? ++ [⟨.endOfFile, "", .behind source.toList⟩]
    | .error (p, fault) => ∃ parts rest, source.toList = Part.texts parts ++ rest ∧ Tiling [] parts rest ∧
        p = .behind (Part.texts parts) ∧ Refused rest fault := by
  have h := scanFrom_outcome [] source.toList
  rw [show Position.behind [] = .start from rfl] at h
  rw [scan]
  cases hresult : scanFrom .start source.toList with
  | ok tokens => rwa [hresult] at h
  | error e => rwa [hresult] at h

end Token
end TapeC
