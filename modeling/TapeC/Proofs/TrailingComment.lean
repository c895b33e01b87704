import Mathlib.Data.List.Infix
import TapeC.Proofs.Longest

/-! A comment on a line behind a text leaves the tokens of the text as they are, because no lexeme reaches over
the line feed before it. A comment without text is none: at the end of a text `//` is a token. -/

namespace TapeC.Token

/-! ### String literals -/

theorem stringTail?_line {tail : List Char} (h : stringTail? tail = some tail.length) : '\n' ∉ tail := by
  fun_induction stringTail? tail with
  | case1 => simp
  | case2 cs =>
    obtain rfl : cs = [] := by simpa using h
    decide
  | case3 => cases h
  | case4 cs => cases h
  | case5 c cs hc ih =>
    obtain ⟨n, hn, hlength⟩ := Option.map_eq_some_iff.1 h
    obtain rfl : n = cs.length := by simpa using hlength
    have := ih hn
    simp [Ne.symm hc, this]
  | case6 cs => cases h
  | case7 c cs hquote hlast hescape hc ih =>
    obtain ⟨n, hn, hlength⟩ := Option.map_eq_some_iff.1 h
    obtain rfl : n = cs.length := by simpa using hlength
    have := ih hn
    simp [Ne.symm hc, this]

namespace Rule

variable {rule : Rule} {lexeme rest cs body more : List Char}

/-! ### Lexemes with line feeds -/

/-- A lexeme that holds a line feed is blank, a directive or a comment. -/
theorem spells_line (hmem : rule ∈ table) (h : rule.Spells lexeme) (hline : '\n' ∈ lexeme) :
    rule ∈ [blanks, includeSearched, includeQuoted, lineComment, blockComment, any] := by
  have hcases := spells_blank hmem h hline rfl
  cases rule with
  | blanks | includeSearched | includeQuoted | lineComment | blockComment | any => decide
  | string =>
    obtain ⟨tail, rfl, htail⟩ := h
    have hline : '\n' ∈ tail := by simpa using hline
    exact absurd hline (stringTail?_line htail)
  | char =>
    obtain ⟨body, rfl, hbody⟩ := h
    cases hbody with
    | hex ha hb =>
      obtain rfl | rfl := (by simpa using hline : _ ∨ _)
      · cases ha
      · cases hb
    | escape hc => exact absurd (by simpa using hline) (Ne.symm hc)
    | plain _ _ hc => exact absurd (by simpa using hline) (Ne.symm hc)
  | _ => simp at hcases

theorem not_directive_line {opening closing : Char} (hclosing : closing ≠ '\n') :
    ¬ Directive opening closing (cs ++ ['\n']) := by
  rintro ⟨blanks, path, heq, -⟩
  have hlast : cs ++ ['\n'] = includeWord ++ (blanks ++ opening :: path) ++ [closing] := by simpa using heq
  exact hclosing (List.cons.inj (List.append_inj' hlast rfl).2).1.symm

/-- What a line feed can end. -/
theorem spells_line_end (hmem : rule ∈ table) (h : rule.Spells (cs ++ ['\n'])) (hne : cs ≠ []) :
    rule = blanks ∨ rule = lineComment := by
  have hcases := spells_line hmem h (by simp)
  cases rule with
  | blanks => exact .inl rfl
  | lineComment => exact .inr rfl
  | includeSearched => exact absurd h (not_directive_line (by decide))
  | includeQuoted => exact absurd h (not_directive_line (by decide))
  | blockComment =>
    obtain ⟨body, heq, -⟩ := blockComment_shape h
    have hlast : cs ++ ['\n'] = '/' :: '*' :: (body ++ ['*']) ++ ['/'] := by simpa using heq
    cases (List.append_inj' hlast rfl).2
  | any =>
    obtain ⟨c, hc⟩ := h
    have hlength := congrArg List.length hc
    simp [hne] at hlength
  | _ => simp at hcases

theorem not_directive_comment {opening closing : Char} (hopening : opening ≠ '/' ∧ opening ≠ '\n')
    (hclosing : closing ≠ '\n') : ¬ Directive opening closing (cs ++ '\n' :: '/' :: more) := by
  rintro ⟨blanks, path, heq, hblanks, -, hpath⟩
  have hslash : '/' ∉ includeWord ++ blanks := by
    intro hslash
    obtain hslash | hslash := List.mem_append.1 hslash
    · revert hslash
      decide
    · cases hblanks '/' hslash
  rw [← List.append_assoc] at heq
  obtain ⟨inner, hinner, heq⟩ | ⟨inner, rfl, heq⟩ := List.append_eq_append_iff.1 heq
  · match inner with
    | [] => exact hopening.2 (List.cons.inj heq).1.symm
    | [_] => exact hopening.1 (List.cons.inj (List.cons.inj heq).2).1.symm
    | _ :: d :: ds =>
      obtain rfl : '/' = d := (List.cons.inj (List.cons.inj heq).2).1
      exact hslash (hinner ▸ by simp)
  · rw [List.append_assoc, List.append_cancel_left_eq] at heq
    have hline : '\n' ∈ opening :: (path ++ [closing]) := heq ▸ by simp
    simp only [List.mem_cons, List.mem_append, List.not_mem_nil, or_false] at hline
    obtain hline | hline | hline := hline
    · exact hopening.2 hline.symm
    · exact (hpath _ hline).2 rfl
    · exact hclosing hline.symm

/-- No lexeme reaches from a line to a comment on the next. -/
theorem not_spells_comment (hmem : rule ∈ table) (hblock : ¬ ['*', '/'] <:+: body)
    (hmore : more <+: '/' :: body) : ¬ rule.Spells (cs ++ '\n' :: '/' :: more) := by
  intro h
  have hcases := spells_line hmem h (by simp)
  cases rule with
  | blanks => cases h '/' (by simp)
  | includeSearched => exact not_directive_comment (by decide) (by decide) h
  | includeQuoted => exact not_directive_comment (by decide) (by decide) h
  | lineComment =>
    obtain ⟨line, hline, heq | heq⟩ := h
    · have : '\n' ∈ '/' :: '/' :: line := heq ▸ List.mem_append_right cs List.mem_cons_self
      simp [hline] at this
    · have hlast : cs ++ '\n' :: ('/' :: more) = ('/' :: '/' :: line) ++ '\n' :: [] := heq
      have hmarks : '\n' ∉ '/' :: '/' :: line := by simp [hline]
      obtain ⟨-, -, htail⟩ := (List.append_cons_inj_of_notMem (by simpa using hmarks) (by simp)).1 hlast.symm
      cases htail
  | blockComment =>
    obtain ⟨inside, heq, -⟩ := blockComment_shape h
    have hend : ['*', '/'] <:+ cs ++ '\n' :: '/' :: more := heq ▸ ⟨'/' :: '*' :: inside, by simp⟩
    have hinfix : ['*', '/'] <:+: '\n' :: '/' :: '/' :: body := by
      have hnext : ['*', '/'] <:+ '\n' :: '/' :: more :=
        List.suffix_of_suffix_length_le hend (List.suffix_append _ _) (by simp)
      have hprefix : '\n' :: '/' :: more <+: '\n' :: '/' :: '/' :: body := by simpa [List.cons_prefix_cons] using hmore
      exact hnext.isInfix.trans hprefix.isInfix
    simp [List.infix_cons_iff, List.cons_prefix_cons, hblock] at hinfix
  | any =>
    obtain ⟨c, hc⟩ := h
    have hlength := congrArg List.length hc
    simp only [List.length_append, List.length_cons, List.length_nil] at hlength
    omega
  | _ => simp at hcases

/-- What is found in a text with a comment behind it does not reach into the comment. -/
theorem length_le_line (hmem : rule ∈ table) (hblock : ¬ ['*', '/'] <:+: body) :
    rule.length (cs ++ '\n' :: '/' :: '/' :: body) ≤ (cs ++ ['\n']).length := by
  by_contra hlong
  obtain ⟨found, after, heq, hlength, hspells⟩ :=
    finds (by omega : 0 < rule.length (cs ++ '\n' :: '/' :: '/' :: body))
  rw [← hlength, List.length_append, List.length_singleton] at hlong
  obtain ⟨more, rfl⟩ : cs ++ ['\n', '/'] <+: found :=
    List.prefix_of_prefix_length_le ⟨'/' :: body, by simp⟩ ⟨after, heq.symm⟩ (by simp; omega)
  have hmore : more <+: '/' :: body := ⟨after, by simpa using heq.symm⟩
  rw [List.append_assoc] at hspells
  exact not_spells_comment hmem hblock hmore hspells

end Rule

/-! ### Scanning with a line behind -/

variable {cs body : List Char} {tokens more : List Token} {p q : Position}

theorem scanFrom_line {run : List Char} (hne : run ≠ []) (hrun : ∀ c ∈ run, Text.isBlank c = true) (p : Position) :
    scanFrom p run = .ok [⟨.endOfFile, "", p.after run⟩] := by
  have h := scanFrom_append_ok (Rule.wins_blanks hne hrun (by simp)) rfl (scanFrom_nil (p.after run))
  rwa [List.append_nil] at h

/-- A text that is accepted is accepted with a line feed behind it. -/
theorem scanFrom_line_of_ok (h : scanFrom p cs = .ok tokens) :
    ∃ tokens q, scanFrom p (cs ++ ['\n']) = .ok (tokens ++ [⟨.endOfFile, "", q⟩]) := by
  induction cs using Rule.wins_induction generalizing p tokens with
  | nil => exact ⟨[], _, scanFrom_line (List.cons_ne_nil _ _) (List.forall_mem_singleton.2 rfl) p⟩
  | step rule lexeme rest hwins ih =>
    obtain ⟨kind, more, hkind, hmore, -⟩ := exists_of_scanFrom_ok hwins h
    obtain ⟨tokens, q, hscan⟩ := ih hmore
    by_cases hshort : ∀ other ∈ Rule.table, other.length (lexeme ++ (rest ++ ['\n'])) ≤ lexeme.length
    · have hagain := scanFrom_append_ok (hwins.replace hshort) hkind hscan
      rw [← List.append_assoc, ← List.append_assoc] at hagain
      exact ⟨_, q, hagain⟩
    -- A longer lexeme can only be blanks or a comment that the line feed ends.
    obtain ⟨other, hmem, hlong⟩ : ∃ other ∈ Rule.table,
        lexeme.length < other.length (lexeme ++ rest ++ ['\n']) := by
      simpa using hshort
    have hwhole : other.length (lexeme ++ rest ++ ['\n']) = (lexeme ++ rest ++ ['\n']).length := by
      have hle := Rule.length_le other (lexeme ++ rest ++ ['\n'])
      by_contra hne
      have hlength : (lexeme ++ rest ++ ['\n']).length = (lexeme ++ rest).length + 1 := List.length_append
      have hsame := Rule.length_le_append (by omega : other.length (lexeme ++ rest ++ ['\n']) ≤ _) []
      have hfound := hwins.length_le hmem
      rw [List.append_nil] at hsame
      omega
    obtain ⟨rule, hrule⟩ := Rule.exists_wins_whole hmem (by simp) hwhole
    have hskip : rule.kind? (lexeme ++ rest ++ ['\n']) = .ok none := by
      have hne : lexeme ++ rest ≠ [] := List.append_ne_nil_of_left_ne_nil hwins.ne_nil rest
      obtain rfl | rfl := Rule.spells_line_end hrule.mem hrule.spells hne <;> rfl
    have hscan := scanFrom_append_ok hrule hskip (scanFrom_nil (p.after (lexeme ++ rest ++ ['\n'])))
    rw [List.append_nil] at hscan
    exact ⟨[], _, hscan⟩

/-- The tokens of a comment on the next line follow those of a text. -/
theorem scanFrom_comment (hblock : ¬ ['*', '/'] <:+: body) (h : scanFrom p (cs ++ ['\n']) = .ok tokens) :
    ∃ before q, tokens = before ++ [⟨.endOfFile, "", q⟩] ∧ ∀ more, scanFrom q ('/' :: '/' :: body) = .ok more →
      scanFrom p (cs ++ '\n' :: '/' :: '/' :: body) = .ok (before ++ more) := by
  induction hn : cs.length using Nat.strong_induction_on generalizing cs p tokens with
  | _ n ih =>
    have hne : cs ++ ['\n'] ≠ [] := by simp
    obtain ⟨rule, lexeme, rest, heq, hwins⟩ := Rule.exists_wins hne
    have htext : cs ++ '\n' :: '/' :: '/' :: body = lexeme ++ (rest ++ '/' :: '/' :: body) := by
      rw [← List.append_assoc, ← heq, List.append_assoc]
      rfl
    have hagain : rule.Wins lexeme (rest ++ '/' :: '/' :: body) := by
      refine hwins.replace fun other hmem => ?_
      have hle : other.length (cs ++ '\n' :: '/' :: '/' :: body) ≤ (cs ++ ['\n']).length :=
        Rule.length_le_line hmem hblock
      rw [htext, heq, ← List.append_assoc] at hle
      rw [← List.append_assoc]
      have hsame := Rule.length_le_append hle []
      rw [List.append_nil] at hsame
      exact hsame.trans (hwins.length_le hmem)
    rw [heq] at h
    obtain ⟨kind, found, hkind, hfound, rfl⟩ := exists_of_scanFrom_ok hwins h
    rw [htext]
    obtain rfl | ⟨cs', c, rfl⟩ := List.eq_nil_or_concat' rest
    · rw [scanFrom_nil] at hfound
      cases hfound
      exact ⟨_, p.after lexeme, rfl, fun more hmore => scanFrom_append_ok hagain hkind hmore⟩
    · rw [← List.append_assoc] at heq
      obtain ⟨rfl, hc⟩ := List.append_inj' heq rfl
      obtain rfl := (List.cons.inj hc).1
      have hpos := hwins.pos
      rw [List.length_append] at hn
      obtain ⟨before, q, rfl, hbefore⟩ := ih cs'.length (by omega) hfound rfl
      refine ⟨_, q, (List.append_assoc _ _ _).symm, fun more hmore => ?_⟩
      have hrest := hbefore more hmore
      rw [List.append_assoc, List.append_assoc]
      exact scanFrom_append_ok (by simpa using hagain) hkind hrest

theorem scanFrom_slashes (p : Position) : scanFrom p ['/', '/'] =
    .ok [⟨.symbol .slashSlash, "//", p⟩, ⟨.endOfFile, "", p.after ['/', '/']⟩] := by
  have hlongest : Rule.longest ['/', '/'] Rule.table = (.fixed ['/', '/'] (.symbol .slashSlash), 2) := by
    decide +kernel
  rw [scanFrom, hlongest]
  change (do let rest ← scanFrom (p.after ['/', '/']) []; _) = _
  rw [scanFrom_nil]
  rfl

theorem scanFrom_lastLine (hne : body ≠ []) (hbody : '\n' ∉ body) (p : Position) :
    scanFrom p ('/' :: '/' :: body) = .ok [⟨.endOfFile, "", p.after ('/' :: '/' :: body)⟩] := by
  have hwhole : Rule.lineComment.length ('/' :: '/' :: body) = ('/' :: '/' :: body).length := by
    rw [Rule.length, lineCommentLength_last hbody, List.length_cons, List.length_cons]
    omega
  obtain ⟨rule, hwins⟩ := Rule.exists_wins_whole (by decide) (List.cons_ne_nil _ _) hwhole
  have hspells := hwins.spells
  have hcases := Rule.starts_comment rule hwins.mem (Rule.starts_of_spells hspells)
  have hskip : rule.kind? ('/' :: '/' :: body) = .ok none := by
    simp only [List.mem_cons, List.not_mem_nil, or_false] at hcases
    obtain rfl | rfl | rfl | rfl | rfl | rfl := hcases
    · cases hspells
    · cases hspells
      exact absurd rfl hne
    · cases hspells
    · rfl
    · rfl
    · obtain ⟨c, hc⟩ := hspells
      cases hc
  have hscan := scanFrom_append_ok hwins hskip (scanFrom_nil (p.after ('/' :: '/' :: body)))
  rwa [List.append_nil] at hscan

/-- A comment behind an accepted text leaves its tokens as they are, except that a comment without text
is a token itself. -/
theorem scan_comment_iff (source comment : String) (h : ∃ tokens, scan source = .ok tokens)
    (hline : '\n' ∉ comment.toList) (hblock : ¬ ['*', '/'] <:+: comment.toList) :
    (∃ tokens p q, scan (source ++ "\n") = .ok (tokens ++ [⟨.endOfFile, "", p⟩]) ∧
      scan (source ++ "\n//" ++ comment) = .ok (tokens ++ [⟨.endOfFile, "", q⟩])) ↔ comment ≠ "" := by
  obtain ⟨tokens, h⟩ := h
  obtain ⟨tokens, p, hscan⟩ := scanFrom_line_of_ok h
  obtain ⟨before, p', heq, hbefore⟩ := scanFrom_comment hblock hscan
  obtain ⟨rfl, hp⟩ := List.append_inj' heq rfl
  obtain rfl : p = p' := by simpa using hp
  have hfirst : scan (source ++ "\n") = .ok (tokens ++ [⟨.endOfFile, "", p⟩]) := by
    rw [scan, String.toList_append]
    exact hscan
  have hboth : (source ++ "\n//" ++ comment).toList = source.toList ++ '\n' :: '/' :: '/' :: comment.toList := by
    rw [String.toList_append, String.toList_append, List.append_assoc]
    rfl
  constructor
  · rintro ⟨tokens', p', q, hfirst', hboth'⟩ rfl
    rw [String.toList_empty] at hboth hbefore
    have hslashes := hbefore _ (scanFrom_slashes p)
    rw [scan, hboth] at hboth'
    have htokens := congrArg List.length (Except.ok.inj (hfirst.symm.trans hfirst'))
    have hlonger := congrArg List.length (Except.ok.inj (hslashes.symm.trans hboth'))
    simp only [List.length_append, List.length_cons, List.length_nil] at htokens hlonger
    omega
  · intro hne
    refine ⟨tokens, p, p.after ('/' :: '/' :: comment.toList), hfirst, ?_⟩
    rw [scan, hboth]
    exact hbefore _ (scanFrom_lastLine (by simpa using hne) hline p)

theorem scan_comment_iff_divisor : (∃ tokens, scan "a/b" = .ok tokens) ∧ '\n' ∉ "/* a".toList ∧
    ¬ ['*', '/'] <:+: "/* a".toList ∧
    ∃ tokens p q, scan ("a/b" ++ "\n") = .ok (tokens ++ [⟨.endOfFile, "", p⟩]) ∧
      scan ("a/b" ++ "\n//" ++ "/* a") = .ok (tokens ++ [⟨.endOfFile, "", q⟩]) := by
  have haccepted : scan "a/b" = .ok [⟨.identifier "a", "a", ⟨1, 1⟩⟩, ⟨.symbol .slash, "/", ⟨1, 2⟩⟩,
      ⟨.identifier "b", "b", ⟨1, 3⟩⟩, ⟨.endOfFile, "", ⟨1, 4⟩⟩] := by decide +kernel
  have hline : '\n' ∉ "/* a".toList := by decide
  have hblock : ¬ ['*', '/'] <:+: "/* a".toList := by decide
  exact ⟨⟨_, haccepted⟩, hline, hblock, (scan_comment_iff _ _ ⟨_, haccepted⟩ hline hblock).2 (by decide)⟩

/-- Two slashes at the end of a text are a token, not a comment. -/
theorem empty_comment_is_token : ¬ ∀ source comment : String, (∃ tokens, scan source = .ok tokens) →
    '\n' ∉ comment.toList → ¬ ['*', '/'] <:+: comment.toList →
    ∃ tokens p q, scan (source ++ "\n") = .ok (tokens ++ [⟨.endOfFile, "", p⟩]) ∧
      scan (source ++ "\n//" ++ comment) = .ok (tokens ++ [⟨.endOfFile, "", q⟩]) := by
  intro h
  have haccepted : scan "int x;" = .ok [⟨.keyword .int, "int", ⟨1, 1⟩⟩, ⟨.identifier "x", "x", ⟨1, 5⟩⟩,
      ⟨.symbol .semicolon, ";", ⟨1, 6⟩⟩, ⟨.endOfFile, "", ⟨1, 7⟩⟩] := by decide +kernel
  have hline : scan ("int x;" ++ "\n") = .ok [⟨.keyword .int, "int", ⟨1, 1⟩⟩, ⟨.identifier "x", "x", ⟨1, 5⟩⟩,
      ⟨.symbol .semicolon, ";", ⟨1, 6⟩⟩, ⟨.endOfFile, "", ⟨2, 1⟩⟩] := by decide +kernel
  have hslashes : scan ("int x;" ++ "\n//" ++ "") = .ok [⟨.keyword .int, "int", ⟨1, 1⟩⟩,
      ⟨.identifier "x", "x", ⟨1, 5⟩⟩, ⟨.symbol .semicolon, ";", ⟨1, 6⟩⟩, ⟨.symbol .slashSlash, "//", ⟨2, 1⟩⟩,
      ⟨.endOfFile, "", ⟨2, 3⟩⟩] := by decide +kernel
  obtain ⟨tokens, p, q, hfirst, hboth⟩ := h "int x;" "" ⟨_, haccepted⟩ (by decide) (by decide)
  have htokens := congrArg List.length (Except.ok.inj (hline.symm.trans hfirst))
  have hlonger := congrArg List.length (Except.ok.inj (hslashes.symm.trans hboth))
  simp only [List.length_append, List.length_cons, List.length_nil] at htokens hlonger
  omega

end TapeC.Token
