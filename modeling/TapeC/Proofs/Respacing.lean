import Mathlib.Data.List.Infix
import TapeC.Proofs.Longest

/-! Tokens that are written one behind the other, with a blank between each two, are found again: no lexeme of
a token reaches over the blank that follows it. -/

namespace TapeC.Token

namespace Rule

variable {rule other : Rule} {lexeme rest more : List Char} {kind : Kind}

/-! ### Lexemes that begin alike -/

/-- No token begins with a blank. -/
theorem isBlank_of_starts {c : Char} (hmem : rule ∈ table) (hmakes : rule.Makes (some kind))
    (h : rule.starts c = true) : Text.isBlank c = false := by
  by_contra hc
  obtain rfl | rfl := starts_blank hmem h (Bool.of_not_eq_false hc) <;> cases hmakes

/-- Two directives at the beginning of a text have the same delimiters. -/
theorem Directive.opening_unique {a b c d : Char} {x y : List Char} (ha : Text.isBlank a = false)
    (hb : Text.isBlank b = false) (hx : Directive a c x) (hy : Directive b d y) (h : x <+: y) : a = b := by
  have hfirst : ∀ {o e : Char} {z : List Char} (rest : List Char), Text.isBlank o = false → Directive o e z →
      (((z ++ rest).drop includeWord.length).dropWhile Text.isBlank).head? = some o := by
    rintro o e z rest ho ⟨blanks, path, rfl, hblanks, -⟩
    rw [List.append_assoc, List.drop_left, List.append_assoc, List.dropWhile_append_of_pos hblanks]
    simp [ho]
  obtain ⟨rest, rfl⟩ := h
  have hx := hfirst rest ha hx
  have hy := hfirst [] hb hy
  rw [List.append_nil, hx] at hy
  exact Option.some.inj hy

/-! ### What follows a token -/

/-- A lexeme that is found at whatever text begins with it does not begin a longer one. -/
theorem not_spells_append (h : ∀ {x}, rule.Spells x → ∀ rest, rule.length (x ++ rest) = x.length)
    (hlexeme : rule.Spells lexeme) (hne : more ≠ []) : ¬ rule.Spells (lexeme ++ more) := by
  intro hlonger
  have hlong := h hlonger []
  rw [List.append_nil, h hlexeme, List.length_append] at hlong
  exact hne (List.length_eq_zero_iff.1 (by omega))

theorem not_directive_append {a b c d : Char} (ha : Text.isBlank a = false) (hb : Text.isBlank b = false)
    (hcd : a = b → c = d) (hlexeme : Directive a c lexeme) (hne : more ≠ []) : ¬ Directive b d (lexeme ++ more) := by
  intro hlonger
  obtain rfl := Directive.opening_unique ha hb hlexeme hlonger (List.prefix_append _ _)
  obtain rfl := hcd rfl
  have hlong := includeLength_directive ha hlonger []
  rw [List.append_nil, includeLength_directive ha hlexeme, List.length_append] at hlong
  exact hne (List.length_eq_zero_iff.1 (by omega))

/-- What begins with a token goes on as a directive only where the token does. -/
theorem Wins.not_spells_directive (h : rule.Wins lexeme rest) (hmakes : rule.Makes (some kind)) (hne : more ≠ [])
    (hother : other = includeSearched ∨ other = includeQuoted) : ¬ other.Spells (lexeme ++ more) := by
  intro hlonger
  obtain ⟨c, cs, rfl⟩ := List.exists_cons_of_ne_nil h.ne_nil
  have hspells := h.spells
  obtain rfl : c = '#' := by
    obtain rfl | rfl := hother <;> exact of_decide_eq_true (starts_of_spells hlonger)
  have hrule := starts_directive rule h.mem (starts_of_spells hspells)
  cases hmakes with
  | includeSearched =>
    obtain rfl | rfl := hother
    · exact not_directive_append (by decide) (by decide) (fun _ => rfl) hspells hne hlonger
    · exact not_directive_append (by decide) (by decide) (by decide) hspells hne hlonger
  | includeQuoted =>
    obtain rfl | rfl := hother
    · exact not_directive_append (by decide) (by decide) (by decide) hspells hne hlonger
    · exact not_directive_append (by decide) (by decide) (fun _ => rfl) hspells hne hlonger
  | _ => simp at hrule

/-- A token `//` ends the text, which would go on as a comment otherwise. -/
theorem Wins.rest_of_slashSlash (h : rule.Wins ['/', '/'] rest) : rest = [] := by
  cases rest with
  | nil => rfl
  | cons c cs =>
    have hle : lineCommentLength ('/' :: '/' :: c :: cs) ≤ 2 := h.length_le (show lineComment ∈ table by decide)
    rw [lineCommentLength, List.takeWhile_cons] at hle
    by_cases hc : c = '\n'
    · simp [hc] at hle
    · simp only [hc, ne_eq, not_false_eq_true, decide_true, if_true, List.length_cons] at hle
      split at hle <;> omega

/-- The tokens that begin like comments. -/
theorem Wins.slash_cases {cs : List Char} (h : rule.Wins ('/' :: cs) rest) (hmakes : rule.Makes (some kind)) :
    '/' :: cs = ['/'] ∨ '/' :: cs = ['/', '/'] ∨ '/' :: cs = ['/', '='] := by
  have hspells := h.spells
  have hrule := starts_comment rule h.mem (starts_of_spells hspells)
  cases hmakes with
  | fixed =>
    rw [show '/' :: cs = _ from hspells]
    simp only [List.mem_cons, fixed.injEq, reduceCtorEq, List.not_mem_nil, or_false] at hrule
    obtain hrule | hrule | hrule := hrule
    · exact .inl hrule.1
    · exact .inr (.inl hrule.1)
    · exact .inr (.inr hrule.1)
  | _ => simp at hrule

/-- No lexeme begins with that of a token and the blank behind it, unless the token could be a comment. -/
theorem Wins.not_spells_blank (h : rule.Wins lexeme rest) (hmakes : rule.Makes (some kind))
    (hcomment : lexeme ≠ ['/', '/']) (hother : other ∈ table) : ¬ other.Spells (lexeme ++ ' ' :: more) := by
  intro hlonger
  have hcases := spells_blank hother hlonger (show ' ' ∈ lexeme ++ ' ' :: more by simp) rfl
  obtain ⟨c, cs, rfl⟩ := List.exists_cons_of_ne_nil h.ne_nil
  have hspells := h.spells
  have hstarts := starts_of_spells hspells
  cases other with
  | blanks =>
    have hc := hlonger c List.mem_cons_self
    rw [isBlank_of_starts h.mem hmakes hstarts] at hc
    cases hc
  | includeSearched => exact h.not_spells_directive hmakes (List.cons_ne_nil _ _) (.inl rfl) hlonger
  | includeQuoted => exact h.not_spells_directive hmakes (List.cons_ne_nil _ _) (.inr rfl) hlonger
  | string =>
    obtain rfl : c = '"' := of_decide_eq_true (starts_of_spells hlonger)
    have hrule := starts_string rule h.mem hstarts
    cases hmakes with
    | string => exact not_spells_append length_string hspells (List.cons_ne_nil _ _) hlonger
    | _ => simp at hrule
  | char =>
    obtain rfl : c = '\'' := of_decide_eq_true (starts_of_spells hlonger)
    have hrule := starts_char rule h.mem hstarts
    cases hmakes with
    | char => exact not_spells_append length_char hspells (List.cons_ne_nil _ _) hlonger
    | _ => simp at hrule
  | lineComment =>
    obtain rfl : c = '/' := of_decide_eq_true (starts_of_spells hlonger)
    obtain ⟨ds, heq⟩ : ∃ ds, '/' :: cs ++ ' ' :: more = '/' :: '/' :: ds := by
      obtain ⟨body, -, heq | heq⟩ := hlonger
      exacts [⟨_, heq⟩, ⟨_, heq⟩]
    obtain hc | hc | hc := h.slash_cases hmakes
    · simp [hc] at heq
    · exact hcomment hc
    · simp [hc] at heq
  | blockComment =>
    obtain rfl : c = '/' := of_decide_eq_true (starts_of_spells hlonger)
    obtain ⟨tail, heq, -⟩ := hlonger
    obtain hc | hc | hc := h.slash_cases hmakes <;> simp [hc] at heq
  | any =>
    obtain ⟨d, hd⟩ := hlonger
    simp at hd
  | _ => simp at hcases

/-- A token wins again before a blank. -/
theorem Wins.respace (h : rule.Wins lexeme rest) (hmakes : rule.Makes (some kind)) (hcomment : lexeme ≠ ['/', '/'])
    (more : List Char) : rule.Wins lexeme (' ' :: more) := by
  refine h.replace fun other hother => ?_
  by_contra hlong
  obtain ⟨found, after, heq, hlength, hspells⟩ := Rule.finds (by omega : 0 < other.length (lexeme ++ ' ' :: more))
  obtain ⟨longer, rfl⟩ : lexeme ++ [' '] <+: found :=
    List.prefix_of_prefix_length_le ⟨more, by simp⟩ ⟨after, heq.symm⟩ (by simp; omega)
  rw [List.append_assoc] at hspells
  exact h.not_spells_blank hmakes hcomment hother hspells

/-- A token wins again at the end of a text. -/
theorem Wins.alone (h : rule.Wins lexeme rest) : rule.Wins lexeme [] := by
  refine h.replace fun other _ => ?_
  have := Rule.length_le other (lexeme ++ [])
  rwa [List.append_nil] at this ⊢

end Rule

/-! ### Scanning again -/

variable {rule : Rule} {lexeme rest : List Char} {kind : Kind} {tokens : List Token}

theorem Rule.Makes.ne_endOfFile (hmakes : rule.Makes (some kind)) (hmem : rule ∈ table) : kind ≠ .endOfFile := by
  rintro rfl
  cases hmakes with
  | fixed => simp [table] at hmem

theorem intercalate_blank {lexemes : List (List Char)} (h : lexemes ≠ []) :
    [' '].intercalate (lexeme :: lexemes) = lexeme ++ ' ' :: [' '].intercalate lexemes := by
  obtain ⟨next, lexemes, rfl⟩ := List.exists_cons_of_ne_nil h
  rw [List.intercalate_cons_cons, List.append_assoc]
  rfl

/-- Tokens that come to the same wherever they are written with blanks between. -/
structure Movable (tokens : List Token) : Prop where
  kinds : ∀ t ∈ tokens, t.kind ≠ .endOfFile
  begins : ∀ t ∈ tokens, ∃ c cs, t.lexeme.toList = c :: cs ∧ Text.isBlank c = false
  again : ∀ p, ∃ again q,
    scanFrom p ([' '].intercalate (tokens.map (·.lexeme.toList))) = .ok (again ++ [⟨.endOfFile, "", q⟩]) ∧
      again.map (fun t => (t.kind, t.lexeme)) = tokens.map fun t => (t.kind, t.lexeme)

theorem Movable.nil : Movable [] where
  kinds := by simp
  begins := by simp
  again p := ⟨[], p, scanFrom_nil p, rfl⟩

theorem Movable.cons (h : rule.Wins lexeme rest) (hkind : rule.kind? lexeme = .ok (some kind))
    (hlast : rest = [] → tokens = []) (htokens : Movable tokens) (p : Position) :
    Movable (⟨kind, String.ofList lexeme, p⟩ :: tokens) := by
  have hmakes := Rule.makes hkind
  refine ⟨List.forall_mem_cons.2 ⟨hmakes.ne_endOfFile h.mem, htokens.kinds⟩,
    List.forall_mem_cons.2 ⟨?_, htokens.begins⟩, fun p => ?_⟩
  · obtain ⟨c, cs, rfl⟩ := List.exists_cons_of_ne_nil h.ne_nil
    exact ⟨c, cs, String.toList_ofList, Rule.isBlank_of_starts h.mem hmakes (Rule.starts_of_spells h.spells)⟩
  cases tokens with
  | nil =>
    have hscan := scanFrom_append_ok h.alone hkind (scanFrom_nil (p.after lexeme))
    rw [List.append_nil] at hscan
    refine ⟨[⟨kind, String.ofList lexeme, p⟩], p.after lexeme, ?_, rfl⟩
    simpa [List.intercalate] using hscan
  | cons t tokens =>
    have hcomment : lexeme ≠ ['/', '/'] := by
      rintro rfl
      cases hlast h.rest_of_slashSlash
    obtain ⟨c, cs, htext, hc⟩ : ∃ c cs, [' '].intercalate ((t :: tokens).map (·.lexeme.toList)) = c :: cs ∧
        Text.isBlank c = false := by
      obtain ⟨c, cs, ht, hc⟩ := htokens.begins t List.mem_cons_self
      cases tokens with
      | nil => exact ⟨c, cs, by simpa [List.intercalate] using ht, hc⟩
      | cons u tokens =>
        have hne : (u :: tokens).map (·.lexeme.toList) ≠ [] := List.cons_ne_nil _ _
        exact ⟨c, _, by rw [List.map_cons, intercalate_blank hne, ht]; rfl, hc⟩
    obtain ⟨again, q, hagain, hsame⟩ := htokens.again ((p.after lexeme).after [' '])
    rw [htext] at hagain
    have hwins : Rule.blanks.Wins [' '] (c :: cs) :=
      Rule.wins_blanks (List.cons_ne_nil _ _) (List.forall_mem_singleton.2 rfl) (by simpa using hc)
    have hblank := scanFrom_append_ok hwins rfl hagain
    have hscan := scanFrom_append_ok (h.respace hmakes hcomment (c :: cs)) hkind hblank
    refine ⟨⟨kind, String.ofList lexeme, p⟩ :: again, q, ?_, ?_⟩
    · have hne : (t :: tokens).map (·.lexeme.toList) ≠ [] := List.cons_ne_nil _ _
      rw [List.map_cons, intercalate_blank hne, htext, String.toList_ofList]
      exact hscan
    · rw [List.map_cons, hsame]
      rfl

/-- Scanning comes to tokens that can be written with blanks between. -/
theorem movable_of_scanFrom (cs : List Char) : ∀ {p tokens}, scanFrom p cs = .ok tokens →
    ∃ body q, tokens = body ++ [⟨.endOfFile, "", q⟩] ∧ Movable body := by
  induction cs using Rule.wins_induction with
  | nil =>
    intro p tokens h
    rw [scanFrom_nil] at h
    cases h
    exact ⟨[], p, rfl, .nil⟩
  | step rule lexeme rest hwins ih =>
    intro p tokens h
    obtain ⟨kind, more, hkind, hmore, rfl⟩ := exists_of_scanFrom_ok hwins h
    obtain ⟨body, q, rfl, hbody⟩ := ih hmore
    cases kind with
    | none => exact ⟨body, q, rfl, hbody⟩
    | some kind =>
      refine ⟨_ :: body, q, rfl, .cons hwins hkind ?_ hbody p⟩
      rintro rfl
      rw [scanFrom_nil] at hmore
      cases body with
      | nil => rfl
      | cons t ts => simp at hmore

/-- Scanning the lexemes of accepted tokens again, with blanks between, gives the same tokens. -/
theorem scan_respaced (source : String) (tokens : List Token) (h : scan source = .ok tokens) :
    ∃ again, scan (" ".intercalate ((tokens.filter (·.kind ≠ .endOfFile)).map (·.lexeme))) = .ok again ∧
      again.map (fun t => (t.kind, t.lexeme)) = tokens.map fun t => (t.kind, t.lexeme) := by
  obtain ⟨body, q, rfl, hbody⟩ := movable_of_scanFrom _ h
  obtain ⟨again, q', hagain, hsame⟩ := hbody.again .start
  have hfilter : (body ++ [(⟨.endOfFile, "", q⟩ : Token)]).filter (fun t => t.kind ≠ .endOfFile) = body := by
    rw [List.filter_append, List.filter_eq_self.2 (by simpa using hbody.kinds)]
    simp
  refine ⟨again ++ [⟨.endOfFile, "", q'⟩], ?_, ?_⟩
  · rw [hfilter, scan, String.toList_intercalate, List.map_map]
    exact hagain
  · simp [hsame]

/-- Two slashes that a blank separates stay apart, and those at the end of the text stay together. -/
theorem scan_respaced_slashes :
    scan "/ /b//" = .ok [⟨.symbol .slash, "/", ⟨1, 1⟩⟩, ⟨.symbol .slash, "/", ⟨1, 3⟩⟩, ⟨.identifier "b", "b", ⟨1, 4⟩⟩,
      ⟨.symbol .slashSlash, "//", ⟨1, 5⟩⟩, ⟨.endOfFile, "", ⟨1, 7⟩⟩] ∧
    ∃ again, scan (" ".intercalate ["/", "/", "b", "//"]) = .ok again ∧
      again.map (fun t => (t.kind, t.lexeme)) = [(.symbol .slash, "/"), (.symbol .slash, "/"), (.identifier "b", "b"),
        (.symbol .slashSlash, "//"), (.endOfFile, "")] := by
  have h : scan "/ /b//" = .ok [⟨.symbol .slash, "/", ⟨1, 1⟩⟩, ⟨.symbol .slash, "/", ⟨1, 3⟩⟩,
      ⟨.identifier "b", "b", ⟨1, 4⟩⟩, ⟨.symbol .slashSlash, "//", ⟨1, 5⟩⟩, ⟨.endOfFile, "", ⟨1, 7⟩⟩] := by
    decide +kernel
  exact ⟨h, scan_respaced _ _ h⟩

end TapeC.Token
