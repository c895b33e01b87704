import TapeC.Proofs.Lexeme
import TapeC.Token.Scan

/-! The longest lexeme at the beginning of a text, and the step that the scanner takes over it. -/

namespace TapeC.Token

namespace Rule

variable {rule : Rule} {cs : List Char}

/-- The lexeme at the beginning of a text is the longest that a rule finds there and no earlier rule finds
one as long. -/
structure Wins (rule : Rule) (lexeme rest : List Char) : Prop where
  finds : rule.length (lexeme ++ rest) = lexeme.length
  ne_nil : lexeme ≠ []
  first : ∃ earlier later, table = earlier ++ rule :: later ∧
    (∀ other ∈ earlier, other.length (lexeme ++ rest) < lexeme.length) ∧
    ∀ other ∈ later, other.length (lexeme ++ rest) ≤ lexeme.length

theorem exists_first_longest (cs : List Char) {rules : List Rule} (h : rules ≠ []) :
    ∃ earlier rule later, rules = earlier ++ rule :: later ∧
      (∀ other ∈ earlier, other.length cs < rule.length cs) ∧
      ∀ other ∈ later, other.length cs ≤ rule.length cs := by
  induction rules with
  | nil => exact absurd rfl h
  | cons rule rules ih =>
    by_cases hrules : rules = []
    · exact ⟨[], rule, rules, rfl, by simp, by simp [hrules]⟩
    obtain ⟨earlier, best, later, rfl, hearlier, hlater⟩ := ih hrules
    by_cases hrule : rule.length cs < best.length cs
    · exact ⟨rule :: earlier, best, later, rfl, List.forall_mem_cons.2 ⟨hrule, hearlier⟩, hlater⟩
    · refine ⟨[], rule, _, rfl, by simp, fun other hother => ?_⟩
      obtain hother | hother := List.mem_append.1 hother
      · have := hearlier other hother
        omega
      obtain rfl | hother := List.mem_cons.1 hother
      · omega
      · have := hlater other hother
        omega

/-- The better of a lexeme that is known and what a further rule finds. -/
def better (cs : List Char) (best : Rule × Nat) (rule : Rule) : Rule × Nat :=
  if best.2 < rule.length cs then (rule, rule.length cs) else best

theorem longest_eq_foldl (rules : List Rule) : longest cs rules = rules.foldl (better cs) (any, 0) := rfl

theorem foldl_better_lt {rules : List Rule} {best : Rule × Nat} {n : Nat} (hbest : best.2 < n)
    (h : ∀ rule ∈ rules, rule.length cs < n) : (rules.foldl (better cs) best).2 < n := by
  induction rules generalizing best with
  | nil => exact hbest
  | cons rule rules ih =>
    obtain ⟨hrule, hrules⟩ := List.forall_mem_cons.1 h
    refine ih ?_ hrules
    rw [better]
    split
    · exact hrule
    · exact hbest

theorem foldl_better_eq {rules : List Rule} {best : Rule × Nat} (h : ∀ rule ∈ rules, rule.length cs ≤ best.2) :
    rules.foldl (better cs) best = best := by
  induction rules with
  | nil => rfl
  | cons rule rules ih =>
    obtain ⟨hrule, hrules⟩ := List.forall_mem_cons.1 h
    rw [List.foldl_cons, better, if_neg hrule.not_gt, ih hrules]

theorem any_mem_table : any ∈ table := by decide

theorem exists_wins (h : cs ≠ []) : ∃ rule lexeme rest, cs = lexeme ++ rest ∧ Wins rule lexeme rest := by
  obtain ⟨earlier, rule, later, htable, hearlier, hlater⟩ :=
    exists_first_longest cs (List.ne_nil_of_mem any_mem_table)
  have hpos : 0 < rule.length cs := by
    have hany : any.length cs = 1 := by
      cases cs with
      | nil => exact absurd rfl h
      | cons c cs => rfl
    have hmem := any_mem_table
    rw [htable] at hmem
    obtain hmem | hmem := List.mem_append.1 hmem
    · have := hearlier _ hmem
      omega
    obtain rfl | hmem := List.mem_cons.1 hmem
    · omega
    · have := hlater _ hmem
      omega
  obtain ⟨lexeme, rest, rfl, hlength, -⟩ := finds hpos
  refine ⟨rule, lexeme, rest, rfl, hlength.symm, ?_, earlier, later, htable, ?_, ?_⟩
  · rintro rfl
    rw [List.length_nil] at hlength
    omega
  · exact hlength ▸ hearlier
  · exact hlength ▸ hlater

namespace Wins

variable {lexeme rest rest' : List Char} (h : Wins rule lexeme rest)

include h

theorem pos : 0 < lexeme.length := List.length_pos_of_ne_nil h.ne_nil

theorem mem : rule ∈ table := by
  obtain ⟨earlier, later, htable, -⟩ := h.first
  simp [htable]

theorem spells : rule.Spells lexeme := spells_of_length_append h.ne_nil h.finds

theorem length_le {other : Rule} (hother : other ∈ table) : other.length (lexeme ++ rest) ≤ lexeme.length := by
  obtain ⟨earlier, later, htable, hearlier, hlater⟩ := h.first
  rw [htable] at hother
  obtain hother | hother := List.mem_append.1 hother
  · exact (hearlier _ hother).le
  obtain rfl | hother := List.mem_cons.1 hother
  · exact h.finds.le
  · exact hlater _ hother

/-- Of equally long lexemes that of the first rule wins. -/
theorem idxOf_le {other : Rule} (hlength : other.length (lexeme ++ rest) = lexeme.length) :
    table.idxOf rule ≤ table.idxOf other := by
  obtain ⟨earlier, later, htable, hearlier, -⟩ := h.first
  have hnot : other ∉ earlier := fun hmem => (hearlier other hmem).ne hlength
  rw [htable, List.idxOf_append_of_notMem hnot]
  by_cases hrule : rule ∈ earlier
  · rw [List.idxOf_append_of_mem hrule]
    have := List.idxOf_lt_length_of_mem hrule
    omega
  · rw [List.idxOf_append_of_notMem hrule, List.idxOf_cons_self]
    omega

/-- A lexeme that wins in one text wins in every other in which no longer one is found. -/
theorem replace (hother : ∀ other ∈ table, other.length (lexeme ++ rest') ≤ lexeme.length) :
    Wins rule lexeme rest' := by
  have hle : ∀ other ∈ table, other.length (lexeme ++ rest') ≤ other.length (lexeme ++ rest) :=
    fun other hmem => length_le_append (hother other hmem) rest
  refine ⟨(hother rule h.mem).antisymm ?_, h.ne_nil, ?_⟩
  · exact h.finds ▸ length_le_append h.finds.le rest'
  obtain ⟨earlier, later, htable, hearlier, -⟩ := h.first
  refine ⟨earlier, later, htable, fun other hmem => ?_, fun other hmem => hother _ (by simp [htable, hmem])⟩
  exact (hle _ (by simp [htable, hmem])).trans_lt (hearlier _ hmem)

theorem longest_eq : longest (lexeme ++ rest) table = (rule, lexeme.length) := by
  obtain ⟨earlier, later, htable, hearlier, hlater⟩ := h.first
  have hbefore := foldl_better_lt (show (any, 0).2 < lexeme.length from h.pos) hearlier
  rw [longest_eq_foldl, htable, List.foldl_append, List.foldl_cons, better, h.finds, if_pos hbefore]
  exact foldl_better_eq hlater

end Wins

/-- If a rule finds a text as a whole, the text is what wins. -/
theorem exists_wins_whole {other : Rule} (hmem : other ∈ table) (hne : cs ≠ []) (h : other.length cs = cs.length) :
    ∃ rule, Wins rule cs [] := by
  obtain ⟨rule, lexeme, rest, rfl, hwins⟩ := exists_wins hne
  have hle := hwins.length_le hmem
  rw [h, List.length_append] at hle
  obtain rfl : rest = [] := List.length_eq_zero_iff.1 (by omega)
  exact ⟨rule, by rwa [List.append_nil]⟩

/-- A run of blanks wins before a character that is none. -/
theorem wins_blanks {run : List Char} (hne : run ≠ []) (hrun : ∀ c ∈ run, Text.isBlank c = true)
    {rest : List Char} (hrest : ∀ c ∈ rest.head?, Text.isBlank c = false) : blanks.Wins run rest := by
  have hlength : blanks.length (run ++ rest) = run.length := by
    have hnone : rest.takeWhile Text.isBlank = [] := by
      cases rest with
      | nil => rfl
      | cons c cs => rw [List.takeWhile_cons, hrest c rfl, if_neg Bool.false_ne_true]
    rw [length, List.takeWhile_append_of_pos hrun, hnone, List.append_nil]
  have hlonger : run ++ rest ≠ [] := List.append_ne_nil_of_left_ne_nil hne rest
  obtain ⟨rule, lexeme, rest', heq, h⟩ := exists_wins hlonger
  obtain ⟨c, cs, rfl⟩ := List.exists_cons_of_ne_nil h.ne_nil
  have hc : Text.isBlank c = true := by
    obtain ⟨d, ds, rfl⟩ := List.exists_cons_of_ne_nil hne
    obtain ⟨rfl, -⟩ := List.cons.inj heq
    exact hrun d List.mem_cons_self
  obtain rfl | rfl := starts_blank h.mem (starts_of_spells h.spells) hc
  · obtain ⟨rfl, rfl⟩ := List.append_inj heq (hlength.symm.trans (heq ▸ h.finds))
    exact h
  · obtain ⟨d, hd⟩ := h.spells
    have hle := h.length_le (show blanks ∈ table by decide)
    have hpos := List.length_pos_of_ne_nil hne
    rw [hd, List.length_singleton, ← hd, ← heq, hlength] at hle
    have hone : blanks.length (c :: cs ++ rest') = (c :: cs).length := by
      rw [← heq, hlength, hd, List.length_singleton]
      omega
    exact absurd (h.idxOf_le hone) (by decide)

/-- A text is empty, or a lexeme wins at its beginning and the rest is a text. -/
@[elab_as_elim]
theorem wins_induction {motive : List Char → Prop} (nil : motive [])
    (step : ∀ rule lexeme rest, Wins rule lexeme rest → motive rest → motive (lexeme ++ rest)) (cs : List Char) :
    motive cs := by
  induction hn : cs.length using Nat.strong_induction_on generalizing cs with
  | _ n ih =>
    by_cases hcs : cs = []
    · exact hcs ▸ nil
    obtain ⟨rule, lexeme, rest, rfl, hwins⟩ := exists_wins hcs
    have hpos := hwins.pos
    rw [List.length_append] at hn
    exact step rule lexeme rest hwins (ih rest.length (by omega) rest rfl)

end Rule

theorem scanFrom_nil (p : Position) : scanFrom p [] = .ok [⟨.endOfFile, "", p⟩] := by
  rw [scanFrom]

/-- The scanner takes the lexeme that wins, and goes on with the rest. -/
theorem scanFrom_append (p : Position) {rule : Rule} {lexeme rest : List Char} (h : rule.Wins lexeme rest) :
    scanFrom p (lexeme ++ rest) = do
      let kind ← (rule.kind? lexeme).mapError (p, ·)
      let more ← scanFrom (p.after lexeme) rest
      return (kind.map fun kind => ⟨kind, String.ofList lexeme, p⟩).toList ++ more := by
  have hlongest := h.longest_eq
  obtain ⟨c, cs, rfl⟩ := List.exists_cons_of_ne_nil h.ne_nil
  have hlexeme : c :: (cs ++ rest).take ((c :: cs).length - 1) = c :: cs := by simp
  have hrest : (cs ++ rest).drop ((c :: cs).length - 1) = rest := by simp
  rw [List.cons_append] at hlongest ⊢
  rw [scanFrom, hlongest]
  dsimp only
  rw [hlexeme, hrest]
  cases (rule.kind? (c :: cs)).mapError (p, ·) with
  | error e => rfl
  | ok kind =>
    cases kind <;> rfl

section

variable {rule : Rule} {lexeme rest : List Char} {kind : Option Kind} {p : Position} {tokens more : List Token}

theorem scanFrom_append_ok (h : rule.Wins lexeme rest) (hkind : rule.kind? lexeme = .ok kind)
    (hmore : scanFrom (p.after lexeme) rest = .ok more) : scanFrom p (lexeme ++ rest) =
      .ok ((kind.map fun kind => ⟨kind, String.ofList lexeme, p⟩).toList ++ more) := by
  rw [scanFrom_append p h, hkind]
  change (do let more ← scanFrom (p.after lexeme) rest; _) = _
  rw [hmore]
  rfl

theorem exists_of_scanFrom_ok (h : rule.Wins lexeme rest) (hscan : scanFrom p (lexeme ++ rest) = .ok tokens) :
    ∃ kind more, rule.kind? lexeme = .ok kind ∧ scanFrom (p.after lexeme) rest = .ok more ∧
      tokens = (kind.map fun kind => ⟨kind, String.ofList lexeme, p⟩).toList ++ more := by
  rw [scanFrom_append p h] at hscan
  cases hkind : rule.kind? lexeme with
  | error fault => rw [hkind] at hscan; cases hscan
  | ok kind =>
    cases hmore : scanFrom (p.after lexeme) rest with
    | error e => rw [hkind, hmore] at hscan; cases hscan
    | ok more =>
      rw [hkind, hmore] at hscan
      cases hscan
      exact ⟨kind, more, rfl, rfl, rfl⟩

end

end TapeC.Token
