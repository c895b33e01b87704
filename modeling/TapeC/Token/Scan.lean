import TapeC.Token.Rule

/-! Cutting a source text into tokens, from its beginning. -/

namespace TapeC.Token

/-- The tokens of a text that begins at `p`, closed by one that marks its end. A
text that cannot be cut is refused at the first place where no token begins. -/
def scanFrom (p : Position) : List Char → Except (Position × Fault) (List Token)
  | [] => .ok [⟨.endOfFile, "", p⟩]
  | c :: cs => do
    let (rule, n) := Rule.longest (c :: cs) Rule.table
    let lexeme := c :: cs.take (n - 1)
    let kind ← (rule.kind? lexeme).mapError (p, ·)
    let rest ← scanFrom (p.after lexeme) (cs.drop (n - 1))
    return match kind with
      | some kind => ⟨kind, String.ofList lexeme, p⟩ :: rest
      | none => rest
termination_by cs => cs.length
decreasing_by simp only [List.length_drop, List.length_cons]; omega

/-- The tokens of a source text. -/
def scan (source : String) : Except (Position × Fault) (List Token) :=
  scanFrom .start source.toList

end TapeC.Token
