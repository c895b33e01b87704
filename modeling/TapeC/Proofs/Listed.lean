import TapeC.Proofs.Block
import TapeC.Proofs.TextMachine

/-! Where the instructions of a block stand in the text that it was read from. Between them
there are comments alone; a move stands for a whole run of moves, which another move does
not follow, and an addition for a run of additions; a loop has its two brackets. Every
text with balanced brackets is read into such a block. -/

namespace TapeC.Tape

/-- There are only comments from the place `i` up to the place `j`. -/
inductive Blank (cs : List Char) : Nat → Nat → Prop where
  | refl (i : Nat) : Blank cs i i
  | cons {i j : Nat} {c : Char} (hc : cs[i]? = some c) (hi : isInstruction c = false)
      (h : Blank cs (i + 1) j) : Blank cs i j

/-- How far a character moves the head. -/
def distance? : Char → Option Int
  | '>' => some 1
  | '<' => some (-1)
  | _ => none

/-- What a character adds to the cell under the head. -/
def amount? : Char → Option Cell
  | '+' => some 1
  | '-' => some (-1)
  | _ => none

theorem isInstruction_of_distance? {c : Char} {d : Int} (h : distance? c = some d) : isInstruction c = true := by
  unfold distance? at h
  split at h
  · rfl
  · rfl
  · cases h

theorem isInstruction_of_amount? {c : Char} {v : Cell} (h : amount? c = some v) : isInstruction c = true := by
  unfold amount? at h
  split at h
  · rfl
  · rfl
  · cases h

namespace Block

def startsWithMove : Block → Bool
  | move .. => true
  | _ => false

/-- The block is what stands in the text from the place `i` up to the place `j`. -/
inductive Lists (cs : List Char) : Nat → Nat → Block → Prop where
  | nil {i j : Nat} (hb : Blank cs i j) : Lists cs i j .nil
  | move {i j k : Nat} {c : Char} {d : Int} {b : Block} (hb : Blank cs i k) (hc : cs[k]? = some c)
      (hd : distance? c = some d) (h : Lists cs (k + 1) j b) (hlast : b.startsWithMove = false) :
      Lists cs i j (.move k d b)
  | moves {i j k p : Nat} {c : Char} {d e : Int} {b : Block} (hb : Blank cs i k) (hc : cs[k]? = some c)
      (hd : distance? c = some d) (h : Lists cs (k + 1) j (.move p e b)) : Lists cs i j (.move k (d + e) b)
  | add {i j k : Nat} {c : Char} {v : Cell} {b : Block} (hb : Blank cs i k) (hc : cs[k]? = some c)
      (hv : amount? c = some v) (h : Lists cs (k + 1) j b) : Lists cs i j (.add k v b)
  | adds {i j k p : Nat} {c : Char} {v w : Cell} {b : Block} (hb : Blank cs i k) (hc : cs[k]? = some c)
      (hv : amount? c = some v) (h : Lists cs (k + 1) j (.add p w b)) : Lists cs i j (.add k (v + w) b)
  | write {i j k : Nat} {b : Block} (hb : Blank cs i k) (hc : cs[k]? = some '.')
      (h : Lists cs (k + 1) j b) : Lists cs i j (.write k b)
  | read {i j k : Nat} {b : Block} (hb : Blank cs i k) (hc : cs[k]? = some ',')
      (h : Lists cs (k + 1) j b) : Lists cs i j (.read k b)
  | loop {i j k q : Nat} {body b : Block} (hb : Blank cs i k) (hopen : cs[k]? = some '[')
      (hbody : Lists cs (k + 1) q body) (hclose : cs[q]? = some ']') (h : Lists cs (q + 1) j b) :
      Lists cs i j (.loop k q body b)

variable {cs ds : List Char} {c : Char} {i j k q depth : Nat} {b : Block} {d : Int} {v : Cell}
  {r : Reader}

/-! ### Reading -/

theorem Lists.comment (h : Lists cs (i + 1) j b) (hc : cs[i]? = some c) (hi : isInstruction c = false) :
    Lists cs i j b := by
  cases h with
  | nil hb => exact .nil (.cons hc hi hb)
  | move hb hc' hd h hlast => exact .move (.cons hc hi hb) hc' hd h hlast
  | moves hb hc' hd h => exact .moves (.cons hc hi hb) hc' hd h
  | add hb hc' hv h => exact .add (.cons hc hi hb) hc' hv h
  | adds hb hc' hv h => exact .adds (.cons hc hi hb) hc' hv h
  | write hb hc' h => exact .write (.cons hc hi hb) hc' h
  | read hb hc' h => exact .read (.cons hc hi hb) hc' h
  | loop hb ho hbody hcl h => exact .loop (.cons hc hi hb) ho hbody hcl h

theorem Lists.consMove (h : Lists cs (i + 1) j b) (hc : cs[i]? = some c) (hd : distance? c = some d) :
    Lists cs i j (consMove i d b) := by
  cases b with
  | move => exact .moves (.refl i) hc hd h
  | nil | add | write | read | loop => exact .move (.refl i) hc hd h rfl

theorem Lists.consAdd (h : Lists cs (i + 1) j b) (hc : cs[i]? = some c) (hv : amount? c = some v) :
    Lists cs i j (consAdd i v b) := by
  cases b with
  | add => exact .adds (.refl i) hc hv h
  | nil | move | write | read | loop => exact .add (.refl i) hc hv h

/-- A character that is not a bracket is read. -/
theorem Lists.cons (h : Lists cs (i + 1) j r.current) (hc : cs[i]? = some c) (hopen : c ≠ '[')
    (hclose : c ≠ ']') : (r.cons i c).outer = r.outer ∧ (r.cons i c).unclosed = r.unclosed ∧
      Lists cs i j (r.cons i c).current := by
  unfold Reader.cons
  split
  · exact ⟨rfl, rfl, h.consMove hc rfl⟩
  · exact ⟨rfl, rfl, h.consMove hc rfl⟩
  · exact ⟨rfl, rfl, h.consAdd hc rfl⟩
  · exact ⟨rfl, rfl, h.consAdd hc rfl⟩
  · exact ⟨rfl, rfl, .write (.refl i) hc h⟩
  · exact ⟨rfl, rfl, .read (.refl i) hc h⟩
  · exact absurd rfl hclose
  · exact absurd rfl hopen
  next h₁ h₂ h₃ h₄ h₅ h₆ h₇ h₈ =>
    refine ⟨rfl, rfl, h.comment hc ?_⟩
    simp only [isInstruction, instructions, List.contains_eq_mem, List.mem_cons, List.not_mem_nil, or_false,
      decide_eq_false_iff_not, not_or]
    exact ⟨h₁, h₂, h₃, h₄, h₅, h₆, h₈, h₇⟩

theorem getElem?_of_cons_prefix (h : c :: ds <+: cs.drop k) : cs[k]? = some c ∧ ds <+: cs.drop (k + 1) := by
  obtain ⟨rest, h⟩ := h
  constructor
  · rw [← Nat.add_zero k, ← List.getElem?_drop, ← h]
    rfl
  · exact ⟨rest, by rw [← List.drop_drop, ← h]; rfl⟩

theorem prefix_of_append_prefix {es : List Char} (h : ds ++ es <+: cs.drop k) :
    ds <+: cs.drop k ∧ es <+: cs.drop (k + ds.length) := by
  obtain ⟨rest, h⟩ := h
  rw [List.append_assoc] at h
  exact ⟨⟨_, h⟩, rest, by rw [← List.drop_drop, ← h, List.drop_left]⟩

/-- The places of a loop, of its body and of what follows it. -/
theorem places_of_loop_prefix {body rest : List Char} (h : '[' :: body ++ ']' :: rest <+: cs.drop k) :
    cs[k]? = some '[' ∧ body <+: cs.drop (k + 1) ∧ cs[k + 1 + body.length]? = some ']' ∧
      rest <+: cs.drop (k + 1 + body.length + 1) := by
  obtain ⟨hopen, h⟩ := getElem?_of_cons_prefix (List.cons_append ▸ h)
  obtain ⟨hbody, h⟩ := prefix_of_append_prefix h
  exact ⟨hopen, hbody, getElem?_of_cons_prefix h⟩

theorem add_length_loop (k : Nat) (body rest : List Char) :
    k + ('[' :: body ++ ']' :: rest).length = k + 1 + body.length + 1 + rest.length := by
  simp only [List.cons_append, List.length_cons, List.length_append]
  omega

/-- A balanced part of the text is read in front of what follows it. -/
theorem lists_of_balanced {part : List Char} (hpart : Balanced part) (hk : part <+: cs.drop k)
    (hr : Lists cs (k + part.length) j r.current) :
    (Joining.full.read k part r).outer = r.outer ∧ (Joining.full.read k part r).unclosed = r.unclosed ∧
      Lists cs k j (Joining.full.read k part r).current := by
  induction hpart generalizing k r j with
  | nil => exact ⟨rfl, rfl, hr⟩
  | @cons c part hopen hclose _ ih =>
    obtain ⟨hc, hpart⟩ := getElem?_of_cons_prefix hk
    obtain ⟨ho, hu, hl⟩ := ih hpart (by rwa [List.length_cons, ← Nat.add_assoc, Nat.add_right_comm] at hr)
    obtain ⟨ho', hu', hl'⟩ := hl.cons hc hopen hclose
    rw [Joining.read_cons, Joining.cons_full]
    exact ⟨ho'.trans ho, hu'.trans hu, hl'⟩
  | @loop body rest _ _ ihbody ihrest =>
    obtain ⟨hopen, hbody, hclose, hrest⟩ := places_of_loop_prefix hk
    obtain ⟨ho, hu, hl⟩ := ihrest hrest (add_length_loop k body rest ▸ hr)
    -- the body is read after its closing bracket, which starts a block of its own
    rw [List.cons_append, Joining.read_cons, Joining.read_append, Joining.read_cons]
    generalize Joining.full.read (k + 1 + body.length + 1) rest r = r₁ at ho hu hl
    rw [Joining.cons_full]
    obtain ⟨ho', hu', hl'⟩ := ihbody (r := r₁.cons (k + 1 + body.length) ']') (j := k + 1 + body.length) hbody
      (.nil (.refl _))
    generalize Joining.full.read (k + 1) body _ = r₂ at ho' hu' hl'
    have hread : r₂.cons k '[' = { r₂ with
        current := .loop k (k + 1 + body.length) r₂.current r₁.current, outer := r₁.outer } := by
      obtain ⟨current, outer, unclosed⟩ := r₂
      subst ho'
      rfl
    rw [hread]
    exact ⟨ho, hu'.trans hu, .loop (.refl k) hopen hl' hclose hl⟩

theorem ofChars_of_balanced (h : Balanced cs) : ∃ b, ofChars cs = .ok b ∧ Lists cs 0 cs.length b := by
  obtain ⟨ho, hu, hl⟩ := lists_of_balanced (k := 0) (r := {}) h (List.prefix_refl cs)
    (.nil (by rw [Nat.zero_add]; exact .refl _))
  exact ⟨_, ofChars_of_read ho hu, hl⟩

/-! ### Partners of brackets -/

theorem drop_of_getElem? (h : cs[k]? = some c) : cs.drop k = c :: cs.drop (k + 1) := by
  obtain ⟨hk, rfl⟩ := List.getElem?_eq_some_iff.1 h
  exact List.drop_eq_getElem_cons hk

theorem reverse_take_of_getElem? (h : cs[k]? = some c) : (cs.take (k + 1)).reverse = c :: (cs.take k).reverse := by
  rw [List.take_add_one, h, List.reverse_append]
  rfl

/-- A search for a partner, to either side, passes what is between the places `i` and `j`. -/
structure Passed (cs : List Char) (i j : Nat) : Prop where
  le : i ≤ j
  forth : ∀ depth, toPartner '[' ']' depth (cs.drop i) = toPartner '[' ']' depth (cs.drop j) + (j - i)
  back : ∀ depth, toPartner ']' '[' depth (cs.take j).reverse =
    toPartner ']' '[' depth (cs.take i).reverse + (j - i)

theorem Passed.refl : Passed cs i i := ⟨Nat.le_refl i, fun _ => by simp, fun _ => by simp⟩

theorem Passed.trans (h : Passed cs i j) (h' : Passed cs j k) : Passed cs i k where
  le := Nat.le_trans h.le h'.le
  forth depth := by
    have := h.le
    have := h'.le
    rw [h.forth, h'.forth]
    omega
  back depth := by
    have := h.le
    have := h'.le
    rw [h'.back, h.back]
    omega

theorem Passed.char (hc : cs[k]? = some c) (hopen : c ≠ '[') (hclose : c ≠ ']') : Passed cs k (k + 1) where
  le := Nat.le_add_right k 1
  forth depth := by rw [drop_of_getElem? hc, toPartner_other hopen hclose, Nat.add_sub_cancel_left]
  back depth := by rw [reverse_take_of_getElem? hc, toPartner_other hclose hopen, Nat.add_sub_cancel_left]

theorem Passed.loop (hopen : cs[k]? = some '[') (h : Passed cs (k + 1) q) (hclose : cs[q]? = some ']') :
    Passed cs k (q + 1) where
  le := by
    have := h.le
    omega
  forth depth := by
    have := h.le
    rw [drop_of_getElem? hopen, toPartner_inward (by decide), h.forth, drop_of_getElem? hclose, toPartner_outward]
    omega
  back depth := by
    have := h.le
    rw [reverse_take_of_getElem? hclose, toPartner_inward (by decide), h.back, reverse_take_of_getElem? hopen,
      toPartner_outward]
    omega

theorem passed_of_balanced {part : List Char} (hpart : Balanced part) (hk : part <+: cs.drop k) :
    Passed cs k (k + part.length) := by
  induction hpart generalizing k with
  | nil => exact .refl
  | @cons c part hopen hclose _ ih =>
    obtain ⟨hc, hpart⟩ := getElem?_of_cons_prefix hk
    rw [List.length_cons, Nat.add_comm part.length, ← Nat.add_assoc]
    exact (Passed.char hc hopen hclose).trans (ih hpart)
  | @loop body rest _ _ ihbody ihrest =>
    obtain ⟨hopen, hbody, hclose, hrest⟩ := places_of_loop_prefix hk
    rw [add_length_loop]
    exact (Passed.loop hopen (ihbody hbody) hclose).trans (ihrest hrest)

theorem closing_of_passed (h : Passed cs (k + 1) q) (hclose : cs[q]? = some ']') : closing cs k = q := by
  have := h.le
  rw [closing, h.forth, drop_of_getElem? hclose, toPartner_partner]
  omega

theorem opening_of_passed (hopen : cs[k]? = some '[') (h : Passed cs (k + 1) q) : opening cs q = k := by
  have := h.le
  rw [opening, h.back, reverse_take_of_getElem? hopen, toPartner_partner]
  omega

theorem ne_bracket_of_not_instruction (h : isInstruction c = false) : c ≠ '[' ∧ c ≠ ']' := by
  constructor <;> (rintro rfl; cases h)

theorem ne_bracket_of_distance? (h : distance? c = some d) : c ≠ '[' ∧ c ≠ ']' := by
  constructor <;> (rintro rfl; cases h)

theorem ne_bracket_of_amount? (h : amount? c = some v) : c ≠ '[' ∧ c ≠ ']' := by
  constructor <;> (rintro rfl; cases h)

/-- The text from the place `i` up to the place `j` is balanced. -/
def BalancedBetween (cs : List Char) (i j : Nat) : Prop :=
  ∃ part, Balanced part ∧ part <+: cs.drop i ∧ j = i + part.length

namespace BalancedBetween

theorem refl : BalancedBetween cs i i := ⟨[], .nil, List.nil_prefix, rfl⟩

theorem trans (h : BalancedBetween cs i j) (h' : BalancedBetween cs j k) : BalancedBetween cs i k := by
  obtain ⟨part, hpart, ⟨rest, hrest⟩, rfl⟩ := h
  obtain ⟨part', hpart', hk, rfl⟩ := h'
  refine ⟨part ++ part', hpart.append hpart', ?_, by rw [List.length_append, Nat.add_assoc]⟩
  rw [← List.drop_drop, ← hrest, List.drop_left] at hk
  rw [← hrest]
  exact (List.prefix_append_right_inj part).2 hk

theorem char (hc : cs[k]? = some c) (hopen : c ≠ '[') (hclose : c ≠ ']') : BalancedBetween cs k (k + 1) :=
  ⟨[c], .cons hopen hclose .nil, ⟨cs.drop (k + 1), (drop_of_getElem? hc).symm⟩, rfl⟩

theorem loop (hopen : cs[k]? = some '[') (h : BalancedBetween cs (k + 1) q) (hclose : cs[q]? = some ']') :
    BalancedBetween cs k (q + 1) := by
  obtain ⟨body, hbody, ⟨rest, hrest⟩, rfl⟩ := h
  have hlength : k + 1 + body.length + 1 = k + ('[' :: body ++ [']']).length := by
    simp only [List.length_append, List.length_cons, List.length_nil]
    omega
  refine ⟨'[' :: body ++ [']'], .loop hbody .nil, ?_, hlength⟩
  have hdrop : rest = ']' :: cs.drop (k + 1 + body.length + 1) := by
    rw [← drop_of_getElem? hclose, ← List.drop_drop, ← hrest, List.drop_left]
  rw [drop_of_getElem? hopen, ← hrest, hdrop]
  exact ⟨cs.drop (k + 1 + body.length + 1), by simp⟩

theorem passed (h : BalancedBetween cs i j) : Passed cs i j := by
  obtain ⟨part, hpart, hk, rfl⟩ := h
  exact passed_of_balanced hpart hk

theorem of_blank (h : Blank cs i j) : BalancedBetween cs i j := by
  induction h with
  | refl => exact .refl
  | cons hc hi _ ih =>
    obtain ⟨ho, hcl⟩ := ne_bracket_of_not_instruction hi
    exact (char hc ho hcl).trans ih

end BalancedBetween

theorem Lists.balancedBetween (h : Lists cs i j b) : BalancedBetween cs i j := by
  induction h with
  | nil hb => exact .of_blank hb
  | move hb hc hd _ _ ih | moves hb hc hd _ ih =>
    obtain ⟨ho, hcl⟩ := ne_bracket_of_distance? hd
    exact (BalancedBetween.of_blank hb).trans ((BalancedBetween.char hc ho hcl).trans ih)
  | add hb hc hv _ ih | adds hb hc hv _ ih =>
    obtain ⟨ho, hcl⟩ := ne_bracket_of_amount? hv
    exact (BalancedBetween.of_blank hb).trans ((BalancedBetween.char hc ho hcl).trans ih)
  | write hb hc _ ih | read hb hc _ ih =>
    exact (BalancedBetween.of_blank hb).trans ((BalancedBetween.char hc (by decide) (by decide)).trans ih)
  | loop hb hopen _ hclose _ ihbody ih =>
    exact (BalancedBetween.of_blank hb).trans ((BalancedBetween.loop hopen ihbody hclose).trans ih)

theorem Lists.passed (h : Lists cs i j b) : Passed cs i j := h.balancedBetween.passed

/-! ### The next instruction -/

theorem find_of_blank (h : Blank cs i j) :
    (cs.drop i).find? isInstruction = (cs.drop j).find? isInstruction := by
  induction h with
  | refl => rfl
  | cons hc hi _ ih => rw [drop_of_getElem? hc, List.find?_cons_of_neg (by simp [hi]), ih]

theorem find_of_getElem? (hb : Blank cs i k) (hc : cs[k]? = some c) (hi : isInstruction c = true) :
    (cs.drop i).find? isInstruction = some c := by
  rw [find_of_blank hb, drop_of_getElem? hc, List.find?_cons_of_pos hi]

end Block

namespace TextMachine

open Block

variable {cs : List Char} {c : Char} {i j k : Nat} {b : Block} {d : Int} {u : State}

theorem not_resting (hb : Blank cs u.place k) (hc : cs[k]? = some c) (hd : distance? c = some d) :
    ¬ Resting cs u := by
  intro h
  obtain ⟨hr, hl⟩ := h c (find_of_getElem? hb hc (isInstruction_of_distance? hd))
  unfold distance? at hd
  split at hd
  · exact hr rfl
  · exact hl rfl
  · cases hd

/-- In front of a block that does not start with a move, and of the bracket that closes a loop
or the end of the text, the head rests. -/
theorem resting_of_lists (h : Lists cs u.place j b) (hmove : b.startsWithMove = false)
    (hj : cs[j]? = some ']' ∨ cs[j]? = none) : Resting cs u := by
  intro c hc
  cases h with
  | nil hb =>
    rcases hj with hj | hj
    · rw [find_of_getElem? hb hj rfl] at hc
      cases hc
      decide
    · rw [find_of_blank hb, List.drop_eq_nil_of_le (List.getElem?_eq_none_iff.1 hj)] at hc
      cases hc
  | move | moves => cases hmove
  | add hb hc' hv | adds hb hc' hv =>
    rw [find_of_getElem? hb hc' (isInstruction_of_amount? hv)] at hc
    cases hc
    constructor <;> (rintro rfl; cases hv)
  | write hb hc' | read hb hc' =>
    rw [find_of_getElem? hb hc' rfl] at hc
    cases hc
    decide
  | loop hb hopen =>
    rw [find_of_getElem? hb hopen rfl] at hc
    cases hc
    decide

end TextMachine
end TapeC.Tape
