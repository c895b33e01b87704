import TapeC.Proofs.Listed
import TapeC.Proofs.Machine
import Mathlib.Order.Bounds.Basic

/-! The brackets of a loaded text. A text is loaded if its brackets are balanced, and then the two
ends of each loop know each other; else the first closing bracket without a partner is reported, or
the last opening one if all closing ones have partners. A text is read from its end, and what has
been read falls into balanced parts between the brackets that have no partner yet. -/

namespace TapeC.Tape

/-- The brackets at the places `i` and `j` belong together: the text between them is balanced. -/
def Partners (cs : List Char) (i j : Nat) : Prop :=
  ∃ before inner after, cs = before ++ '[' :: (inner ++ ']' :: after) ∧ Balanced inner ∧
    i = before.length ∧ j = before.length + 1 + inner.length

/-- The character `c` stands at the place `p` and is no bracket that has a partner. -/
def Unmatched (cs : List Char) (c : Char) (p : Nat) : Prop :=
  cs[p]? = some c ∧ ∀ i j, Partners cs i j → p ≠ i ∧ p ≠ j

/-- The bracket that is to be reported: the first closing one without a partner, and if there is
none the last opening one. -/
def Reported (cs : List Char) (p : Nat) : Prop :=
  IsLeast {q | Unmatched cs ']' q} p ∨ (∀ q, ¬ Unmatched cs ']' q) ∧ IsGreatest {q | Unmatched cs '[' q} p

variable {cs ds part : List Char} {c : Char} {i j k p q : Nat}

/-! ### Partners -/

namespace Partners

theorem opens (h : Partners cs i j) : cs[i]? = some '[' := by
  obtain ⟨before, inner, after, rfl, -, rfl, -⟩ := h
  rw [List.getElem?_append_right (Nat.le_refl _), Nat.sub_self, List.getElem?_cons_zero]

theorem closes (h : Partners cs i j) : cs[j]? = some ']' := by
  obtain ⟨before, inner, after, rfl, -, -, rfl⟩ := h
  rw [List.getElem?_append_right (by omega), show before.length + 1 + inner.length - before.length = inner.length + 1 by omega,
    List.getElem?_cons_succ, List.getElem?_append_right (Nat.le_refl _), Nat.sub_self, List.getElem?_cons_zero]

theorem append_right (h : Partners cs i j) : Partners (cs ++ ds) i j := by
  obtain ⟨before, inner, after, rfl, hinner, hi, hj⟩ := h
  exact ⟨before, inner, after ++ ds, by simp, hinner, hi, hj⟩

theorem append_left (h : Partners ds i j) : Partners (cs ++ ds) (cs.length + i) (cs.length + j) := by
  obtain ⟨before, inner, after, rfl, hinner, rfl, rfl⟩ := h
  exact ⟨cs ++ before, inner, after, by simp, hinner, by simp, by simp [Nat.add_assoc]⟩

/-- A bracket has one partner: it is found by counting. -/
theorem closing (h : Partners cs i j) : closing cs i = j := by
  have hclose := h.closes
  obtain ⟨before, inner, after, rfl, hinner, rfl, rfl⟩ := h
  refine Block.closing_of_passed (Block.passed_of_balanced hinner ⟨']' :: after, ?_⟩) hclose
  rw [List.drop_length_add_append]
  rfl

theorem opening (h : Partners cs i j) : opening cs j = i := by
  have hopen := h.opens
  obtain ⟨before, inner, after, rfl, hinner, rfl, rfl⟩ := h
  refine Block.opening_of_passed hopen (Block.passed_of_balanced hinner ⟨']' :: after, ?_⟩)
  rw [List.drop_length_add_append]
  rfl

end Partners

theorem Unmatched.of_append_left (cs : List Char) (h : Unmatched (cs ++ ds) c (cs.length + p)) : Unmatched ds c p := by
  refine ⟨?_, fun i j hij => ?_⟩
  · have hp := h.1
    rwa [List.getElem?_append_right (Nat.le_add_right ..), Nat.add_sub_cancel_left] at hp
  · have := h.2 _ _ hij.append_left
    omega

theorem Unmatched.of_append_right (hp : p < cs.length) (h : Unmatched (cs ++ ds) c p) : Unmatched cs c p :=
  ⟨by rw [← h.1, List.getElem?_append_left hp], fun i j hij => h.2 i j hij.append_right⟩

/-- In a balanced text all brackets have partners. -/
theorem Balanced.not_unmatched (h : Balanced cs) (hc : c = '[' ∨ c = ']') (p : Nat) : ¬ Unmatched cs c p := by
  induction h generalizing p with
  | nil => exact fun h => nomatch h.1
  | @cons d cs hopen hclose _ ih =>
    intro h
    cases p with
    | zero =>
      cases h.1
      exact hc.elim hopen hclose
    | succ p =>
      rw [Nat.add_comm] at h
      exact ih p (h.of_append_left [d])
  | @loop body rest hbody _ ihbody ihrest =>
    intro h
    have hself : Partners ('[' :: body ++ ']' :: rest) 0 (1 + body.length) :=
      ⟨[], body, rest, rfl, hbody, rfl, by simp⟩
    obtain ⟨hopen, hclose⟩ := h.2 _ _ hself
    by_cases hp : p < 1 + body.length
    · obtain ⟨p, rfl⟩ := Nat.exists_eq_succ_of_ne_zero hopen
      have hfirst := h.of_append_right (by simpa [Nat.add_comm] using hp)
      rw [Nat.succ_eq_one_add] at hfirst
      exact ihbody p (hfirst.of_append_left ['['])
    · obtain ⟨p, rfl⟩ := Nat.exists_eq_add_of_le (show 1 + body.length + 1 ≤ p by omega)
      refine ihrest p (.of_append_left ('[' :: body ++ [']']) ?_)
      simpa [Nat.add_comm, Nat.add_left_comm] using h

/-! ### Counting -/

/-- From the start of the text on, there are never more closing brackets than opening ones. -/
def Rising (cs : List Char) : Prop := ∀ n, (cs.take n).count ']' ≤ (cs.take n).count '['

theorem Balanced.count_eq (h : Balanced cs) : cs.count '[' = cs.count ']' := by
  induction h with
  | nil => rfl
  | cons hopen hclose _ ih => rwa [List.count_cons_of_ne hopen, List.count_cons_of_ne hclose]
  | loop _ _ ihbody ihrest => simp [ihbody, ihrest, Nat.add_assoc]

theorem Rising.append (h : Rising cs) (h' : Rising ds) : Rising (cs ++ ds) := by
  intro n
  rw [List.take_append, List.count_append, List.count_append]
  exact Nat.add_le_add (h n) (h' _)

theorem Rising.opening (h : Rising cs) : Rising ('[' :: cs) := by
  intro n
  cases n with
  | zero => exact Nat.le_refl _
  | succ n =>
    rw [List.take_succ_cons, List.count_cons_self, List.count_cons_of_ne (by decide)]
    exact Nat.le_succ_of_le (h n)

theorem Balanced.rising (h : Balanced cs) : Rising cs := by
  induction h with
  | nil => simp [Rising]
  | @cons c cs hopen hclose _ ih =>
    intro n
    cases n with
    | zero => exact Nat.le_refl _
    | succ n =>
      rw [List.take_succ_cons, List.count_cons_of_ne hopen, List.count_cons_of_ne hclose]
      exact ih n
  | @loop body rest hbody _ ihbody ihrest =>
    intro n
    cases n with
    | zero => exact Nat.le_refl _
    | succ n =>
      have hfirst := ihbody n
      rw [List.cons_append, List.take_succ_cons, List.count_cons_self, List.count_cons_of_ne (by decide),
        List.take_append, List.count_append, List.count_append]
      cases hn : n - body.length with
      | zero => simpa using Nat.le_succ_of_le hfirst
      | succ m =>
        have hrest := ihrest m
        have hcount := hbody.count_eq
        rw [List.take_succ_cons, List.count_cons_self, List.count_cons_of_ne (by decide),
          List.take_of_length_le (by omega)]
        omega

/-- An opening bracket has no partner if nothing after it closes more than is opened. -/
theorem Rising.unmatched (h : Rising ds) : Unmatched (cs ++ '[' :: ds) '[' cs.length := by
  have hself : (cs ++ '[' :: ds)[cs.length]? = some '[' := by simp
  refine ⟨hself, fun i j hij => ⟨?_, ?_⟩⟩
  · rintro rfl
    obtain ⟨before, inner, after, heq, hinner, hlength, -⟩ := hij
    obtain ⟨-, heq⟩ := List.append_inj heq hlength
    cases heq
    have hcount := h (inner.length + 1)
    have hfirst : ((']' :: after).take 1).count ']' = 1 ∧ ((']' :: after).take 1).count '[' = 0 := ⟨rfl, rfl⟩
    rw [List.take_length_add_append, List.count_append, List.count_append, hinner.count_eq, hfirst.1, hfirst.2] at hcount
    exact Nat.not_succ_le_self _ hcount
  · rintro rfl
    cases hself.symm.trans hij.closes

/-- A closing bracket has no partner after a balanced text. -/
theorem Balanced.unmatched (h : Balanced cs) : Unmatched (cs ++ ']' :: ds) ']' cs.length := by
  have hself : (cs ++ ']' :: ds)[cs.length]? = some ']' := by simp
  refine ⟨hself, fun i j hij => ⟨?_, ?_⟩⟩
  · rintro rfl
    cases hself.symm.trans hij.opens
  · rintro rfl
    obtain ⟨before, inner, after, heq, hinner, -, hlength⟩ := hij
    rw [← List.cons_append, ← List.append_assoc] at heq
    obtain ⟨rfl, -⟩ := List.append_inj heq (by simp only [List.length_append, List.length_cons]; omega)
    have hcount := h.count_eq
    have hbefore := h.rising before.length
    have hinner := hinner.count_eq
    simp only [List.take_left, List.count_append, List.count_cons_self,
      List.count_cons_of_ne (show '[' ≠ ']' by decide)] at hcount hbefore
    omega

/-! ### Texts without partners for some brackets -/

/-- Balanced parts with opening brackets between them, and the place of the last of these, in a
text that starts at the place `k`. -/
inductive Opened : Nat → List Char → Option Nat → Prop where
  | balanced {k : Nat} {part : List Char} (hpart : Balanced part) : Opened k part none
  | bracket {k : Nat} {part ds : List Char} {last : Option Nat} (hpart : Balanced part)
      (h : Opened (k + part.length + 1) ds last) :
      Opened k (part ++ '[' :: ds) (last.or (some (k + part.length)))

/-- Balanced parts with closing brackets between them, whose places are in the list, and after
these with opening ones. -/
inductive Torn : Nat → List Char → List Nat → Option Nat → Prop where
  | opened {k : Nat} {ds : List Char} {last : Option Nat} (h : Opened k ds last) : Torn k ds [] last
  | bracket {k : Nat} {part ds : List Char} {closing : List Nat} {last : Option Nat} (hpart : Balanced part)
      (h : Torn (k + part.length + 1) ds closing last) :
      Torn k (part ++ ']' :: ds) ((k + part.length) :: closing) last

variable {closing : List Nat} {last : Option Nat}

theorem Opened.prepend (hpart : Balanced part) (h : Opened (k + part.length) ds last) : Opened k (part ++ ds) last := by
  cases h with
  | balanced h => exact .balanced (hpart.append h)
  | @bracket _ part' ds last h' h =>
    rw [Nat.add_assoc k, ← List.length_append] at h ⊢
    rw [← List.append_assoc]
    exact .bracket (hpart.append h') h

/-- A balanced text may be put in front. -/
theorem Torn.prepend (hpart : Balanced part) (h : Torn (k + part.length) ds closing last) :
    Torn k (part ++ ds) closing last := by
  cases h with
  | opened h => exact .opened (h.prepend hpart)
  | @bracket _ part' ds closing last h' h =>
    rw [Nat.add_assoc k, ← List.length_append] at h ⊢
    rw [← List.append_assoc]
    exact .bracket (hpart.append h') h

theorem Opened.rising (h : Opened k ds last) : Rising ds := by
  induction h with
  | balanced h => exact h.rising
  | bracket h _ ih => exact h.rising.append ih.opening

theorem Opened.le (h : Opened k ds last) (hq : q ∈ last) : k ≤ q := by
  induction h with
  | balanced => cases hq
  | bracket _ _ ih =>
    rcases Option.or_eq_some_iff.1 hq with hq | ⟨-, hq⟩
    · have := ih hq
      omega
    · cases hq
      exact Nat.le_add_right _ _

/-- All closing brackets have partners, and so have the opening ones after the last of those that
stand between the parts. -/
theorem Opened.unmatched_le (h : Opened k ds last) (hc : c = '[' ∨ c = ']') (hp : Unmatched ds c p) :
    c = '[' ∧ ∃ q ∈ last, k + p ≤ q := by
  induction h generalizing p with
  | balanced h => exact absurd hp (h.not_unmatched hc p)
  | @bracket k part ds last hpart h ih =>
    rcases Nat.lt_trichotomy p part.length with hlt | rfl | hlt
    · exact absurd (hp.of_append_right hlt) (hpart.not_unmatched hc p)
    · obtain rfl : '[' = c := by simpa using hp.1
      cases hlast : last with
      | none => exact ⟨rfl, _, rfl, Nat.le_refl _⟩
      | some q =>
        have := h.le hlast
        exact ⟨rfl, q, rfl, by omega⟩
    · obtain ⟨p, rfl⟩ := Nat.exists_eq_add_of_le (show part.length + 1 ≤ p by omega)
      have hrest : Unmatched ((part ++ ['[']) ++ ds) c ((part ++ ['[']).length + p) := by simpa using hp
      obtain ⟨rfl, q, hq, hle⟩ := ih (hrest.of_append_left _)
      exact ⟨rfl, q, Option.or_eq_some_iff.2 (.inl hq), by omega⟩

theorem Opened.split (h : Opened k ds last) (hq : q ∈ last) :
    ∃ before after, ds = before ++ '[' :: after ∧ q = k + before.length ∧ Rising after := by
  induction h with
  | balanced => cases hq
  | @bracket k part ds last _ h ih =>
    rcases Option.or_eq_some_iff.1 hq with hq | ⟨-, hq⟩
    · obtain ⟨before, after, rfl, rfl, hafter⟩ := ih hq
      refine ⟨part ++ '[' :: before, after, by simp, ?_, hafter⟩
      simp only [List.length_append, List.length_cons]
      omega
    · cases hq
      exact ⟨part, ds, rfl, rfl, h.rising⟩

theorem Torn.balanced (h : Torn k cs [] none) : Balanced cs := by
  cases h with
  | opened h =>
    generalize hlast : none = last at h
    cases h with
    | balanced h => exact h
    | @bracket _ _ _ last => cases last <;> cases hlast

theorem Torn.reported_closing (h : Torn 0 cs (q :: closing) last) : Reported cs q := by
  cases h with
  | @bracket _ part ds _ _ hpart _ =>
    rw [Nat.zero_add]
    refine .inl ⟨hpart.unmatched, fun p hp => ?_⟩
    by_contra hlt
    exact hpart.not_unmatched (.inr rfl) p (hp.of_append_right (Nat.lt_of_not_le hlt))

theorem Torn.reported_opening (h : Torn 0 cs [] (some q)) : Reported cs q := by
  cases h with
  | opened h =>
    refine .inr ⟨fun p hp => ?_, ?_, fun p hp => ?_⟩
    · cases (h.unmatched_le (.inr rfl) hp).1
    · obtain ⟨before, after, rfl, rfl, hafter⟩ := h.split rfl
      rw [Nat.zero_add]
      exact hafter.unmatched
    · obtain ⟨-, q, ⟨⟩, hle⟩ := h.unmatched_le (.inl rfl) hp
      omega

namespace Block

open Joining

theorem Reader.cons_of_ne {r : Reader} (hopen : c ≠ '[') (hclose : c ≠ ']') :
    (r.cons k c).outer = r.outer ∧ (r.cons k c).unclosed = r.unclosed := by
  unfold Reader.cons
  split <;> first | exact ⟨rfl, rfl⟩ | contradiction

/-- The reader knows the brackets that have no partner yet. -/
theorem torn_read (k : Nat) (cs : List Char) :
    Torn k cs ((full.read k cs {}).outer.map (·.1)) (full.read k cs {}).unclosed := by
  induction cs generalizing k with
  | nil => exact .opened (.balanced .nil)
  | cons c cs ih =>
    have ih := ih (k + 1)
    rw [read_cons, cons_full]
    generalize full.read (k + 1) cs {} = r at ih
    by_cases hopen : c = '['
    · subst hopen
      obtain ⟨current, outer, unclosed⟩ := r
      cases outer with
      | nil =>
        cases ih with
        | opened h => exact .opened (.bracket .nil h)
      | cons b outer =>
        obtain ⟨q, rest⟩ := b
        -- the bracket finds its partner, and the two with what is between them go to the part in front
        generalize hclosing : ((q, rest) :: outer).map (·.1) = closing at ih
        cases ih with
        | opened => cases hclosing
        | @bracket _ part ds closing _ hpart h =>
          cases hclosing
          have hlength : k + ('[' :: part ++ [']']).length = k + 1 + part.length + 1 := by
            simp only [List.length_append, List.length_cons, List.length_nil]
            omega
          have htorn : Torn k ('[' :: part ++ [']'] ++ ds) (outer.map (·.1)) unclosed :=
            .prepend (.loop hpart .nil) (hlength ▸ h)
          rw [List.append_assoc] at htorn
          exact htorn
    · by_cases hclose : c = ']'
      · subst hclose
        exact .bracket .nil ih
      · obtain ⟨houter, hunclosed⟩ := Reader.cons_of_ne (k := k) (r := r) hopen hclose
        rw [houter, hunclosed]
        exact Torn.prepend (Balanced.cons hopen hclose .nil) ih

/-- What the reader ends with tells whether the text is balanced, and else which bracket is reported. -/
theorem ofChars_torn (cs : List Char) :
    match ofChars cs with
    | .ok _ => Balanced cs
    | .error p => Reported cs p := by
  have hread : Reader.ofChars cs = full.read 0 cs {} := by
    rw [Joining.read, cons_full]
    rfl
  have htorn := torn_read 0 cs
  rw [ofChars, hread]
  generalize full.read 0 cs {} = r at htorn
  obtain ⟨current, outer, unclosed⟩ := r
  cases outer with
  | cons b outer => exact htorn.reported_closing
  | nil =>
    cases unclosed with
    | none => exact htorn.balanced
    | some q => exact htorn.reported_opening

/-! ### Operations -/

/-- The places that a block takes its operations from. -/
def positions : Block → List Nat
  | nil => []
  | move p _ rest | add p _ rest | write p rest | read p rest => p :: rest.positions
  | loop p q body rest => p :: (body.positions ++ q :: rest.positions)

variable {b : Block} {code : Array Instruction} {start stop : Nat}

theorem positions_emit (b : Block) (pre : Array Instruction) :
    (b.emit pre).toList.map (·.position) = pre.toList.map (·.position) ++ b.positions := by
  induction b generalizing pre with
  | nil => rw [emit, positions, List.append_nil]
  | move _ _ rest ih | add _ _ rest ih | write _ rest ih | read _ rest ih => simp [emit, positions, ih]
  | loop _ _ body rest ihb ih => simp [emit, positions, ihb, ih]

/-- The places are in order, from `i` on and before `j`. -/
def Ordered (i j : Nat) (ps : List Nat) : Prop := ps.Pairwise (· < ·) ∧ ∀ p ∈ ps, i ≤ p ∧ p < j

theorem Ordered.nil : Ordered i j [] := ⟨.nil, fun _ h => nomatch h⟩

theorem Ordered.cons {ps : List Nat} (hi : i ≤ p) (hj : p < j) (h : Ordered (p + 1) j ps) : Ordered i j (p :: ps) :=
  ⟨List.pairwise_cons.2 ⟨fun q hq => (h.2 q hq).1, h.1⟩,
    List.forall_mem_cons.2 ⟨⟨hi, hj⟩, fun q hq => ⟨by have := (h.2 q hq).1; omega, (h.2 q hq).2⟩⟩⟩

theorem Ordered.append {ps qs : List Nat} (hij : i ≤ j) (hjk : j ≤ k) (hp : Ordered i j ps) (hq : Ordered j k qs) :
    Ordered i k (ps ++ qs) := by
  refine ⟨List.pairwise_append.2 ⟨hp.1, hq.1, fun p hp' q hq' => ?_⟩, List.forall_mem_append.2 ⟨fun p hp' => ?_,
    fun q hq' => ?_⟩⟩
  · exact Nat.lt_of_lt_of_le (hp.2 p hp').2 (hq.2 q hq').1
  · exact ⟨(hp.2 p hp').1, Nat.lt_of_lt_of_le (hp.2 p hp').2 hjk⟩
  · exact ⟨Nat.le_trans hij (hq.2 q hq').1, (hq.2 q hq').2⟩

/-- The operations of a block are in the order of the text. -/
theorem Lists.ordered (h : b.Lists cs i j) : Ordered i j b.positions := by
  induction h with
  | nil => exact .nil
  | move hb _ _ h _ ih | add hb _ _ h ih | write hb _ h ih | read hb _ h ih =>
    exact .cons (BalancedBetween.of_blank hb).passed.le h.passed.le ih
  | moves hb _ _ h ih | adds hb _ _ h ih =>
    exact .cons (BalancedBetween.of_blank hb).passed.le h.passed.le ⟨(List.pairwise_cons.1 ih.1).2, fun q hq =>
      ih.2 q (List.mem_cons_of_mem _ hq)⟩
  | @loop i j k q body b hb _ hbody _ h ihbody ih =>
    have hq := hbody.passed.le
    have hj := h.passed.le
    exact .cons (BalancedBetween.of_blank hb).passed.le (by omega)
      (.append hq (by omega) ihbody (.cons (Nat.le_refl q) hj ih))

/-- A move stands where its first character does, and is followed by the rest of the block. -/
theorem Lists.move_inv {d : Int} (h : (Block.move p d b).Lists cs i j) :
    (∃ c e, cs[p]? = some c ∧ distance? c = some e) ∧ ∃ k, b.Lists cs k j := by
  generalize hmove : Block.move p d b = b' at h
  induction h generalizing p d b with
  | move _ hc hd h =>
    cases hmove
    exact ⟨⟨_, _, hc, hd⟩, _, h⟩
  | moves _ hc hd _ ih =>
    cases hmove
    exact ⟨⟨_, _, hc, hd⟩, (ih rfl).2⟩
  | nil | add | adds | write | read | loop => cases hmove

theorem Lists.add_inv {v : Cell} (h : (Block.add p v b).Lists cs i j) :
    (∃ c w, cs[p]? = some c ∧ amount? c = some w) ∧ ∃ k, b.Lists cs k j := by
  generalize hadd : Block.add p v b = b' at h
  induction h generalizing p v b with
  | add _ hc hv h =>
    cases hadd
    exact ⟨⟨_, _, hc, hv⟩, _, h⟩
  | adds _ hc hv _ ih =>
    cases hadd
    exact ⟨⟨_, _, hc, hv⟩, (ih rfl).2⟩
  | nil | move | moves | write | read | loop => cases hadd

theorem not_bracket_of_blank (h : Blank cs i j) (hi : i ≤ p) (hj : p < j) : cs[p]? ≠ some '[' ∧ cs[p]? ≠ some ']' := by
  induction h with
  | refl => omega
  | @cons i j c hc hcomment _ ih =>
    rcases Nat.eq_or_lt_of_le hi with rfl | hlt
    · rw [hc]
      obtain ⟨hopen, hclose⟩ := ne_bracket_of_not_instruction hcomment
      simp [hopen, hclose]
    · exact ih hlt hj

/-- Each bracket has an operation. -/
theorem Lists.mem_positions (h : b.Lists cs i j) (hp : cs[p]? = some '[' ∨ cs[p]? = some ']') (hi : i ≤ p)
    (hj : p < j) : p ∈ b.positions := by
  have hblank {i k : Nat} (hb : Blank cs i k) (hi : i ≤ p) : k ≤ p := by
    by_contra hlt
    obtain ⟨hopen, hclose⟩ := not_bracket_of_blank hb hi (Nat.lt_of_not_le hlt)
    exact hp.elim hopen hclose
  have hcons {k : Nat} {ps : List Nat} (hk : k ≤ p) (h : k + 1 ≤ p → p ∈ ps) : p ∈ k :: ps := by
    rcases Nat.eq_or_lt_of_le hk with rfl | hlt
    · exact List.mem_cons_self
    · exact List.mem_cons_of_mem _ (h hlt)
  induction h with
  | nil hb =>
    have := hblank hb hi
    omega
  | move hb _ _ _ _ ih | add hb _ _ _ ih | write hb _ _ ih | read hb _ _ ih =>
    exact hcons (hblank hb hi) fun hlt => ih hlt hj
  | moves hb _ _ h ih =>
    refine hcons (hblank hb hi) fun hlt => (List.mem_cons.1 (ih hlt hj)).resolve_left ?_
    rintro rfl
    obtain ⟨c, e, hc, hd⟩ := h.move_inv.1
    obtain ⟨hopen, hclose⟩ := ne_bracket_of_distance? hd
    simp [hc, hopen, hclose] at hp
  | adds hb _ _ h ih =>
    refine hcons (hblank hb hi) fun hlt => (List.mem_cons.1 (ih hlt hj)).resolve_left ?_
    rintro rfl
    obtain ⟨c, e, hc, hv⟩ := h.add_inv.1
    obtain ⟨hopen, hclose⟩ := ne_bracket_of_amount? hv
    simp [hc, hopen, hclose] at hp
  | @loop i j k q body b hb _ _ _ _ ihbody ih =>
    refine hcons (hblank hb hi) fun hlt => ?_
    by_cases hq : p < q
    · exact List.mem_append_left _ (ihbody hlt hq)
    · exact List.mem_append_right _ (hcons (Nat.le_of_not_lt hq) fun hlt => ih hlt hj)

end Block

/-- The operation with the index `k` is what the text has at its place: the first character of a run of
moves or of additions, an instruction, or a bracket, where both ends of the loop know each other. -/
def Stands (cs : List Char) (code : Array Instruction) (k : Nat) : Instruction → Prop
  | ⟨.move _, p⟩ => ∃ c d, cs[p]? = some c ∧ distance? c = some d
  | ⟨.add _, p⟩ => ∃ c v, cs[p]? = some c ∧ amount? c = some v
  | ⟨.write, p⟩ => cs[p]? = some '.'
  | ⟨.read, p⟩ => cs[p]? = some ','
  | ⟨.enter close, p⟩ => ∃ q, code[close]? = some ⟨.again k, q⟩ ∧ Partners cs p q
  | ⟨.again start, q⟩ => ∃ p, code[start]? = some ⟨.enter k, p⟩ ∧ Partners cs p q

/-- The operations are what the text has at their places, which are in order, and no bracket is
left out. -/
structure Linked (cs : List Char) (code : Array Instruction) : Prop where
  stands : ∀ k i, code[k]? = some i → Stands cs code k i
  ordered : (code.toList.map (·.position)).Pairwise (· < ·)
  complete : ∀ p, cs[p]? = some '[' ∨ cs[p]? = some ']' → ∃ i ∈ code, i.position = p

namespace Block

variable {b : Block} {code : Array Instruction} {start stop : Nat}

/-- The operations from one index up to another are what the text has at their places. -/
def Standing (cs : List Char) (code : Array Instruction) (start stop : Nat) : Prop :=
  start ≤ stop ∧ ∀ k i, start ≤ k → k < stop → code[k]? = some i → Stands cs code k i

theorem Standing.cons {i : Instruction} (hi : code[start]? = some i) (hs : Stands cs code start i)
    (h : Standing cs code (start + 1) stop) : Standing cs code start stop := by
  refine ⟨Nat.le_of_succ_le h.1, fun k i' hk hstop hi' => ?_⟩
  rcases Nat.eq_or_lt_of_le hk with rfl | hlt
  · cases hi.symm.trans hi'
    exact hs
  · exact h.2 k i' hlt hstop hi'

theorem Standing.append {mid : Nat} (h : Standing cs code start mid) (h' : Standing cs code mid stop) :
    Standing cs code start stop := by
  refine ⟨Nat.le_trans h.1 h'.1, fun k i hk hstop hi => ?_⟩
  by_cases hmid : k < mid
  · exact h.2 k i hk hmid hi
  · exact h'.2 k i (Nat.le_of_not_lt hmid) hstop hi

theorem partners_of_balancedBetween (hopen : cs[p]? = some '[') (h : BalancedBetween cs (p + 1) q)
    (hclose : cs[q]? = some ']') : Partners cs p q := by
  obtain ⟨inner, hinner, ⟨rest, hrest⟩, rfl⟩ := h
  obtain ⟨hp, -⟩ := List.getElem?_eq_some_iff.1 hopen
  have hlength : (cs.take p).length = p := List.length_take_of_le (Nat.le_of_lt hp)
  refine ⟨cs.take p, inner, cs.drop (p + 1 + inner.length + 1), ?_, hinner, hlength.symm, by rw [hlength]⟩
  have hdrop : rest = ']' :: cs.drop (p + 1 + inner.length + 1) := by
    rw [← drop_of_getElem? hclose, ← List.drop_drop, ← hrest, List.drop_left]
  rw [← hdrop, hrest, ← drop_of_getElem? hopen, List.take_append_drop]

theorem Lists.standing (h : b.Lists cs i j) (hat : b.At code start stop) : Standing cs code start stop := by
  induction b generalizing i j start stop with
  | nil =>
    cases hat
    exact ⟨Nat.le_refl _, fun k i hk hstop => absurd hk (Nat.not_le.2 hstop)⟩
  | move p d rest ih =>
    obtain ⟨hchar, k, hrest⟩ := h.move_inv
    obtain ⟨c, e, hc, hd⟩ := hchar
    exact .cons hat.1 ⟨c, e, hc, hd⟩ (ih hrest hat.2)
  | add p v rest ih =>
    obtain ⟨hchar, k, hrest⟩ := h.add_inv
    obtain ⟨c, w, hc, hw⟩ := hchar
    exact .cons hat.1 ⟨c, w, hc, hw⟩ (ih hrest hat.2)
  | write p rest ih =>
    cases h with
    | write _ hc h => exact .cons hat.1 hc (ih h hat.2)
  | read p rest ih =>
    cases h with
    | read _ hc h => exact .cons hat.1 hc (ih h hat.2)
  | loop p q body rest ihbody ih =>
    obtain ⟨close, henter, hbodyAt, hagain, hrestAt⟩ := hat
    cases h with
    | loop _ hopen hbody hclose h =>
      have hpartners := partners_of_balancedBetween hopen hbody.balancedBetween hclose
      exact .cons henter ⟨q, hagain, hpartners⟩ ((ihbody hbody hbodyAt).append
        (.cons hagain ⟨p, henter, hpartners⟩ (ih h hrestAt)))

/-- The code of a block is linked like the text. -/
theorem Lists.linked (h : b.Lists cs 0 cs.length) : Linked cs (b.emit #[]) where
  stands k i hi := by
    obtain ⟨hk, -⟩ := Array.getElem?_eq_some_iff.1 hi
    rw [size_emit] at hk
    exact (h.standing (at_emit fun _ _ => rfl)).2 k i (Nat.zero_le k) hk hi
  ordered := by
    rw [positions_emit]
    exact h.ordered.1
  complete p hp := by
    have hlt : p < cs.length := by
      rcases hp with hp | hp
      · exact (List.getElem?_eq_some_iff.1 hp).1
      · exact (List.getElem?_eq_some_iff.1 hp).1
    have hpositions : (b.emit #[]).toList.map (·.position) = b.positions := positions_emit b #[]
    obtain ⟨i, hi, rfl⟩ := List.mem_map.1 (hpositions ▸ h.mem_positions hp (Nat.zero_le p) hlt)
    exact ⟨i, Array.mem_toList_iff.1 hi, rfl⟩

end Block

/-- A text is loaded exactly if its brackets are balanced. The ends of a loop then lead to each other
as the brackets of the text do, and each operation has a place of its own, where the text has what it
does; else a bracket without a partner is reported, the first closing one if there is any and the
last opening one if not. -/
theorem Machine.ofString_matched (s : String) :
    match Machine.ofString s with
    | .ok m => Balanced s.toList ∧ Linked s.toList m.code
    | .error fault => ¬ Balanced s.toList ∧ ∃ p, fault = .unmatchedBracket p ∧ Reported s.toList p := by
  have htorn := Block.ofChars_torn s.toList
  rw [Machine.ofString, Machine.ofChars]
  cases h : Block.ofChars s.toList with
  | ok b =>
    rw [h] at htorn
    obtain ⟨b', hb, hlists⟩ := Block.ofChars_of_balanced htorn
    cases h.symm.trans hb
    exact ⟨htorn, hlists.linked⟩
  | error p =>
    rw [h] at htorn
    refine ⟨fun hbalanced => ?_, p, rfl, htorn⟩
    obtain ⟨b, hb, -⟩ := Block.ofChars_of_balanced hbalanced
    cases h.symm.trans hb

example : Machine.ofString "a[[]" = .error (.unmatchedBracket 1) := rfl

end TapeC.Tape
