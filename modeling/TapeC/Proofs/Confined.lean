import TapeC.Proofs.Builtin
import TapeC.Proofs.Promise
import TapeC.Proofs.Track
import TapeC.Routine.Bitwise
import TapeC.Routine.Comparison

/-! Programs that keep to their cells. From wherever the tape starts, the head ends where it is
said to, never leaves the tape, and of the cells left of some place only those that may be
written change. Most programs repeat only what leads back to where it began, so that the head
can be followed through them; the others are known by what they do. -/

namespace TapeC

namespace Tape

open Config Code

variable {bounded : Bool} {V W : Nat → Prop} {f f' p q r : Nat} {a b c : Code}

/-- The breaches that a run may come to. If indices are looked at, nothing else goes wrong. -/
def Breach.Expected (bounded : Bool) : Breach → Prop
  | .left => False
  | .outside => True
  | .occupied => bounded = false

/-- An index that is let pass. -/
theorem within_ensures {n : Nat} {s : Config} : ((Code.within n).checked bounded s).Ensures (Breach.Expected bounded)
    fun t => t = s ∧ 0 < n ∧ (bounded = true → (s.cells (s.head - 1)).toNat < n) := by
  rw [Code.checked]
  split
  · exact .of_wrong trivial
  next h =>
    refine .of_ends (Comp.pure_ends.2 rfl) ⟨rfl, Nat.pos_of_ne_zero fun hn => h ⟨.inr hn, hn ▸ Nat.zero_le _⟩, ?_⟩
    exact fun hbounded => Nat.lt_of_not_le fun hle => h ⟨.inl hbounded, hle⟩

/-- A cell that is found empty. It has to be if indices are looked at. -/
theorem vacant_ensures {n : Nat} {s : Config} (h : bounded = true → s.cells (s.head - n) = 0) :
    ((Code.vacant n).checked bounded s).Ensures (Breach.Expected bounded)
      fun t => t = s ∧ s.cells (s.head - n) = 0 := by
  rw [Code.checked]
  split
  next h0 => exact .of_ends (Comp.pure_ends.2 rfl) ⟨rfl, h0⟩
  next h0 => exact .of_wrong (by simpa [Breach.Expected] using mt h h0)

/-- From `p` the program leads to `q`. If indices are looked at, it changes none of the cells
left of `f` but those in `V`. -/
def Confined (bounded : Bool) (V : Nat → Prop) (f p q : Nat) (c : Code) : Prop :=
  ∀ s : Config, s.head = p → (c.checked bounded s).Ensures (Breach.Expected bounded) fun t =>
    t.head = q ∧ (bounded = true → ∀ x < f, ¬ V x → t.cells x = s.cells x)

namespace Confined

theorem append (ha : Confined bounded V f p q a) (hb : Confined bounded V f q r b) :
    Confined bounded V f p r (a ++ b) := by
  intro s hs
  refine (ha s hs).bind fun t ⟨ht, hst⟩ => (hb t ht).mono fun u ⟨hu, htu⟩ => ⟨hu, fun hbounded x hx hV => ?_⟩
  rw [htu hbounded x hx hV, hst hbounded x hx hV]

theorem loop (h : Confined bounded V f p p c) : Confined bounded V f p p (.loop c) := by
  intro s hs
  let I (t : Config) : Prop := t.head = p ∧ (bounded = true → ∀ x < f, ¬ V x → t.cells x = s.cells x)
  refine (Comp.Ensures.loop (I := I) (fun t ht _ => ?_) ⟨hs, fun _ _ _ _ => rfl⟩).mono fun _ ht => ht.1
  refine (h t ht.1).mono fun u hu => ⟨hu.1, fun hbounded x hx hV => ?_⟩
  rw [hu.2 hbounded x hx hV, ht.2 hbounded x hx hV]

/-- A program that keeps to fewer cells. -/
theorem mono (h : Confined bounded V f p q c) (hf : f' ≤ f) (hV : ∀ x < f', V x → W x) :
    Confined bounded W f' p q c := fun s hs => (h s hs).mono fun _ ⟨ht, hst⟩ =>
  ⟨ht, fun hbounded x hx hW => hst hbounded x (Nat.lt_of_lt_of_le hx hf) fun hx' => hW (hV x hx hx')⟩

theorem narrow (h : Confined bounded V f p q c) (hf : f' ≤ f) : Confined bounded V f' p q c :=
  h.mono hf fun _ _ hx => hx

/-- A program without promises of which it is known what it does. -/
theorem of_runs (hc : c.promiseless = true) (h : ∀ s : Config, s.head = p →
    ∃ t, Code.Runs 0 c s t ∧ t.head = q ∧ ∀ x < f, ¬ V x → t.cells x = s.cells x) : Confined bounded V f p q c := by
  intro s hs
  obtain ⟨t, ht, hq, hcells⟩ := h s hs
  exact .of_ends (ht.checked hc _) ⟨hq, fun _ => hcells⟩

end Confined

namespace Confined

theorem track {i j : Nat} (p : Nat) (h : c.track i = some j) : Confined bounded V p (p + i) (p + j) c := by
  have hstore {i : Nat} (g : Config → Config)
      (hg : ∀ s : Config, (g s).head = s.head ∧ ∀ x, x ≠ s.head → (g s).cells x = s.cells x) :
      ∀ s : Config, s.head = p + i → (pure (g s) : Comp Breach Config).Ensures (Breach.Expected bounded)
        fun t => t.head = p + i ∧ (bounded = true → ∀ x < p, ¬ V x → t.cells x = s.cells x) := by
    intro s hs
    obtain ⟨hhead, hcells⟩ := hg s
    exact .of_ends (Comp.pure_ends.2 rfl) ⟨hhead.trans hs, fun _ x hx _ => hcells x (by omega)⟩
  induction c generalizing i j with
  | skip | note => cases h; exact hstore id fun s => ⟨rfl, fun _ _ => rfl⟩
  | write => cases h; exact hstore (fun s => s.emit [s.cell]) fun s => ⟨rfl, fun _ _ => rfl⟩
  | inc | dec => cases h; exact hstore (fun s => s.store _) fun s => ⟨rfl, fun _ hx => cells_put_of_ne hx⟩
  | read =>
    cases h
    exact hstore (fun s => (s.store _).setInput _) fun s => ⟨rfl, fun _ hx => cells_put_of_ne hx⟩
  | right n =>
    cases h
    intro s hs
    exact .of_ends (Comp.pure_ends.2 rfl) ⟨by rw [head_goto, hs, Nat.add_assoc], fun _ _ _ _ => rfl⟩
  | left n =>
    rw [Code.track] at h
    split at h
    next hn =>
      cases h
      intro s hs
      rw [Code.checked, if_pos (by omega)]
      exact .of_ends (Comp.pure_ends.2 rfl) ⟨by rw [head_goto, hs, Nat.add_sub_assoc hn], fun _ _ _ _ => rfl⟩
    next => cases h
  | loop body ih =>
    rw [Code.track] at h
    split at h
    next hbody =>
      cases h
      exact (ih hbody).loop
    next => cases h
  | seq a b iha ihb =>
    obtain ⟨k, ha, hb⟩ := Option.bind_eq_some_iff.1 h
    exact (iha ha).append (ihb hb)
  | within | vacant => cases h

/-- As long as promises are kept, the program also keeps to its cells on trust. -/
theorem exec (h : Confined bounded V f p q c) {s : Config} (hs : s.head = p)
    (hkept : ∀ b, Breach.Expected bounded b → ¬ (c.checked bounded s).Ends (.error b)) :
    (∀ e, ¬ (c.exec 0 s).Ends (.error e)) ∧ ∀ t, (c.exec 0 s).Ends (.ok t) →
      t.head = q ∧ (bounded = true → ∀ x < f, ¬ V x → t.cells x = s.cells x) := by
  have hensures := h s hs
  have hsim : Comp.Sim Eq (c.exec 0 s) (c.checked bounded s) := exec_sim_checked c s
  obtain ⟨hends, -⟩ := hsim fun b hb => hkept b (hensures.error b hb) hb
  constructor
  · intro e he
    obtain ⟨_, _, h, -⟩ := hends _ he
    cases h
  · intro t ht
    obtain ⟨_, _, h, ht', rfl⟩ := hends _ ht
    cases h
    exact hensures.ok _ ht'

/-- More of which the head can be followed. -/
theorem follow {i j : Nat} (h : Confined bounded V f p (q + i) a) (hb : b.track i = some j) (hf : f ≤ q) :
    Confined bounded V f p (q + j) (a ++ b) :=
  h.append ((track q hb).narrow hf)

end Confined
end Tape

namespace Routine

open Tape Code Confined

/-! ### Guards -/

variable {bounded : Bool} {V : Nat → Prop} {f p n : Nat} {a b c : Code}

theorem ifThen_confined (hf : f ≤ p) (hc : Confined bounded V f p (p + 1) c)
    (ha : Confined bounded V f (p + 2) (p + 2) a) : Confined bounded V f p p (ifThen c a) := by
  have harm : Confined bounded V f (p + 0) (p + 0) (right 2 ++ a ++ left 2 ++ clear) :=
    ((((track p rfl).narrow hf).append ha).follow rfl hf).follow rfl hf
  exact (hc.follow (j := 0) rfl hf).append harm.loop

theorem ifThenElse_confined (hf : f ≤ p) (hc : Confined bounded V f p (p + 1) c)
    (ha : Confined bounded V f (p + 2) (p + 2) a) (hb : Confined bounded V f (p + 2) (p + 2) b) :
    Confined bounded V f p p (ifThenElse c a b) := by
  have harm : Confined bounded V f (p + 0) (p + 0) (right 1 ++ dec 1 ++ right 1 ++ a ++ left 2 ++ clear) :=
    ((((track p rfl).narrow hf).append ha).follow rfl hf).follow rfl hf
  have helse : Confined bounded V f (p + 1) (p + 1) (right 1 ++ b ++ left 1 ++ dec 1) :=
    ((((track p rfl).narrow hf).append hb).follow rfl hf).follow rfl hf
  have hstart : Confined bounded V f p (p + 0) (c ++ clear ++ inc 1 ++ left 1) :=
    ((hc.follow rfl hf).follow rfl hf).follow rfl hf
  exact (((hstart.append harm.loop).follow rfl hf).append helse.loop).follow (j := 0) rfl hf

theorem andThen_confined (hf : f ≤ p) (ha : Confined bounded V f p (p + 1) a)
    (hb : Confined bounded V f (p + 2) (p + 3) b) : Confined bounded V f p (p + 1) (andThen a b) := by
  have hround : Confined bounded V f (p + 0) (p + 0)
      (clear ++ right 2 ++ b ++ left 1 ++ loop (clear ++ left 1 ++ inc 1 ++ right 1) ++ left 2) :=
    (((((track p rfl).narrow hf).append hb).follow rfl hf).follow rfl hf).follow rfl hf
  have hstart : Confined bounded V f p (p + 0) (a ++ clear ++ left 1) := (ha.follow rfl hf).follow rfl hf
  exact ((hstart.append hround.loop).follow rfl hf).follow rfl hf

theorem orElse_confined (hf : f ≤ p) (ha : Confined bounded V f p (p + 1) a)
    (hb : Confined bounded V f (p + 3) (p + 4) b) : Confined bounded V f p (p + 1) (orElse a b) := by
  have hround : Confined bounded V f (p + 1) (p + 1)
      (dec 1 ++ right 2 ++ b ++ left 1 ++ loop (clear ++ left 1 ++ inc 1 ++ right 1) ++ left 2) :=
    (((((track p rfl).narrow hf).append hb).follow rfl hf).follow rfl hf).follow rfl hf
  have hstart : Confined bounded V f p (p + 1) (a ++ clear ++ inc 1 ++ right 1 ++ clear ++ left 2 ++
      loop (clear ++ right 1 ++ dec 1 ++ right 1 ++ inc 1 ++ left 2) ++ right 1) :=
    ((((((ha.follow rfl hf).follow rfl hf).follow rfl hf).follow rfl hf).follow rfl hf).follow rfl hf).follow rfl hf
  exact (((hstart.append hround.loop).follow rfl hf).follow rfl hf).follow rfl hf

/-- The cell that is emptied is not left of `p`. -/
theorem runArm_confined (hf : f ≤ p) (hc : Confined bounded V f (p + n + 1) (p + n + 1) c) :
    Confined bounded V f (p + n) (p + n) (runArm c n) := by
  have hstart : (dec 1 ++ left n ++ clear ++ right n ++ right 1).track n = some (n + 1) := by
    simp [track_left (Nat.le_refl n)]
  exact ((((track p hstart).narrow hf).append hc).follow (q := p + n) (j := 0) rfl (by omega)).loop

end Routine
end TapeC
