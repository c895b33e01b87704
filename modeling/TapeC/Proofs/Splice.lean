import TapeC.Include

/-! What directives are expanded to. A file takes the place of the first directive that leads to
it, in the order in which the tokens are read when each file is read where it is named; a later
directive for it leaves nothing. Where all files that are asked for can be read, there is an
expansion, however they include each other. -/

namespace TapeC.Include

/-! ### Directives -/

/-- Whether a token is a directive. -/
def isDirective (t : Token) : Bool :=
  match t.kind with
  | .include _ _ => true
  | _ => false

theorem isDirective_iff {t : Token} : isDirective t = true ↔ ∃ path quoted, t.kind = .include path quoted := by
  unfold isDirective
  split
  next path quoted h => exact iff_of_true rfl ⟨path, quoted, h⟩
  next h =>
    refine iff_of_false Bool.false_ne_true ?_
    rintro ⟨path, quoted, ht⟩
    exact h path quoted ht

/-- A directive leads to a file that consists of these tokens. -/
def Finds (lib : Library) (path : String) (quoted : Bool) (includer : Option String) (key : String)
    (tokens : List Token) : Prop :=
  ∃ text, lib.resolve path quoted includer = .ok (key, text) ∧ Token.scan text = .ok tokens

/-- The directives that are met when all files are followed from a first one, which has these
tokens. -/
inductive Asked (lib : Library) (tokens : List Token) : String → Bool → Option String → Prop where
  | first {t : Token} {path : String} {quoted : Bool} (ht : t ∈ tokens) (hkind : t.kind = .include path quoted) :
      Asked lib tokens path quoted none
  | within {t : Token} {path path' key : String} {quoted quoted' : Bool} {includer : Option String} {body : List Token}
      (h : Asked lib tokens path quoted includer) (hfinds : Finds lib path quoted includer key body) (ht : t ∈ body)
      (hkind : t.kind = .include path' quoted') : Asked lib tokens path' quoted' (some key)

/-! ### Expansions -/

/-- What pending tokens are expanded to, each token with the file that it is of. Before and
after the expansion there are the files met so far, the latest first. -/
inductive Spliced (lib : Library) : List String → List Pending → List Pending → List String → Prop where
  | nil {met : List String} : Spliced lib met [] [] met
  | keep {met met' : List String} {includer : Option String} {t : Token} {pending out : List Pending}
      (ht : isDirective t = false) (h : Spliced lib met pending out met') :
      Spliced lib met ((includer, t) :: pending) ((includer, t) :: out) met'
  /-- The file has been met before. -/
  | again {met met' : List String} {includer : Option String} {t : Token} {path key text : String} {quoted : Bool}
      {pending out : List Pending} (ht : t.kind = .include path quoted)
      (hfile : lib.resolve path quoted includer = .ok (key, text)) (hkey : key ∈ met)
      (h : Spliced lib met pending out met') : Spliced lib met ((includer, t) :: pending) out met'
  /-- The file is met for the first time. -/
  | first {met mid met' : List String} {includer : Option String} {t : Token} {path key : String} {quoted : Bool}
      {body : List Token} {pending inner out : List Pending} (ht : t.kind = .include path quoted)
      (hfinds : Finds lib path quoted includer key body) (hkey : key ∉ met)
      (hinner : Spliced lib (key :: met) (enter key body) inner mid) (h : Spliced lib mid pending out met') :
      Spliced lib met ((includer, t) :: pending) (inner ++ out) met'

variable {lib : Library} {tokens body : List Token} {met met' : List String} {pending out : List Pending}
  {includer : Option String} {t : Token} {path key : String} {quoted : Bool}

/-- The tokens with a label. -/
def own (label : Option String) (out : List Pending) : List Token :=
  (out.filter (·.1 == label)).map Prod.snd

/-- The tokens of an included file that stand for themselves. -/
def ordinary (body : List Token) : List Token :=
  body.filter fun t => !isDirective t && t.kind != .endOfFile

section Own

variable {label : Option String} {p : Pending}

theorem own_cons : own label (p :: pending) = if p.1 = label then p.2 :: own label pending else own label pending := by
  simp only [own, List.filter_cons, beq_iff_eq]
  split <;> rfl

theorem own_of_own_cons (h : own label (p :: pending) = []) : own label pending = [] := by
  rw [own_cons] at h
  split at h
  · cases h
  · exact h

theorem own_append (a b : List Pending) : own label (a ++ b) = own label a ++ own label b := by
  simp only [own, List.filter_append, List.map_append]

theorem own_label (tokens : List Token) : own label (tokens.map (label, ·)) = tokens := by
  simp [own, List.filter_map, Function.comp_def]

theorem own_of_ne {other : Option String} (h : other ≠ label) (tokens : List Token) :
    own label (tokens.map (other, ·)) = [] := by
  simp [own, List.filter_map, Function.comp_def, h]

theorem own_enter_of_ne (h : some key ≠ label) : own label (enter key body) = [] := own_of_ne h _

theorem own_enter : (own (some key) (enter key body)).filter (!isDirective ·) = ordinary body := by
  rw [enter, own_label, List.filter_filter]
  rfl

end Own

theorem enter_ends : (enter key body).filter (·.2.kind == .endOfFile) = [] := by
  simp [enter, List.filter_map, Function.comp_def]

namespace Spliced

theorem of_append {a b : List Pending} (h : Spliced lib met (a ++ b) out met') :
    ∃ x y mid, out = x ++ y ∧ Spliced lib met a x mid ∧ Spliced lib mid b y met' := by
  induction a generalizing met out with
  | nil => exact ⟨[], out, met, rfl, .nil, h⟩
  | cons p a ih =>
    cases h with
    | keep ht h =>
      obtain ⟨x, y, mid, rfl, hx, hy⟩ := ih h
      exact ⟨_ :: x, y, mid, rfl, .keep ht hx, hy⟩
    | again ht hfile hkey h =>
      obtain ⟨x, y, mid, rfl, hx, hy⟩ := ih h
      exact ⟨x, y, mid, rfl, .again ht hfile hkey hx, hy⟩
    | @first _ _ _ _ _ _ _ _ _ _ inner _ ht hfinds hkey hinner h =>
      obtain ⟨x, y, mid, rfl, hx, hy⟩ := ih h
      exact ⟨inner ++ x, y, mid, (List.append_assoc ..).symm, .first ht hfinds hkey hinner hx, hy⟩

theorem kept (h : ∀ p ∈ pending, isDirective p.2 = false) : Spliced lib met pending pending met := by
  induction pending with
  | nil => exact .nil
  | cons p pending ih =>
    obtain ⟨hp, hpending⟩ := List.forall_mem_cons.1 h
    exact .keep hp (ih hpending)

theorem no_directive (h : Spliced lib met pending out met') : ∀ p ∈ out, isDirective p.2 = false := by
  induction h with
  | nil => exact nofun
  | keep ht _ ih => exact List.forall_mem_cons.2 ⟨ht, ih⟩
  | again _ _ _ _ ih => exact ih
  | first _ _ _ _ _ ihinner ih => exact fun p hp => (List.mem_append.1 hp).elim (ihinner p) (ih p)

/-- Only what is pending at first can bring marks of the end of a file. -/
theorem ends (h : Spliced lib met pending out met') :
    out.filter (·.2.kind == .endOfFile) = pending.filter (·.2.kind == .endOfFile) := by
  induction h with
  | nil => rfl
  | keep _ _ ih => rw [List.filter_cons, List.filter_cons, ih]
  | again ht _ _ _ ih => rw [List.filter_cons_of_neg (by simp [ht]), ih]
  | first ht _ _ _ _ ihinner ih =>
    rw [List.filter_append, ihinner, enter_ends, List.nil_append, ih, List.filter_cons_of_neg (by simp [ht])]

/-! ### The files met -/

theorem subset (h : Spliced lib met pending out met') : met ⊆ met' := by
  induction h with
  | nil => exact List.Subset.refl _
  | keep _ _ ih | again _ _ _ _ ih => exact ih
  | first _ _ _ _ _ ihinner ih => exact fun k hk => ih (ihinner (List.mem_cons_of_mem _ hk))

theorem nodup (h : Spliced lib met pending out met') (hmet : met.Nodup) : met'.Nodup := by
  induction h with
  | nil => exact hmet
  | keep _ _ ih | again _ _ _ _ ih => exact ih hmet
  | first _ _ hkey _ _ ihinner ih => exact ih (ihinner (List.nodup_cons.2 ⟨hkey, hmet⟩))

/-- A directive leads to one of the files met. -/
def Served (lib : Library) (met : List String) (p : Pending) : Prop :=
  ∀ path quoted, p.2.kind = .include path quoted →
    ∃ key text, lib.resolve path quoted p.1 = .ok (key, text) ∧ key ∈ met

theorem Served.mono {p : Pending} (h : Served lib met p) (hmet : met ⊆ met') : Served lib met' p := by
  intro path quoted ht
  obtain ⟨key, text, hfile, hkey⟩ := h path quoted ht
  exact ⟨key, text, hfile, hmet hkey⟩

theorem served (h : Spliced lib met pending out met') : ∀ p ∈ pending, Served lib met' p := by
  induction h with
  | nil => exact nofun
  | keep ht _ ih =>
    refine List.forall_mem_cons.2 ⟨fun path quoted hkind => ?_, ih⟩
    exact absurd (isDirective_iff.2 ⟨path, quoted, hkind⟩) (by rw [ht]; exact Bool.false_ne_true)
  | again ht hfile hkey h ih =>
    refine List.forall_mem_cons.2 ⟨fun path quoted hkind => ?_, ih⟩
    cases ht.symm.trans hkind
    exact ⟨_, _, hfile, h.subset hkey⟩
  | first ht hfinds hkey hinner h _ ih =>
    refine List.forall_mem_cons.2 ⟨fun path quoted hkind => ?_, ih⟩
    cases ht.symm.trans hkind
    obtain ⟨text, hfile, -⟩ := hfinds
    exact ⟨_, text, hfile, h.subset (hinner.subset List.mem_cons_self)⟩

/-- What is asked for by the tokens of files that are followed. -/
def Followed (lib : Library) (tokens : List Token) (p : Pending) : Prop :=
  ∀ path quoted, p.2.kind = .include path quoted → Asked lib tokens path quoted p.1

theorem followed_of_enter (h : Asked lib tokens path quoted includer)
    (hfinds : Finds lib path quoted includer key body) :
    ∀ p ∈ enter key body, Followed lib tokens p := by
  intro p hp path' quoted' hkind
  obtain ⟨t, ht, rfl⟩ := List.mem_map.1 hp
  exact .within h hfinds (List.mem_filter.1 ht).1 hkind

/-- The mark of the end of a file is no directive. -/
theorem served_of_enter (h : ∀ p ∈ enter key body, Served lib met p) : ∀ t ∈ body, Served lib met (some key, t) := by
  intro t ht path quoted hkind
  have hmem : (some key, t) ∈ enter key body := by
    refine List.mem_map_of_mem (List.mem_filter.2 ⟨ht, ?_⟩)
    rw [show t.kind = _ from hkind]
    rfl
  exact h _ hmem path quoted hkind

/-- A file that is met has been asked for, and the files that it asks for are met too. -/
theorem met_asked (h : Spliced lib met pending out met') (hp : ∀ p ∈ pending, Followed lib tokens p) :
    ∀ key ∈ met', key ∈ met ∨ ∃ path quoted includer body, Asked lib tokens path quoted includer ∧
      Finds lib path quoted includer key body ∧ ∀ t ∈ body, Served lib met' (some key, t) := by
  induction h with
  | nil => exact fun key hkey => .inl hkey
  | keep _ _ ih | again _ _ _ _ ih => exact ih (List.forall_mem_cons.1 hp).2
  | @first met mid met' includer t path key quoted body pending inner out ht hfinds hkey hinner h ihinner ih =>
    obtain ⟨hfirst, hrest⟩ := List.forall_mem_cons.1 hp
    have hasked : Asked lib tokens path quoted includer := hfirst path quoted ht
    intro other hother
    rcases ih hrest other hother with hmid | hfound
    · rcases ihinner (followed_of_enter hasked hfinds) other hmid with hmet | ⟨_, _, _, body', ha, hf, hserved⟩
      · rcases List.mem_cons.1 hmet with rfl | hmet
        · refine .inr ⟨path, quoted, includer, body, hasked, hfinds, served_of_enter fun p hp => ?_⟩
          exact (hinner.served p hp).mono h.subset
        · exact .inl hmet
      · exact .inr ⟨_, _, _, body', ha, hf, fun t ht => (hserved t ht).mono h.subset⟩
    · exact .inr hfound

/-! ### Tokens of one file -/

/-- The files with a label have been met. The first file, which has none, needs no directive. -/
def Entered (met : List String) (label : Option String) : Prop :=
  ∀ key, label = some key → key ∈ met

/-- A file that has been entered brings no more than what is pending of it. -/
theorem own_of_entered {label : Option String} (h : Spliced lib met pending out met') (hlabel : Entered met label) :
    own label out = (own label pending).filter (!isDirective ·) := by
  induction h with
  | nil => rfl
  | keep ht _ ih =>
    rw [own_cons, own_cons, ih hlabel]
    split <;> simp [ht]
  | again ht _ _ _ ih =>
    rw [own_cons, ih hlabel]
    split <;> simp [isDirective_iff.2 ⟨_, _, ht⟩]
  | @first met mid met' includer t path key quoted body pending inner out ht hfinds hkey hinner h ihinner ih =>
    have hne : some key ≠ label := fun heq => hkey (hlabel key heq.symm)
    have hmid : Entered mid label := fun k hk => hinner.subset (List.mem_cons_of_mem _ (hlabel k hk))
    rw [own_append, ihinner fun k hk => List.mem_cons_of_mem _ (hlabel k hk), own_enter_of_ne hne, own_cons, ih hmid]
    split <;> simp [isDirective_iff.2 ⟨_, _, ht⟩]

/-- A file that has not been met brings nothing or, when it is met, its own tokens. -/
theorem own_of_not_mem (h : Spliced lib met pending out met') (hkey : key ∉ met) (hp : own (some key) pending = []) :
    (key ∉ met' ∧ own (some key) out = []) ∨ key ∈ met' ∧ ∃ path quoted includer body,
      Finds lib path quoted includer key body ∧ own (some key) out = ordinary body := by
  induction h with
  | nil => exact .inl ⟨hkey, rfl⟩
  | keep ht _ ih =>
    rw [own_cons] at hp ⊢
    split at hp
    · cases hp
    next hne =>
      rw [if_neg hne]
      exact ih hkey hp
  | again _ _ _ _ ih => exact ih hkey (own_of_own_cons hp)
  | @first met mid met' includer t path other quoted body pending inner out ht hfinds hother hinner h ihinner ih =>
    replace hp := own_of_own_cons hp
    -- what follows brings nothing when the file has been met before it
    have hrest (hmid : key ∈ mid) : own (some key) out = [] := by
      rw [h.own_of_entered (by rintro k ⟨⟩; exact hmid), hp]
      rfl
    rw [own_append]
    by_cases heq : other = key
    · subst heq
      have hmid : other ∈ mid := hinner.subset List.mem_cons_self
      have hown : own (some other) inner = ordinary body := by
        rw [hinner.own_of_entered (by rintro k ⟨⟩; exact List.mem_cons_self), own_enter]
      exact .inr ⟨h.subset hmid, path, quoted, includer, body, hfinds, by rw [hown, hrest hmid, List.append_nil]⟩
    · have hmet : key ∉ other :: met := fun hk => (List.mem_cons.1 hk).elim (fun hk => heq hk.symm) hkey
      have hbody : own (some key) (enter other body) = [] := own_enter_of_ne (by simpa using heq)
      rcases ihinner hmet hbody with ⟨hmid, hinner⟩ | ⟨hmid, _, _, _, body', hf, hinner⟩
      · rw [hinner, List.nil_append]
        exact ih hmid hp
      · rw [hinner, hrest hmid, List.append_nil]
        exact .inr ⟨h.subset hmid, _, _, _, body', hf, rfl⟩

end Spliced

/-! ### Expanding -/

theorem spliced_of_expandFrom {result : List Token} (h : expandFrom lib met pending = .ok (result, met')) :
    ∃ out, Spliced lib met pending out met' ∧ result = out.map Prod.snd := by
  fun_induction expandFrom lib met pending generalizing result met' with
  | case1 met =>
    cases h
    exact ⟨[], .nil, rfl⟩
  | case2 | case4 => cases h
  | case3 met includer t pending path quoted ht key text hfile hkey ih =>
    obtain ⟨out, hout, rfl⟩ := ih h
    exact ⟨out, .again ht hfile hkey hout, rfl⟩
  | case5 met includer t pending path quoted ht key text hfile hkey body hscan ih =>
    obtain ⟨_, hout, rfl⟩ := ih h
    obtain ⟨inner, out, mid, rfl, hinner, hout⟩ := hout.of_append
    exact ⟨inner ++ out, .first ht ⟨text, hfile, hscan⟩ hkey hinner hout, rfl⟩
  | case6 met includer t pending ht ih =>
    cases hrest : expandFrom lib met pending with
    | error fault =>
      rw [hrest] at h
      cases h
    | ok r =>
      rw [hrest] at h
      cases h
      obtain ⟨out, hout, hr⟩ := ih hrest
      have hkeep : isDirective t = false := by
        rw [← Bool.not_eq_true, isDirective_iff]
        exact fun ⟨path, quoted, h⟩ => ht path quoted h
      exact ⟨(includer, t) :: out, .keep hkeep hout, congrArg (t :: ·) hr⟩

section Step

variable {text : String}

theorem expandFrom_keep (ht : isDirective t = false) : expandFrom lib met ((includer, t) :: pending) =
    (expandFrom lib met pending).map fun r => (t :: r.1, r.2) := by
  rw [expandFrom]
  split
  next path quoted h => exact absurd (isDirective_iff.2 ⟨path, quoted, h⟩) (by simp [ht])
  next => cases expandFrom lib met pending <;> rfl

theorem expandFrom_again (ht : t.kind = .include path quoted)
    (hfile : lib.resolve path quoted includer = .ok (key, text))
    (hkey : key ∈ met) : expandFrom lib met ((includer, t) :: pending) = expandFrom lib met pending := by
  rw [expandFrom]
  split
  next path' quoted' h =>
    cases ht.symm.trans h
    split
    next h => cases hfile.symm.trans h
    next h =>
      cases hfile.symm.trans h
      rw [dif_pos hkey]
  next h => exact absurd ht (h path quoted)

theorem expandFrom_first (ht : t.kind = .include path quoted) (hfinds : Finds lib path quoted includer key body)
    (hkey : key ∉ met) :
    expandFrom lib met ((includer, t) :: pending) = expandFrom lib (key :: met) (enter key body ++ pending) := by
  obtain ⟨text, hfile, hscan⟩ := hfinds
  rw [expandFrom]
  split
  next path' quoted' h =>
    cases ht.symm.trans h
    split
    next h => cases hfile.symm.trans h
    next h =>
      cases hfile.symm.trans h
      rw [dif_neg hkey, hscan]
  next h => exact absurd ht (h path quoted)

end Step

/-- What is expanded takes its place in front of what is pending behind it. -/
theorem Spliced.expandFrom (h : Spliced lib met pending out met') (rest : List Pending) :
    expandFrom lib met (pending ++ rest) = (expandFrom lib met' rest).map fun r => (out.map Prod.snd ++ r.1, r.2) := by
  induction h generalizing rest with
  | @nil met =>
    rw [List.nil_append]
    cases Include.expandFrom lib met rest <;> rfl
  | keep ht _ ih =>
    rw [List.cons_append, expandFrom_keep ht, ih]
    cases Include.expandFrom lib _ rest <;> rfl
  | again ht hfile hkey _ ih => rw [List.cons_append, expandFrom_again ht hfile hkey, ih]
  | first ht hfinds hkey _ _ ihinner ih =>
    rw [List.cons_append, expandFrom_first ht hfinds hkey, ihinner, ih]
    cases Include.expandFrom lib _ rest with
    | error fault => rfl
    | ok r => simp [Except.map]

/-- Files that can all be read are expanded. -/
theorem exists_expandFrom (hp : ∀ p ∈ pending, Spliced.Followed lib tokens p)
    (h : ∀ path quoted includer, Asked lib tokens path quoted includer →
      ∃ key body, Finds lib path quoted includer key body) :
    ∃ r, expandFrom lib met pending = .ok r := by
  fun_induction expandFrom lib met pending with
  | case1 met => exact ⟨_, rfl⟩
  | case2 met includer t pending path quoted ht cause hfile =>
    obtain ⟨key, body, text, hfile', -⟩ := h path quoted includer ((List.forall_mem_cons.1 hp).1 path quoted ht)
    rw [hfile] at hfile'
    cases hfile'
  | case3 met includer t pending path quoted ht key text hfile hkey ih => exact ih (List.forall_mem_cons.1 hp).2
  | case4 met includer t pending path quoted ht key text hfile hkey position fault hscan =>
    obtain ⟨_, body, _, hfile', hscan'⟩ := h path quoted includer ((List.forall_mem_cons.1 hp).1 path quoted ht)
    rw [hfile] at hfile'
    cases hfile'
    rw [hscan] at hscan'
    cases hscan'
  | case5 met includer t pending path quoted ht key text hfile hkey body hscan ih =>
    obtain ⟨hfirst, hrest⟩ := List.forall_mem_cons.1 hp
    refine ih fun p hp => ?_
    rcases List.mem_append.1 hp with hp | hp
    · exact Spliced.followed_of_enter (hfirst path quoted ht) ⟨text, hfile, hscan⟩ p hp
    · exact hrest p hp
  | case6 met includer t pending ht ih =>
    obtain ⟨r, hr⟩ := ih (List.forall_mem_cons.1 hp).2
    exact ⟨_, by rw [hr]; rfl⟩

/-! ### Whole expansions -/

/-- Files of one key have the same text. -/
def Library.Faithful (lib : Library) : Prop :=
  ∀ {path path' quoted quoted' includer includer' key text text'}, lib.resolve path quoted includer = .ok (key, text) →
    lib.resolve path' quoted' includer' = .ok (key, text') → text = text'

theorem followed_first : ∀ p ∈ tokens.map (none, ·), Spliced.Followed lib tokens p := by
  intro p hp path quoted hkind
  obtain ⟨t, ht, rfl⟩ := List.mem_map.1 hp
  exact .first ht hkind

/-- The tokens of a program and what they are expanded to. -/
def Expands (lib : Library) (tokens : List Token) (out : List Pending) (met : List String) : Prop :=
  Spliced lib [] (tokens.map (none, ·)) out met

theorem expand_iff {result : List Token} :
    expand lib tokens = .ok result ↔ ∃ out met, Expands lib tokens out met ∧ result = out.map Prod.snd := by
  rw [expand]
  constructor
  · intro h
    cases hr : expandFrom lib [] (tokens.map (none, ·)) with
    | error fault =>
      rw [hr] at h
      cases h
    | ok r =>
      rw [hr] at h
      cases h
      obtain ⟨out, hout, hresult⟩ := spliced_of_expandFrom hr
      exact ⟨out, r.2, hout, hresult⟩
  · rintro ⟨out, met, hout, rfl⟩
    have hr := hout.expandFrom []
    rw [List.append_nil] at hr
    rw [hr, expandFrom]
    exact congrArg Except.ok (List.append_nil _)

theorem exists_expand
    (h : ∀ path quoted includer, Asked lib tokens path quoted includer →
      ∃ key body, Finds lib path quoted includer key body) :
    ∃ result, expand lib tokens = .ok result := by
  obtain ⟨r, hr⟩ : ∃ r, expandFrom lib [] (tokens.map (none, ·)) = .ok r := exists_expandFrom followed_first h
  exact ⟨r.1, by rw [expand, hr]; rfl⟩

namespace Expands

theorem met_asked (h : Expands lib tokens out met) {key : String} (hkey : key ∈ met) :
    ∃ path quoted includer body, Asked lib tokens path quoted includer ∧
      Finds lib path quoted includer key body ∧ ∀ t ∈ body, Spliced.Served lib met (some key, t) :=
  (Spliced.met_asked h followed_first key hkey).resolve_left List.not_mem_nil

/-- Whatever is asked for is met. -/
theorem asked_met (hlib : lib.Faithful) (h : Expands lib tokens out met)
    (hasked : Asked lib tokens path quoted includer) :
    ∃ key body, Finds lib path quoted includer key body ∧ key ∈ met := by
  -- a directive in the first file or in a file that is met
  have hserved {p : Pending} (hp : Spliced.Served lib met p) {path : String} {quoted : Bool}
      (hkind : p.2.kind = .include path quoted) : ∃ key body, Finds lib path quoted p.1 key body ∧ key ∈ met := by
    obtain ⟨key, text, hfile, hkey⟩ := hp path quoted hkind
    obtain ⟨_, _, _, body, -, ⟨text', hfile', hscan⟩, -⟩ := h.met_asked hkey
    cases hlib hfile hfile'
    exact ⟨key, body, ⟨text, hfile, hscan⟩, hkey⟩
  induction hasked with
  | first ht hkind => exact hserved (Spliced.served h _ (List.mem_map_of_mem ht)) hkind
  | within _ hfinds ht hkind ih =>
    obtain ⟨text, hfile, hscan⟩ := hfinds
    obtain ⟨_, _, ⟨_, hfile', -⟩, hkey⟩ := ih
    rw [hfile] at hfile'
    cases hfile'
    obtain ⟨_, _, _, body, -, ⟨text', hfile', hscan'⟩, hbody⟩ := h.met_asked hkey
    cases hlib hfile hfile'
    cases hscan.symm.trans hscan'
    exact hserved (hbody _ ht) hkind

/-- Each token of the first file is kept once. -/
theorem own_none (h : Expands lib tokens out met) : own none out = tokens.filter (!isDirective ·) := by
  rw [Spliced.own_of_entered h (by rintro k ⟨⟩), own_label]

/-- Each token of another file is kept once, or not at all. -/
theorem own_some (h : Expands lib tokens out met) (key : String) :
    (key ∉ met ∧ own (some key) out = []) ∨ key ∈ met ∧ ∃ path quoted includer body,
      Finds lib path quoted includer key body ∧ own (some key) out = ordinary body :=
  Spliced.own_of_not_mem h List.not_mem_nil (own_of_ne (Option.some_ne_none key).symm _)

theorem ends (h : Expands lib tokens out met) :
    (out.map Prod.snd).filter (·.kind == .endOfFile) = tokens.filter (·.kind == .endOfFile) := by
  rw [List.filter_map, Function.comp_def, Spliced.ends h, List.filter_map, List.map_map]
  exact List.map_id' _

end Expands

end TapeC.Include
