import Mathlib.Data.List.Infix
import Mathlib.Logic.Relation
import Wiring.Cancellation

/-!
# Cancellation follows the derivation of tokens

A token knows nothing of where it comes from but the flags that it observes, copied when it was made.
All the same a cancellation gets to just those tokens that the history of their making says: the
token cancelled, under whatever handle, and those derived from it, sooner or later.

* `History` — what a program does with tokens, one act after another.
* `SameToken`, `Derived`, `Siblings` — how tokens are related, told from the acts alone.
* `Reflects`, `History.reflects` — what the flags say about the history.
* `History.governs_iff` — a token observes the flag of another just if that one governs it.
* `History.cancels_derived` — which tokens are cancelled, and what a cancellation leaves alone.
-/

namespace Wiring.Tokens

/-! ### What a program does with tokens -/

/-- Something done with tokens. A token is named by its number. -/
inductive Act where
  | fresh
  | child (parent : Nat)
  | clone (original : Nat)
  | cancel (token : Nat)
  deriving DecidableEq

/-- What an act does. -/
def Act.apply (ts : Tokens) : Act → Tokens
  | .fresh => ts.fresh
  | .child parent => ts.child parent
  | .clone original => ts.clone original
  | .cancel token => ts.cancel token

/-- The token that an act is done to has been made. -/
def Act.IsPossible (ts : Tokens) : Act → Prop
  | .fresh => True
  | .child token | .clone token | .cancel token => token < ts.size

instance (ts : Tokens) : (act : Act) → Decidable (act.IsPossible ts)
  | .fresh => .isTrue trivial
  | .child token => inferInstanceAs (Decidable (token < ts.size))
  | .clone token => inferInstanceAs (Decidable (token < ts.size))
  | .cancel token => inferInstanceAs (Decidable (token < ts.size))

/-- Whether an act makes a token. -/
def Act.makes : Act → Bool
  | .cancel _ => false
  | _ => true

/-- A program that starts without tokens does one thing after another with those that it has made. -/
inductive History : List Act → Tokens → Prop where
  | start : History [] ⟨[], []⟩
  | next {acts : List Act} {ts : Tokens} (before : History acts ts) (act : Act)
      (possible : act.IsPossible ts) : History (acts ++ [act]) (act.apply ts)

/-! ### How tokens are related -/

/-- The acts that made the tokens, in the order of their numbers. -/
def makers (acts : List Act) : List Act := acts.filter Act.makes

/-- A token was made as a clone of another. -/
def IsClone (acts : List Act) (original token : Nat) : Prop :=
  (makers acts)[token]? = some (.clone original)

/-- A token was made as a child of another. -/
def IsChild (acts : List Act) (parent token : Nat) : Prop :=
  (makers acts)[token]? = some (.child parent)

/-- Two numbers stand for one token: one is a clone of the other, or of a clone, and so on. -/
def SameToken (acts : List Act) : Nat → Nat → Prop :=
  Relation.EqvGen (IsClone acts)

/-- A token was derived from another, directly, by whatever handles of the two. -/
def Derived (acts : List Act) (ancestor token : Nat) : Prop :=
  ∃ parent child, SameToken acts ancestor parent ∧ IsChild acts parent child ∧
    SameToken acts child token

/-- A token is another one, or that one was derived from it, directly or through others. -/
def Governs (acts : List Act) (governor token : Nat) : Prop :=
  SameToken acts governor token ∨ Relation.TransGen (Derived acts) governor token

/-- Two tokens were derived from one, each by an act of its own. -/
def Siblings (acts : List Act) (token other : Nat) : Prop :=
  ∃ parent parent' child child', SameToken acts parent parent' ∧ IsChild acts parent child ∧
    IsChild acts parent' child' ∧ child ≠ child' ∧ SameToken acts child token ∧
    SameToken acts child' other

section

variable {acts : List Act} {a b c : Nat}

theorem SameToken.refl (a : Nat) : SameToken acts a a :=
  Relation.EqvGen.refl a

theorem SameToken.symm (h : SameToken acts a b) : SameToken acts b a :=
  Relation.EqvGen.symm a b h

theorem SameToken.trans (h : SameToken acts a b) (h' : SameToken acts b c) : SameToken acts a c :=
  Relation.EqvGen.trans a b c h h'

theorem IsClone.same (h : IsClone acts a b) : SameToken acts a b :=
  Relation.EqvGen.rel a b h

theorem IsChild.derived (h : IsChild acts a b) : Derived acts a b :=
  ⟨a, b, .refl a, h, .refl b⟩

theorem Derived.trans_same (h : Derived acts a b) (h' : SameToken acts b c) : Derived acts a c :=
  let ⟨parent, child, hparent, hchild, hsame⟩ := h
  ⟨parent, child, hparent, hchild, hsame.trans h'⟩

theorem Derived.same_trans (h : SameToken acts a b) (h' : Derived acts b c) : Derived acts a c :=
  let ⟨parent, child, hparent, hchild, hsame⟩ := h'
  ⟨parent, child, h.trans hparent, hchild, hsame⟩

theorem Governs.trans_same (h : Governs acts a b) (h' : SameToken acts b c) : Governs acts a c := by
  rcases h with h | h
  · exact .inl (h.trans h')
  · obtain ⟨d, hd, hlast⟩ := Relation.TransGen.tail'_iff.mp h
    exact .inr (Relation.TransGen.tail' hd (hlast.trans_same h'))

theorem Governs.same_trans (h : SameToken acts a b) (h' : Governs acts b c) : Governs acts a c := by
  rcases h' with h' | h'
  · exact .inl (h.trans h')
  · obtain ⟨d, hfirst, hd⟩ := Relation.TransGen.head'_iff.mp h'
    exact .inr (Relation.TransGen.head' (.same_trans h hfirst) hd)

theorem Governs.trans_child (h : Governs acts a b) (h' : IsChild acts b c) : Governs acts a c := by
  rcases h with h | h
  · exact .inr (.single (.same_trans h h'.derived))
  · exact .inr (h.tail h'.derived)

/-! Further acts change nothing of how the tokens made before are related. -/

theorem makers_append (acts : List Act) (act : Act) :
    makers (acts ++ [act]) = makers acts ++ if act.makes then [act] else [] := by
  cases act <;> simp [makers, Act.makes]

theorem getElem?_makers_append {act made : Act} {token : Nat}
    (h : (makers acts)[token]? = some made) : (makers (acts ++ [act]))[token]? = some made := by
  rw [makers_append, List.getElem?_append_left (List.getElem?_eq_some_iff.mp h).1]
  exact h

theorem SameToken.further (h : SameToken acts a b) (act : Act) : SameToken (acts ++ [act]) a b :=
  Relation.EqvGen.mono (fun _ _ hclone => getElem?_makers_append hclone) _ _ h

theorem Derived.further (h : Derived acts a b) (act : Act) : Derived (acts ++ [act]) a b :=
  let ⟨parent, child, hparent, hchild, hsame⟩ := h
  ⟨parent, child, hparent.further act, getElem?_makers_append hchild, hsame.further act⟩

theorem Governs.further (h : Governs acts a b) (act : Act) : Governs (acts ++ [act]) a b :=
  h.imp (·.further act) (Relation.TransGen.mono (fun _ _ hderived => hderived.further act) _ _)

end

/-! ### Flags -/

section

variable {ts : Tokens} {ancestors : List Nat} {token other : Nat}

@[simp] theorem size_derive : (ts.derive ancestors).size = ts.size + 1 := by
  simp [size, derive]

@[simp] theorem size_clone : (ts.clone token).size = ts.size + 1 := by
  simp [size, clone]

theorem flagsOf_derive (h : token < ts.size) :
    (ts.derive ancestors).flagsOf token = ts.flagsOf token := by
  simp [flagsOf, derive, List.getElem?_append_left (show token < ts.observed.length from h)]

@[simp] theorem flagsOf_derive_size :
    (ts.derive ancestors).flagsOf ts.size = ancestors ++ [ts.flags.length] := by
  simp [flagsOf, derive, size]

theorem flagsOf_clone (h : token < ts.size) : (ts.clone other).flagsOf token = ts.flagsOf token := by
  simp [flagsOf, clone, List.getElem?_append_left (show token < ts.observed.length from h)]

@[simp] theorem flagsOf_clone_size : (ts.clone token).flagsOf ts.size = ts.flagsOf token := by
  simp [flagsOf, clone, size]

@[simp] theorem observed_cancel : (ts.cancel token).observed = ts.observed := by
  unfold cancel
  split <;> rfl

@[simp] theorem flagsOf_cancel : (ts.cancel token).flagsOf other = ts.flagsOf other := by
  simp [flagsOf]

@[simp] theorem size_cancel : (ts.cancel token).size = ts.size := by
  simp [size]

/-- A token that was not made observes nothing. -/
theorem lt_size_of_mem {flag : Nat} (h : flag ∈ ts.flagsOf token) : token < ts.size := by
  by_contra hnot
  rw [flagsOf, List.getElem?_eq_none (Nat.le_of_not_lt hnot)] at h
  cases h

/-- The flag that a token raises when it is cancelled. -/
def own? (ts : Tokens) (token : Nat) : Option Nat := (ts.flagsOf token).getLast?

/-- The flag is raised. -/
def IsRaised (ts : Tokens) (flag : Nat) : Prop := ts.flags[flag]? = some true

theorem mem_of_own? {flag : Nat} (h : ts.own? token = some flag) : flag ∈ ts.flagsOf token :=
  List.mem_of_getLast? h

theorem lt_size_of_own? {flag : Nat} (h : ts.own? token = some flag) : token < ts.size :=
  lt_size_of_mem (mem_of_own? h)

theorem own?_derive (h : token < ts.size) : (ts.derive ancestors).own? token = ts.own? token := by
  rw [own?, own?, flagsOf_derive h]

@[simp] theorem own?_derive_size :
    (ts.derive ancestors).own? ts.size = some ts.flags.length := by
  simp [own?]

theorem own?_clone (h : token < ts.size) : (ts.clone other).own? token = ts.own? token := by
  rw [own?, own?, flagsOf_clone h]

@[simp] theorem own?_clone_size : (ts.clone token).own? ts.size = ts.own? token := by
  simp [own?]

@[simp] theorem own?_cancel : (ts.cancel token).own? other = ts.own? other := by
  simp [own?]

theorem isRaised_derive {flag : Nat} : (ts.derive ancestors).IsRaised flag ↔ ts.IsRaised flag := by
  rcases Nat.lt_trichotomy flag ts.flags.length with hlt | rfl | hgt
  · simp [IsRaised, derive, List.getElem?_append_left hlt]
  · simp [IsRaised, derive]
  · simp [IsRaised, derive, List.getElem?_append_right hgt.le, Nat.sub_ne_zero_of_lt hgt,
      List.getElem?_eq_none hgt.le]

theorem isCancelled_iff :
    ts.isCancelled token = true ↔ ∃ flag ∈ ts.flagsOf token, ts.IsRaised flag := by
  simp only [isCancelled, List.any_eq_true, IsRaised]
  refine exists_congr fun flag => and_congr_right fun _ => ?_
  cases ts.flags[flag]? <;> simp

/-- Cancelling a token raises its flag and no other. -/
theorem isRaised_cancel {flag own : Nat} (hown : ts.own? token = some own)
    (hlt : own < ts.flags.length) :
    (ts.cancel token).IsRaised flag ↔ flag = own ∨ ts.IsRaised flag := by
  have hlast : (ts.flagsOf token).getLast? = some own := hown
  rw [IsRaised, IsRaised, cancel, hlast]
  by_cases heq : flag = own
  · subst heq
    simp [hlt]
  · simp [heq, List.getElem?_set_ne (Ne.symm heq)]

end

/-! ### What the flags say about the history -/

/-- The flags are as the acts left them. A token observes a list of flags: its own, which comes last, and
before it those of the token that it was derived from. Handles to one token observe one list. That
a flag is observed only below the tokens that own it is what makes a cancellation reach the tokens
derived and no others. -/
structure Reflects (acts : List Act) (ts : Tokens) : Prop where
  size_eq : ts.size = (makers acts).length
  bounded : ∀ {token flag}, flag ∈ ts.flagsOf token → flag < ts.flags.length
  owns : ∀ {token}, token < ts.size → ∃ own, ts.own? token = some own
  cloned : ∀ {original token}, IsClone acts original token →
    ts.flagsOf token = ts.flagsOf original
  derived : ∀ {parent token}, IsChild acts parent token → parent < ts.size ∧
    ∃ own, ts.flagsOf token = ts.flagsOf parent ++ [own]
  /-- No two acts of derivation give one flag. -/
  distinct : ∀ {parent parent' token other}, IsChild acts parent token →
    IsChild acts parent' other → ts.own? token = ts.own? other → token = other
  /-- A flag is observed by the tokens governed by those that own it, and by no others. -/
  governed : ∀ {governor token own}, ts.own? governor = some own → own ∈ ts.flagsOf token →
    Governs acts governor token
  /-- A flag is raised by cancelling a token that owns it, and by nothing else. -/
  raised : ∀ {flag}, ts.IsRaised flag ↔ ∃ token, .cancel token ∈ acts ∧ ts.own? token = some flag
  made : ∀ {token}, .cancel token ∈ acts → token < ts.size

section

variable {acts : List Act} {ts : Tokens} {act made : Act} {token governor other : Nat}

theorem getElem?_makers_next :
    (makers (acts ++ [act]))[token]? = some made ↔ (makers acts)[token]? = some made ∨
      token = (makers acts).length ∧ act.makes ∧ made = act := by
  rw [makers_append]
  rcases Nat.lt_trichotomy token (makers acts).length with hlt | rfl | hgt
  · rw [List.getElem?_append_left hlt]
    simp [hlt.ne]
  · cases act.makes <;> simp [eq_comm]
  · rw [List.getElem?_append_right hgt.le, List.getElem?_eq_none (l := makers acts) hgt.le]
    cases act.makes <;> simp [hgt.ne', Nat.sub_ne_zero_of_lt hgt]

namespace Reflects

theorem start : Reflects [] ⟨[], []⟩ where
  size_eq := rfl
  bounded h := by simp [flagsOf] at h
  owns h := by simp [size] at h
  cloned h := by simp [IsClone, makers] at h
  derived h := by simp [IsChild, makers] at h
  distinct h := by simp [IsChild, makers] at h
  governed h := by simp [own?, flagsOf] at h
  raised := by simp [IsRaised]
  made h := by cases h

theorem lt_size (h : Reflects acts ts) (hmade : (makers acts)[token]? = some made) :
    token < ts.size :=
  h.size_eq ▸ (List.getElem?_eq_some_iff.mp hmade).1

theorem own_lt (h : Reflects acts ts) {own : Nat} (hown : ts.own? token = some own) :
    own < ts.flags.length :=
  h.bounded (mem_of_own? hown)

theorem original_lt (h : Reflects acts ts) {original : Nat} (hclone : IsClone acts original token) :
    original < ts.size := by
  obtain ⟨own, hown⟩ := h.owns (h.lt_size hclone)
  have hmem := mem_of_own? hown
  rw [h.cloned hclone] at hmem
  exact lt_size_of_mem hmem

/-- A token of its own, derived from another one or from none. It observes what the other observes and a
flag of its own, which no token has observed before. -/
theorem derive (h : Reflects acts ts) {ancestors : List Nat}
    (hact : act = .fresh ∧ ancestors = [] ∨
      ∃ parent < ts.size, act = .child parent ∧ ancestors = ts.flagsOf parent) :
    Reflects (acts ++ [act]) (ts.derive ancestors) where
  size_eq := by
    rcases hact with ⟨rfl, -⟩ | ⟨parent, -, rfl, -⟩ <;>
      simp [makers_append, Act.makes, h.size_eq]
  -- The new token observes the flags of the token it is derived from and one more, which is new:
  -- its number is the count of the flags so far. So every clause splits into the tokens there were,
  -- of which nothing has changed, and the new one.
  bounded := by
    intro token flag hflag
    have hlength : (ts.derive ancestors).flags.length = ts.flags.length + 1 := by
      simp [Tokens.derive]
    rw [hlength]
    rcases Nat.lt_succ_iff_lt_or_eq.mp (size_derive ▸ lt_size_of_mem hflag) with hlt | rfl
    · rw [flagsOf_derive hlt] at hflag
      exact Nat.lt_succ_of_lt (h.bounded hflag)
    · rw [flagsOf_derive_size, List.mem_append, List.mem_singleton] at hflag
      rcases hflag with hflag | rfl
      · obtain ⟨-, rfl⟩ | ⟨parent, -, -, rfl⟩ := hact
        · cases hflag
        · exact Nat.lt_succ_of_lt (h.bounded hflag)
      · exact Nat.lt_succ_self _
  owns := by
    intro token hlt
    rcases Nat.lt_succ_iff_lt_or_eq.mp (size_derive ▸ hlt) with hlt | rfl
    · rw [own?_derive hlt]
      exact h.owns hlt
    · exact ⟨_, own?_derive_size⟩
  cloned := by
    intro original token hclone
    rcases getElem?_makers_next.mp hclone with hclone | ⟨-, -, rfl⟩
    · rw [flagsOf_derive (h.lt_size hclone), flagsOf_derive (h.original_lt hclone)]
      exact h.cloned hclone
    · simp at hact
  derived := by
    intro parent token hchild
    rcases getElem?_makers_next.mp hchild with hchild | ⟨rfl, -, rfl⟩
    · obtain ⟨hparent, own, hflags⟩ := h.derived hchild
      rw [flagsOf_derive (h.lt_size hchild), flagsOf_derive hparent, size_derive]
      exact ⟨Nat.lt_succ_of_lt hparent, own, hflags⟩
    · obtain ⟨hact, -⟩ | ⟨_, hparent, hact, rfl⟩ := hact
      · cases hact
      · cases hact
        rw [flagsOf_derive hparent, ← h.size_eq, flagsOf_derive_size, size_derive]
        exact ⟨Nat.lt_succ_of_lt hparent, _, rfl⟩
  distinct := by
    intro parent parent' token other hchild hother hown
    rcases getElem?_makers_next.mp hchild with hchild | ⟨rfl, -, -⟩ <;>
      rcases getElem?_makers_next.mp hother with hother | ⟨rfl, -, -⟩
    · rw [own?_derive (h.lt_size hchild), own?_derive (h.lt_size hother)] at hown
      exact h.distinct hchild hother hown
    -- The flag of a token derived earlier has a lower number than the new flag.
    · rw [own?_derive (h.lt_size hchild), ← h.size_eq, own?_derive_size] at hown
      exact absurd (h.own_lt hown) (Nat.lt_irrefl _)
    · rw [own?_derive (h.lt_size hother), ← h.size_eq, own?_derive_size] at hown
      exact absurd (h.own_lt hown.symm) (Nat.lt_irrefl _)
    · rfl
  governed := by
    intro governor token own hown hflag
    rcases Nat.lt_succ_iff_lt_or_eq.mp (size_derive ▸ lt_size_of_own? hown) with hgovernor | rfl <;>
      rcases Nat.lt_succ_iff_lt_or_eq.mp (size_derive ▸ lt_size_of_mem hflag) with htoken | rfl
    -- Governor and token were there before.
    · rw [own?_derive hgovernor] at hown
      rw [flagsOf_derive htoken] at hflag
      exact (h.governed hown hflag).further act
    -- Only the token is new: it observes the governor's flag because the token it is derived from
    -- does, and is then governed one derivation further. Its own flag is nobody else's.
    · rw [own?_derive hgovernor] at hown
      rw [flagsOf_derive_size, List.mem_append, List.mem_singleton] at hflag
      obtain hflag | rfl := hflag
      · obtain ⟨-, rfl⟩ | ⟨parent, -, rfl, rfl⟩ := hact
        · cases hflag
        · exact ((h.governed hown hflag).further _).trans_child
            (getElem?_makers_next.mpr (.inr ⟨h.size_eq, rfl, rfl⟩))
      · exact absurd (h.own_lt hown) (Nat.lt_irrefl _)
    -- Only the governor is new: no token there was observes its flag, which is new as well.
    · rw [own?_derive_size, Option.some.injEq] at hown
      rw [flagsOf_derive htoken, ← hown] at hflag
      exact absurd (h.bounded hflag) (Nat.lt_irrefl _)
    · exact .inl (.refl _)
  raised := by
    intro flag
    rw [isRaised_derive, h.raised]
    refine exists_congr fun token => ?_
    constructor
    · rintro ⟨hcancel, hown⟩
      exact ⟨List.mem_append_left _ hcancel, (own?_derive (h.made hcancel)).trans hown⟩
    · rintro ⟨hcancel, hown⟩
      obtain hcancel | hcancel := List.mem_append.mp hcancel
      · exact ⟨hcancel, (own?_derive (h.made hcancel)).symm.trans hown⟩
      -- Deriving a token is not a cancellation.
      · rw [← List.mem_singleton.mp hcancel] at hact
        simp at hact
  made := by
    intro token hcancel
    obtain hcancel | hcancel := List.mem_append.mp hcancel
    · exact size_derive ▸ Nat.lt_succ_of_lt (h.made hcancel)
    · rw [← List.mem_singleton.mp hcancel] at hact
      simp at hact

/-- Another handle to a token. The two are the same token, and observe the same flags. -/
theorem clone (h : Reflects acts ts) {original : Nat} (hlt : original < ts.size) :
    Reflects (acts ++ [.clone original]) (ts.clone original) where
  size_eq := by simp [makers_append, Act.makes, h.size_eq]
  -- The new handle observes the flags of the token it is a handle to, its own flag included, so
  -- that whatever holds of the one holds of the other.
  bounded := by
    intro token flag hflag
    rcases Nat.lt_succ_iff_lt_or_eq.mp (size_clone ▸ lt_size_of_mem hflag) with htoken | rfl
    · rw [flagsOf_clone htoken] at hflag
      exact h.bounded hflag
    · rw [flagsOf_clone_size] at hflag
      exact h.bounded hflag
  owns := by
    intro token htoken
    rcases Nat.lt_succ_iff_lt_or_eq.mp (size_clone ▸ htoken) with htoken | rfl
    · rw [own?_clone htoken]
      exact h.owns htoken
    · rw [own?_clone_size]
      exact h.owns hlt
  cloned := by
    intro original' token hclone
    rcases getElem?_makers_next.mp hclone with hclone | ⟨rfl, -, hact⟩
    · rw [flagsOf_clone (h.lt_size hclone), flagsOf_clone (h.original_lt hclone)]
      exact h.cloned hclone
    · cases hact
      rw [← h.size_eq, flagsOf_clone_size, flagsOf_clone hlt]
  derived := by
    intro parent token hchild
    obtain hchild | ⟨-, -, hact⟩ := getElem?_makers_next.mp hchild
    · obtain ⟨hparent, own, hflags⟩ := h.derived hchild
      rw [flagsOf_clone (h.lt_size hchild), flagsOf_clone hparent, size_clone]
      exact ⟨Nat.lt_succ_of_lt hparent, own, hflags⟩
    · cases hact
  distinct := by
    intro parent parent' token other hchild hother hown
    obtain hchild | ⟨-, -, hact⟩ := getElem?_makers_next.mp hchild
    · obtain hother | ⟨-, -, hact⟩ := getElem?_makers_next.mp hother
      · rw [own?_clone (h.lt_size hchild), own?_clone (h.lt_size hother)] at hown
        exact h.distinct hchild hother hown
      · cases hact
    · cases hact
  governed := by
    intro governor token own hown hflag
    have hclone : IsClone (acts ++ [.clone original]) original ts.size :=
      getElem?_makers_next.mpr (.inr ⟨h.size_eq, rfl, rfl⟩)
    rcases Nat.lt_succ_iff_lt_or_eq.mp (size_clone ▸ lt_size_of_own? hown) with hgovernor | rfl <;>
      rcases Nat.lt_succ_iff_lt_or_eq.mp (size_clone ▸ lt_size_of_mem hflag) with htoken | rfl
    · rw [own?_clone hgovernor] at hown
      rw [flagsOf_clone htoken] at hflag
      exact (h.governed hown hflag).further _
    -- The handle is governed by what governs its token: they are the same.
    · rw [own?_clone hgovernor] at hown
      rw [flagsOf_clone_size] at hflag
      exact ((h.governed hown hflag).further _).trans_same hclone.same
    -- And it governs what its token governs.
    · rw [own?_clone_size] at hown
      rw [flagsOf_clone htoken] at hflag
      exact .same_trans hclone.same.symm ((h.governed hown hflag).further _)
    · exact .inl (.refl _)
  raised := by
    intro flag
    have hraised : (ts.clone original).IsRaised flag ↔ ts.IsRaised flag := Iff.rfl
    rw [hraised, h.raised]
    refine exists_congr fun token => ?_
    constructor
    · rintro ⟨hcancel, hown⟩
      exact ⟨List.mem_append_left _ hcancel, (own?_clone (h.made hcancel)).trans hown⟩
    · rintro ⟨hcancel, hown⟩
      have hcancel : .cancel token ∈ acts := by simpa using hcancel
      exact ⟨hcancel, (own?_clone (h.made hcancel)).symm.trans hown⟩
  made := by
    intro token hcancel
    have hcancel : .cancel token ∈ acts := by simpa using hcancel
    exact size_clone ▸ Nat.lt_succ_of_lt (h.made hcancel)

/-- Cancelling a token. It raises the token's own flag, which is seen through every handle to it and by
the tokens derived from it. -/
theorem cancel (h : Reflects acts ts) {cancelled : Nat} (hlt : cancelled < ts.size) :
    Reflects (acts ++ [.cancel cancelled]) (ts.cancel cancelled) := by
  have hmakers : makers (acts ++ [.cancel cancelled]) = makers acts := by
    simp [makers_append, Act.makes]
  obtain ⟨own, hown⟩ := h.owns hlt
  -- No token is made and no list of flags changes: only `raised` and `made` speak of cancellations.
  exact {
    size_eq := by rw [hmakers, size_cancel, h.size_eq]
    bounded := fun hflag => by
      have hlength : (ts.cancel cancelled).flags.length = ts.flags.length := by
        unfold Tokens.cancel
        split <;> simp
      rw [flagsOf_cancel] at hflag
      exact hlength ▸ h.bounded hflag
    owns := fun htoken => by
      rw [own?_cancel]
      exact h.owns (size_cancel ▸ htoken)
    cloned := fun hclone => by
      rw [IsClone, hmakers] at hclone
      simpa using h.cloned hclone
    derived := fun hchild => by
      rw [IsChild, hmakers] at hchild
      simpa using h.derived hchild
    distinct := fun hchild hother howns => by
      rw [IsChild, hmakers] at hchild hother
      exact h.distinct hchild hother (by simpa using howns)
    governed := fun howns hflag => by
      rw [own?_cancel] at howns
      rw [flagsOf_cancel] at hflag
      exact (h.governed howns hflag).further _
    raised := by
      intro flag
      rw [isRaised_cancel hown (h.own_lt hown), h.raised]
      constructor
      -- The flag raised is that of the token cancelled, whichever of its handles was used.
      · rintro (rfl | ⟨token, hcancel, howns⟩)
        · exact ⟨cancelled, by simp, by simpa using hown⟩
        · exact ⟨token, List.mem_append_left _ hcancel, by simpa using howns⟩
      · rintro ⟨token, hcancel, howns⟩
        rw [own?_cancel] at howns
        obtain hcancel | hcancel := List.mem_append.mp hcancel
        · exact .inr ⟨token, hcancel, howns⟩
        · cases List.mem_singleton.mp hcancel
          exact .inl (Option.some.inj (howns.symm.trans hown))
    made := fun hcancel => by
      rw [size_cancel]
      obtain hcancel | hcancel := List.mem_append.mp hcancel
      · exact h.made hcancel
      · cases List.mem_singleton.mp hcancel
        exact hlt }

/-- One more act. -/
theorem next (h : Reflects acts ts) (act : Act) (possible : act.IsPossible ts) :
    Reflects (acts ++ [act]) (act.apply ts) := by
  cases act with
  | fresh => exact h.derive (.inl ⟨rfl, rfl⟩)
  | child parent => exact h.derive (.inr ⟨parent, possible, rfl, rfl⟩)
  | clone original => exact h.clone possible
  | cancel token => exact h.cancel possible

/-! Tokens that are one observe one list of flags, and a token derived from another a longer one. -/

theorem flagsOf_same (h : Reflects acts ts) (hsame : SameToken acts token other) :
    ts.flagsOf token = ts.flagsOf other := by
  induction hsame with
  | rel original clone hclone => exact (h.cloned hclone).symm
  | refl => rfl
  | symm _ _ _ ih => exact ih.symm
  | trans _ _ _ _ _ ih ih' => exact ih.trans ih'

theorem flagsOf_derived (h : Reflects acts ts) (hderived : Derived acts token other) :
    ∃ own, ts.flagsOf other = ts.flagsOf token ++ [own] := by
  obtain ⟨parent, child, hparent, hchild, hsame⟩ := hderived
  obtain ⟨-, own, hflags⟩ := h.derived hchild
  exact ⟨own, by rw [← h.flagsOf_same hsame, hflags, h.flagsOf_same hparent]⟩

theorem flagsOf_transGen (h : Reflects acts ts)
    (hderived : Relation.TransGen (Derived acts) token other) :
    ∃ owns ≠ [], ts.flagsOf other = ts.flagsOf token ++ owns := by
  induction hderived with
  | single hlast =>
    obtain ⟨own, hflags⟩ := h.flagsOf_derived hlast
    exact ⟨[own], by simp, hflags⟩
  | tail _ hlast ih =>
    obtain ⟨owns, -, hflags⟩ := ih
    obtain ⟨own, hflags'⟩ := h.flagsOf_derived hlast
    exact ⟨owns ++ [own], by simp, by rw [hflags', hflags, List.append_assoc]⟩

theorem flagsOf_governed (h : Reflects acts ts) (hgoverns : Governs acts token other) :
    ts.flagsOf token <+: ts.flagsOf other := by
  rcases hgoverns with hsame | hderived
  · rw [h.flagsOf_same hsame]
  · obtain ⟨owns, -, hflags⟩ := h.flagsOf_transGen hderived
    exact ⟨owns, hflags.symm⟩

/-- The tokens derived from one do not govern it. -/
theorem not_governs_ancestor (h : Reflects acts ts)
    (hderived : Relation.TransGen (Derived acts) token other) : ¬ Governs acts other token := by
  intro hgoverns
  obtain ⟨owns, hne, hflags⟩ := h.flagsOf_transGen hderived
  -- A token derived from another one observes strictly more flags, and would observe at most as
  -- many.
  have hlength := (h.flagsOf_governed hgoverns).length_le
  rw [hflags, List.length_append] at hlength
  exact hne (List.length_eq_zero_iff.mp (by omega))

theorem not_governs_sibling (h : Reflects acts ts) (hsiblings : Siblings acts token other) :
    ¬ Governs acts other token := by
  intro hgoverns
  obtain ⟨parent, parent', child, child', hparent, hchild, hchild', hne, hsame, hsame'⟩ := hsiblings
  obtain ⟨-, own, hflags⟩ := h.derived hchild
  obtain ⟨-, own', hflags'⟩ := h.derived hchild'
  rw [h.flagsOf_same hparent] at hflags
  -- The two observe lists of one length, so that the one cannot extend the other.
  have hprefix := h.flagsOf_governed hgoverns
  rw [← h.flagsOf_same hsame, ← h.flagsOf_same hsame'] at hprefix
  have heq := hprefix.eq_of_length (by simp [hflags, hflags'])
  exact hne (h.distinct hchild hchild' (by rw [own?, own?, heq]))

end Reflects

namespace History

theorem reflects (h : History acts ts) : Reflects acts ts := by
  induction h with
  | start => exact .start
  | next _ act possible ih => exact ih.next act possible

/-- A token observes the flag of another just if that one governs it. -/
theorem governs_iff (h : History acts ts) {own : Nat} (hown : ts.own? governor = some own) :
    Governs acts governor token ↔ own ∈ ts.flagsOf token :=
  ⟨fun hgoverns => (h.reflects.flagsOf_governed hgoverns).subset (mem_of_own? hown),
    h.reflects.governed hown⟩

/-- The tokens that are cancelled: those governed by a token of which a cancellation was asked for, no
matter whether they were derived before it or after. -/
theorem isCancelled_iff_governs (h : History acts ts) :
    ts.isCancelled token = true ↔ ∃ cancelled, .cancel cancelled ∈ acts ∧
      Governs acts cancelled token := by
  rw [isCancelled_iff]
  constructor
  · rintro ⟨flag, hflag, hraised⟩
    obtain ⟨cancelled, hcancel, hown⟩ := h.reflects.raised.mp hraised
    exact ⟨cancelled, hcancel, (h.governs_iff hown).mpr hflag⟩
  · rintro ⟨cancelled, hcancel, hgoverns⟩
    obtain ⟨own, hown⟩ := h.reflects.owns (h.reflects.made hcancel)
    exact ⟨own, (h.governs_iff hown).mp hgoverns, h.reflects.raised.mpr ⟨cancelled, hcancel, hown⟩⟩

/-- A cancellation changes nothing for a token that the one cancelled does not govern. -/
theorem isCancelled_cancel_of_not_governs (h : History acts ts) {cancelled : Nat}
    (hnot : ¬ Governs acts cancelled token) :
    (ts.cancel cancelled).isCancelled token = ts.isCancelled token := by
  cases hown : ts.own? cancelled with
  | none =>
    have hlast : (ts.flagsOf cancelled).getLast? = none := hown
    rw [cancel, hlast]
  -- A token is cancelled by the flags that it observes, and the flag that is raised now is not
  -- among them.
  | some own =>
    have hkept : own ∉ ts.flagsOf token := (h.governs_iff hown).not.mp hnot
    rw [Bool.eq_iff_iff, isCancelled_iff, isCancelled_iff]
    refine exists_congr fun flag => ?_
    rw [flagsOf_cancel, isRaised_cancel hown (h.reflects.own_lt hown)]
    exact and_congr_right fun hflag => or_iff_right fun heq => hkept (heq ▸ hflag)

/-- A token is cancelled just if a cancellation was asked for on it or on what it was derived from,
under any handle and at any time; nothing changes for the tokens that the one cancelled was derived
from, for its siblings, and for all others that it does not govern. -/
theorem cancels_derived (h : History acts ts) :
    (∀ token < ts.size, ts.isCancelled token = true ↔
      ∃ cancelled, .cancel cancelled ∈ acts ∧ Governs acts cancelled token) ∧
    ∀ cancelled token,
      (Relation.TransGen (Derived acts) token cancelled ∨ Siblings acts token cancelled ∨
        ¬ Governs acts cancelled token) →
      (ts.cancel cancelled).isCancelled token = ts.isCancelled token := by
  refine ⟨fun token _ => h.isCancelled_iff_governs, fun cancelled token hunrelated => ?_⟩
  refine h.isCancelled_cancel_of_not_governs ?_
  rcases hunrelated with hancestor | hsiblings | hnot
  · exact h.reflects.not_governs_ancestor hancestor
  · exact h.reflects.not_governs_sibling hsiblings
  · exact hnot

/-- A run, a part of it with a part of its own, and a second handle to the part, cancelled before
one more part is derived through it and another from the run. -/
theorem cancels_derived_family :
    let acts : List Act := [.fresh, .child 0, .child 1, .clone 1, .cancel 3, .child 3, .child 0]
    let ts := acts.foldl Act.apply ⟨[], []⟩
    History acts ts ∧
      (List.range 6).map ts.isCancelled = [false, true, true, true, true, false] ∧
      Governs acts 3 2 ∧ Governs acts 3 4 ∧ ¬ Governs acts 3 0 ∧ ¬ Governs acts 3 5 := by
  intro acts ts
  have h : History acts ts :=
    .next (.next (.next (.next (.next (.next (.next .start .fresh (by decide)) (.child 0) (by decide))
      (.child 1) (by decide)) (.clone 1) (by decide)) (.cancel 3) (by decide)) (.child 3) (by decide))
      (.child 0) (by decide)
  have hcancelled := h.cancels_derived.1
  -- The one cancellation was asked for on the second handle, so that a token is cancelled just if
  -- that handle governs it.
  have honly {token : Nat} (hcancel : .cancel token ∈ acts) : token = 3 := by
    simpa [acts] using hcancel
  refine ⟨h, by decide, ?_, ?_, ?_, ?_⟩
  · obtain ⟨token, hcancel, hgoverns⟩ := (hcancelled 2 (by decide)).mp (by decide)
    exact honly hcancel ▸ hgoverns
  · obtain ⟨token, hcancel, hgoverns⟩ := (hcancelled 4 (by decide)).mp (by decide)
    exact honly hcancel ▸ hgoverns
  · intro hgoverns
    have hzero := (hcancelled 0 (by decide)).mpr ⟨3, by simp [acts], hgoverns⟩
    exact absurd hzero (by decide)
  · intro hgoverns
    have hfive := (hcancelled 5 (by decide)).mpr ⟨3, by simp [acts], hgoverns⟩
    exact absurd hfive (by decide)

end History

end

end Wiring.Tokens
