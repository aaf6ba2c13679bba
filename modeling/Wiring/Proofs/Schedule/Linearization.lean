import Mathlib.Data.List.Nodup
import Wiring.Proofs.Plan.Order
import Wiring.Proofs.Run
import Wiring.Proofs.Schedule.Chain

/-!
# The scheduler returns a linearization

`Schedule.longestChain` arranges any steps whose numbers are distinct and identify them
(`Identified`). The needs of a step form a finite tree, so together these say that the steps form a
directed acyclic graph.

The argument is about one round. Started steps and the ready step that runs next respect their needs
by the test that lets them through. The forced await is not tested; it is ready because

* every pending step that is no await waits for a pending step, so a chain of awaits starts at it
  (`exists_chain`), and
* a need that the await at the end of the longest chain still had would make that chain longer
  (`forced_ready`).

Of any other steps it is still true that what is arranged is what was given (`arrange_perm`).
-/

namespace Wiring

/-- A step and everything it needs, directly or through other steps. -/
inductive Step.Reaches : Step → Step → Prop
  | refl (s : Step) : Step.Reaches s s
  | need {s d t : Step} (hd : d ∈ s.needs) (tail : Step.Reaches d t) : Step.Reaches s t

/-- A need is a smaller tree than the step that has it. -/
theorem Step.sizeOf_need {s d : Step} (hd : d ∈ s.needs) : sizeOf d < sizeOf s := by
  cases s
  have := List.sizeOf_lt_of_mem hd
  simp only [Step.mk.sizeOf_spec] at this ⊢
  omega

/-- The number of a step tells it from every other step that the list leads to. -/
def Identified (steps : List Step) : Prop :=
  ∀ s ∈ steps, ∀ t ∈ steps, ∀ a b, s.Reaches a → t.Reaches b → a.id = b.id → a = b

namespace Step.Reaches

theorem of_mem {s d : Step} (hd : d ∈ s.needs) : s.Reaches d := .need hd (.refl d)

/-- What is closed under needs is not left. -/
theorem mem_of_closed {closed : List Step}
    (hclosed : ∀ s ∈ closed, ∀ d ∈ s.needs, d ∈ closed) {s t : Step} (h : s.Reaches t)
    (hs : s ∈ closed) : t ∈ closed := by
  induction h with
  | refl => exact hs
  | need hd _ ih => exact ih (hclosed _ hs _ hd)

/-- A step leads only to steps that are no larger trees. -/
theorem sizeOf_le {s t : Step} (h : s.Reaches t) : sizeOf t ≤ sizeOf s := by
  induction h with
  | refl => exact Nat.le_refl _
  | need hd _ ih => exact Nat.le_of_lt (Nat.lt_of_le_of_lt ih (sizeOf_need hd))

theorem trans {s t u : Step} (h : s.Reaches t) (h' : t.Reaches u) : s.Reaches u := by
  induction h with
  | refl => exact h'
  | need hd _ ih => exact .need hd (ih h')

end Step.Reaches

/-- A step needs another, directly or through other steps. -/
def Step.DependsOn (s t : Step) : Prop := ∃ need ∈ s.needs, need.Reaches t

namespace Step.DependsOn

theorem reaches {s t : Step} (h : s.DependsOn t) : s.Reaches t :=
  let ⟨_, hneed, hreaches⟩ := h
  .need hneed hreaches

theorem trans_reaches {s t u : Step} (h : s.DependsOn t) (h' : t.Reaches u) : s.DependsOn u :=
  let ⟨need, hneed, hreaches⟩ := h
  ⟨need, hneed, hreaches.trans h'⟩

/-- No step needs itself. -/
theorem ne {s t : Step} (h : s.DependsOn t) : s ≠ t := by
  obtain ⟨need, hneed, hreaches⟩ := h
  rintro rfl
  exact absurd hreaches.sizeOf_le (Nat.not_le.mpr (sizeOf_need hneed))

end Step.DependsOn

/-- Steps among steps that are closed under needs and have distinct numbers are identified. -/
theorem Identified.of_closed {steps closed : List Step} (hsub : ∀ s ∈ steps, s ∈ closed)
    (hclosed : ∀ s ∈ closed, ∀ d ∈ s.needs, d ∈ closed) (hnodup : (closed.map Step.id).Nodup) :
    Identified steps := by
  intro s hs t ht a b ha hb hid
  exact List.inj_on_of_nodup_map hnodup (ha.mem_of_closed hclosed (hsub s hs))
    (hb.mem_of_closed hclosed (hsub t ht)) hid

/-- Of identified steps, a need with the number of a listed step is that step. -/
theorem Identified.needs {steps : List Step} (h : Identified steps) :
    ∀ s ∈ steps, ∀ need ∈ s.needs, need.id ∈ steps.map Step.id → need ∈ steps := by
  intro s hs need hneed hid
  obtain ⟨t, ht, hid⟩ := List.mem_map.mp hid
  exact h t ht s hs t need (.refl t) (.of_mem hneed) hid ▸ ht

namespace Schedule

/-! ### Taking steps out of a list -/

theorem takeFirst_eq_none {α : Type} {p : α → Bool} {l : List α} :
    takeFirst p l = none ↔ ∀ a ∈ l, p a = false := by
  induction l with
  | nil => simp [takeFirst]
  | cons a rest ih =>
      by_cases h : p a = true
      · simp [takeFirst, h]
      · simp [takeFirst, h, ih]

/-- What `takeFirst` takes is the first element of the list that satisfies the condition; the others
stay as they stand. -/
theorem takeFirst_eq_some {α : Type} {p : α → Bool} {l left : List α} {a : α}
    (h : takeFirst p l = some (a, left)) :
    p a = true ∧ ∃ passed rest, l = passed ++ a :: rest ∧ left = passed ++ rest ∧
      ∀ b ∈ passed, p b = false := by
  induction l generalizing left with
  | nil => simp [takeFirst] at h
  | cons b rest ih =>
      by_cases hb : p b = true
      · simp only [takeFirst, hb, if_true, Option.some.injEq, Prod.mk.injEq] at h
        obtain ⟨rfl, rfl⟩ := h
        exact ⟨hb, [], rest, rfl, rfl, by simp⟩
      · rw [takeFirst, if_neg hb, Option.map_eq_some_iff] at h
        obtain ⟨⟨c, left'⟩, htaken, heq⟩ := h
        obtain ⟨rfl, rfl⟩ := Prod.mk.inj heq
        obtain ⟨hp, passed, rest', rfl, rfl, hpassed⟩ := ih htaken
        refine ⟨hp, b :: passed, rest', rfl, rfl, fun x hx => ?_⟩
        rcases List.mem_cons.mp hx with rfl | hx
        · simpa using hb
        · exact hpassed x hx

/-- What `takeFirst` takes comes out of the list. -/
theorem takeFirst_perm {α : Type} {p : α → Bool} {l left : List α} {a : α}
    (h : takeFirst p l = some (a, left)) : (a :: left).Perm l := by
  obtain ⟨-, passed, rest, rfl, rfl, -⟩ := takeFirst_eq_some h
  exact List.perm_middle.symm

variable {within done : List Nat} {pending : List Step}

theorem isReady_iff {step : Step} :
    isReady within done step = true ↔ ∀ need ∈ step.needs, need.id ∈ within → need.id ∈ done := by
  simp [isReady, List.contains_eq_mem, imp_iff_or_not]

/-- The pass that starts what suspends splits the pending steps; what it starts is in order, and is
done afterwards. -/
theorem startReady_spec (within done : List Nat) (pending : List Step) :
    let (started, left, after) := startReady within done pending
    (started ++ left).Perm pending ∧ Plan.inOrder within done started = true ∧
      after = (started.map Step.id).reverse ++ done := by
  induction pending generalizing done with
  | nil => simp [startReady, Plan.inOrder]
  | cons step rest ih =>
      by_cases h : (step.statement.suspends && isReady within done step) = true
      · have hrest := ih (step.id :: done)
        obtain ⟨hperm, horder, hdone⟩ := hrest
        simp only [startReady, h, if_true]
        refine ⟨hperm.cons step, ?_, by simp [hdone]⟩
        exact Plan.inOrder_cons.mpr ⟨isReady_iff.mp (by simp_all), horder⟩
      · obtain ⟨hperm, horder, hdone⟩ := ih done
        simp only [startReady, h]
        exact ⟨List.perm_middle.trans (hperm.cons step), horder, hdone⟩

/-! ### The forced await -/

/-- A step is pending when it belongs to the plan and has not run. -/
abbrev isPending (within done : List Nat) (id : Nat) : Bool :=
  within.contains id && !done.contains id

theorem isPending_iff {id : Nat} : isPending within done id = true ↔ id ∈ within ∧ id ∉ done := by
  simp [isPending, List.contains_eq_mem]

/-- What a round starts from: the pending steps are distinct steps of the plan, and with those done
they are all of it. A need with a pending number is a pending step. -/
structure Split (within done : List Nat) (pending : List Step) : Prop where
  nodup : (pending.map Step.id).Nodup
  fresh : ∀ s ∈ pending, s.id ∉ done
  covered : ∀ id ∈ within, id ∈ done ∨ id ∈ pending.map Step.id
  needs : ∀ s ∈ pending, ∀ d ∈ s.needs, isPending within done d.id = true → d ∈ pending
  within : ∀ s ∈ pending, s.id ∈ within

namespace Split

/-- A step that is not ready needs a pending step. -/
theorem exists_need (h : Split within done pending) {s : Step} (hs : s ∈ pending)
    (hready : isReady within done s = false) :
    ∃ d ∈ s.needs, d ∈ pending ∧ isPending within done d.id = true := by
  have : ¬ ∀ need ∈ s.needs, need.id ∈ within → need.id ∈ done := by
    rw [← isReady_iff, hready]
    simp
  push Not at this
  obtain ⟨d, hd, hwithin, hdone⟩ := this
  have hp : isPending within done d.id = true := isPending_iff.mpr ⟨hwithin, hdone⟩
  exact ⟨d, hd, h.needs s hs d hd hp, hp⟩

/-- When nothing but awaits is ready, a chain of awaits starts at every pending step. -/
theorem exists_chain (h : Split within done pending)
    (hstuck : ∀ s ∈ pending, s.statement.isAwait = false → isReady within done s = false)
    (s : Step) (hs : s ∈ pending) (n : Nat) :
    ∃ w m, Chain (isPending within done) n s w m := by
  by_cases hawait : s.statement.isAwait = true
  · exact ⟨s, n + 1, .here hawait⟩
  -- A step that waits for a pending one; the needs of a step are smaller trees, so this ends.
  · obtain ⟨d, hd, hmem, hp⟩ := h.exists_need hs (hstuck s hs (by simpa using hawait))
    obtain ⟨w, m, hchain⟩ := h.exists_chain hstuck d hmem n
    exact ⟨w, m, .there hd hp (by simpa [hawait] using hchain)⟩
termination_by sizeOf s
decreasing_by exact Step.sizeOf_need hd

/-- The steps of a chain that starts at a pending step are pending. -/
theorem chain_mem (h : Split within done pending) {n m : Nat} {s w : Step} (hs : s ∈ pending)
    (hchain : Chain (isPending within done) n s w m) : w ∈ pending := by
  induction hchain with
  | here => exact hs
  | there hd hp _ ih => exact ih (h.needs _ hs _ hd hp)

/-- The await at the end of a chain that no chain exceeds is ready: what it needed would make the
chain longer. -/
theorem forced_ready (h : Split within done pending)
    (hstuck : ∀ s ∈ pending, s.statement.isAwait = false → isReady within done s = false)
    {last w : Step} {m : Nat} (hlast : last ∈ pending)
    (hchain : Chain (isPending within done) 0 last w m)
    (hmax : ∀ v k, Chain (isPending within done) 0 last v k → k ≤ m) :
    isReady within done w = true := by
  by_contra hready
  -- The chain that starts at a pending need of the await is longer by at least one await.
  obtain ⟨d, hd, hmem, hp⟩ := h.exists_need (h.chain_mem hlast hchain) (by simpa using hready)
  obtain ⟨v, k, htail⟩ := h.exists_chain hstuck d hmem m
  have hlonger : m < k := htail.lt
  have := hmax v k (hchain.extend hd hp htail)
  omega

/-- A round goes on with what a permutation of some pending steps leaves, once those have run. -/
theorem rest (h : Split within done pending) {run left : List Step}
    (hperm : (run ++ left).Perm pending) :
    Split within ((run.map Step.id).reverse ++ done) left := by
  have hids : (run.map Step.id ++ left.map Step.id).Perm (pending.map Step.id) := by
    simpa using hperm.map Step.id
  obtain ⟨-, hleft, hnew⟩ := List.nodup_append.mp (hids.nodup_iff.mpr h.nodup)
  have hmem : ∀ s ∈ left, s ∈ pending := fun s hs =>
    hperm.subset (List.mem_append_right run hs)
  refine ⟨hleft, fun s hs => ?_, fun id hid => ?_, fun s hs d hd hp => ?_,
    fun s hs => h.within s (hmem s hs)⟩
  · simp only [List.mem_append, List.mem_reverse, not_or]
    exact ⟨fun hrun => hnew _ hrun _ (List.mem_map_of_mem hs) rfl, h.fresh s (hmem s hs)⟩
  · rcases h.covered id hid with hdone | hpending
    · exact .inl (List.mem_append_right _ hdone)
    · rcases List.mem_append.mp (hids.mem_iff.mpr hpending) with hrun | hleft
      · exact .inl (List.mem_append_left _ (List.mem_reverse.mpr hrun))
      · exact .inr hleft
  · obtain ⟨hwithin, hnot⟩ := isPending_iff.mp hp
    simp only [List.mem_append, List.mem_reverse, not_or] at hnot
    have hd' : d ∈ pending := h.needs s (hmem s hs) d hd (isPending_iff.mpr ⟨hwithin, hnot.2⟩)
    rcases List.mem_append.mp (hperm.symm.subset hd') with hrun | hleft
    · exact absurd (List.mem_map_of_mem hrun) hnot.1
    · exact hleft

end Split

/-- How a round chooses a ready step among the pending ones, once it has started what suspends. -/
inductive Chooses (within done : List Nat) (pending : List Step) (step : Step) : Prop
  /-- It is the first one that is no await. -/
  | first (hready : isReady within done step = true) (hawait : step.statement.isAwait = false)
      {passed rest : List Step} (hpending : pending = passed ++ step :: rest)
      (hpassed : ∀ s ∈ passed, s.statement.isAwait = false → isReady within done s = false)
  /-- All are awaits, and from the last pending step no chain has more of them than one to this. -/
  | forced (hready : isReady within done step = true)
      (hstuck : ∀ s ∈ pending, s.statement.isAwait = false → isReady within done s = false)
      {last : Step} {m : Nat} (hlast : pending.getLast? = some last)
      (hchain : Chain (isPending within done) 0 last step m)
      (hmax : ∀ v k, Chain (isPending within done) 0 last v k → k ≤ m)

theorem Chooses.ready {step : Step} (h : Chooses within done pending step) :
    isReady within done step = true := by
  cases h with
  | first hready | forced hready => exact hready

/-- A round that starts nothing more takes a ready step, as long as steps are pending: one that is no
await if there is any, and otherwise the await that the longest chain leads to. -/
theorem next_spec (h : Split within done pending) :
    (pending = [] ∧ next within done pending = .ok none) ∨
      ∃ passed step rest, pending = passed ++ step :: rest ∧
        next within done pending = .ok (some (step, passed ++ rest)) ∧
        Chooses within done pending step := by
  unfold next
  -- Anything ready that is no await goes first. Otherwise the await at the end of a longest chain is
  -- forced, and it is ready: what it still waited for would make the chain longer.
  cases htaken : takeFirst (fun step => !step.statement.isAwait && isReady within done step)
      pending with
  | some taken =>
      obtain ⟨step, left⟩ := taken
      obtain ⟨hp, passed, rest, hpending, rfl, hpassed⟩ := takeFirst_eq_some htaken
      simp only [Bool.and_eq_true, Bool.not_eq_true'] at hp
      refine .inr ⟨passed, step, rest, hpending, rfl, .first hp.2 hp.1 hpending fun s hs hawait => ?_⟩
      simpa [hawait] using hpassed s hs
  | none =>
      have hstuck : ∀ s ∈ pending, s.statement.isAwait = false → isReady within done s = false := by
        intro s hs hawait
        simpa [hawait] using takeFirst_eq_none.mp htaken s hs
      cases hlast : pending.getLast? with
      | none => exact .inl ⟨List.getLast?_eq_none_iff.mp hlast, rfl⟩
      -- The await is found by its number, which is no other pending step's.
      | some last =>
          have hmem : last ∈ pending := List.mem_of_getLast? hlast
          obtain ⟨w, m, hfound, hchain, hmax⟩ :=
            longestAwait_max (h.exists_chain hstuck last hmem 0)
          have hw : w ∈ pending := h.chain_mem hmem hchain
          simp only [hfound]
          cases hforced : takeFirst (fun step => step.id == w.id) pending with
          | none => simpa using takeFirst_eq_none.mp hforced w hw
          | some taken =>
              obtain ⟨step, left⟩ := taken
              obtain ⟨hid, passed, rest, hpending, rfl, -⟩ := takeFirst_eq_some hforced
              have hstep : step ∈ pending := hpending ▸ List.mem_append_right _ List.mem_cons_self
              obtain rfl : step = w :=
                List.inj_on_of_nodup_map h.nodup hstep hw (by simpa using hid)
              exact .inr ⟨passed, step, rest, hpending, rfl,
                .forced (h.forced_ready hstuck hmem hchain hmax) hstuck hlast hchain hmax⟩

/-- Enough rounds arrange all pending steps, each after what it needs. Each round takes at least one
step, as there is always one to take. -/
theorem arrange_spec (rounds : Nat) (h : Split within done pending)
    (hrounds : pending.length ≤ rounds) :
    ∃ arranged, arrange within rounds done pending = .ok arranged ∧ arranged.Perm pending ∧
      Plan.inOrder within done arranged = true := by
  induction rounds generalizing done pending with
  | zero =>
      obtain rfl : pending = [] := List.length_eq_zero_iff.mp (Nat.le_zero.mp hrounds)
      exact ⟨[], rfl, .refl _, rfl⟩
  | succ rounds ih =>
      obtain ⟨hperm, horder, hdone⟩ := startReady_spec within done pending
      rcases hstart : startReady within done pending with ⟨started, left, after⟩
      simp only [hstart] at hperm horder hdone
      subst hdone
      -- The steps started leave a split list, and so does the step taken after them.
      have hleft := h.rest hperm
      simp only [arrange, hstart]
      -- Each round but the last takes at least one step, so as many rounds as there are steps are
      -- enough.
      rcases next_spec hleft with ⟨rfl, hnext⟩ | ⟨passed, step, rest, hsplit, hnext, hchosen⟩
      · refine ⟨started, by rw [hnext]; rfl, by simpa using hperm, horder⟩
      · generalize hleft' : passed ++ rest = left' at hnext
        have hperm' : (step :: left').Perm left := by
          rw [hsplit, ← hleft']
          exact List.perm_middle.symm
        have hperm'' : ([step] ++ left').Perm left := hperm'
        have hrest := hleft.rest hperm''
        have hlength : left'.length ≤ rounds := by
          have h₁ := hperm.length_eq
          have h₂ := hperm'.length_eq
          simp only [List.length_append, List.length_cons] at h₁ h₂
          omega
        obtain ⟨tail, htail, htailPerm, htailOrder⟩ := ih hrest hlength
        refine ⟨started ++ step :: tail, ?_, ?_, ?_⟩
        · rw [hnext]
          simp only [List.map_cons, List.map_nil, List.reverse_cons, List.reverse_nil,
            List.nil_append, List.singleton_append] at htail
          simp [bind, Except.bind, htail, pure, Except.pure]
        · exact ((htailPerm.cons step).trans hperm').append_left started |>.trans hperm
        · exact Plan.inOrder_append.mpr
            ⟨horder, Plan.inOrder_cons.mpr ⟨isReady_iff.mp hchosen.ready, by simpa using htailOrder⟩⟩

/-- Steps with distinct numbers, which tell whether a need is one of them, are split before the first
round. -/
theorem Split.initial {steps : List Step} (hnodup : (steps.map Step.id).Nodup)
    (hneeds : ∀ s ∈ steps, ∀ need ∈ s.needs, need.id ∈ steps.map Step.id → need ∈ steps) :
    Split (steps.map Step.id) [] steps :=
  ⟨hnodup, by simp, fun _ hid => .inr hid,
    fun s hs d hd hp => hneeds s hs d hd (isPending_iff.mp hp).1,
    fun _ hs => List.mem_map_of_mem hs⟩

/-- Identified steps with distinct numbers are arranged, in whatever order they are given. -/
theorem longestChain_spec {steps : List Step} (hnodup : (steps.map Step.id).Nodup)
    (hident : Identified steps) :
    ∃ arranged, longestChain steps = .ok arranged ∧ arranged.Perm steps ∧
      Plan.inOrder (steps.map Step.id) [] arranged = true :=
  arrange_spec steps.length (.initial hnodup hident.needs) (Nat.le_refl _)

/-- The scheduler never fails: it answers with all the steps it was given, each of them after the
steps of the list that it needs. -/
theorem longestChain_linearizes (steps : List Step) (hnodup : (steps.map Step.id).Nodup)
    (hident : Identified steps) :
    ∃ arranged, longestChain steps = .ok arranged ∧ arranged.Perm steps ∧
      Plan.Ordered arranged := by
  obtain ⟨arranged, hok, hperm, horder⟩ := longestChain_spec hnodup hident
  refine ⟨arranged, hok, hperm, ?_⟩
  intro before step after hsplit need hneed hid
  have hwithin : need.id ∈ steps.map Step.id := (hperm.map Step.id).subset hid
  simpa using Plan.inOrder_iff.mp horder before step after hsplit need hneed hwithin

/-- A task is started, awaited and handed on; the steps come in the reverse order. -/
theorem longestChain_linearizes_reversed :
    let asking : Step := ⟨0, .single "task" (.held ⟨.plain "C", "f", .plain "A"⟩) true, none, [], false⟩
    let waiting : Step := ⟨1, .await (some "a") "task" none, none, [asking], false⟩
    let creating : Step := ⟨2, .start none "a" false, none, [waiting], false⟩
    let steps := [creating, waiting, asking]
    (steps.map Step.id).Nodup ∧ Identified steps ∧
      ∃ arranged, longestChain steps = .ok arranged ∧ arranged.Perm steps ∧
        Plan.Ordered arranged := by
  intro asking waiting creating steps
  have hnodup : (steps.map Step.id).Nodup := by decide
  have hclosed : ∀ s ∈ steps, ∀ d ∈ s.needs, d ∈ steps := by
    simp [steps, creating, waiting, asking]
  have hident : Identified steps := .of_closed (fun _ h => h) hclosed hnodup
  exact ⟨hnodup, hident, longestChain_linearizes steps hnodup hident⟩

/-! ### Any steps -/

/-- A round takes its step out of the pending ones. -/
theorem next_perm {within done : List Nat} {pending : List Step} {taken : Option (Step × List Step)}
    (h : next within done pending = .ok taken) :
    match taken with
    | none => pending = []
    | some (step, left) => (step :: left).Perm pending := by
  unfold next at h
  split at h
  · rename_i htaken
    cases h
    exact takeFirst_perm htaken
  · split at h
    · rename_i hlast
      cases h
      exact List.getLast?_eq_none_iff.mp hlast
    · dsimp only at h
      split at h
      · cases h
      · split at h
        · cases h
        · rename_i hforced
          cases h
          exact takeFirst_perm hforced

/-- A round starts what suspends. Unless nothing is left it takes one step more, and further rounds
arrange the others. -/
theorem arrange_succ_ok {within : List Nat} {rounds : Nat} {done : List Nat}
    {pending arranged : List Step}
    (h : arrange within (rounds + 1) done pending = .ok arranged) :
    ∃ started left after, startReady within done pending = (started, left, after) ∧
      ((next within after left = .ok none ∧ arranged = started) ∨
        ∃ step rest tail, next within after left = .ok (some (step, rest)) ∧
          arrange within rounds (step.id :: after) rest = .ok tail ∧
            arranged = started ++ step :: tail) := by
  rcases hstart : startReady within done pending with ⟨started, left, after⟩
  refine ⟨started, left, after, rfl, ?_⟩
  simp only [arrange, hstart] at h
  obtain ⟨taken, hnext, h₁⟩ := Run.except_bind_ok.mp h
  cases taken with
  | none =>
      cases h₁
      exact .inl ⟨hnext, rfl⟩
  | some taken =>
      obtain ⟨step, rest⟩ := taken
      obtain ⟨tail, htail, h₂⟩ := Run.except_bind_ok.mp h₁
      cases h₂
      exact .inr ⟨step, rest, tail, hnext, htail, rfl⟩

/-- Whatever is arranged, nothing is lost and nothing is made up. -/
theorem arrange_perm {within : List Nat} {rounds : Nat} {done : List Nat}
    {pending arranged : List Step} (h : arrange within rounds done pending = .ok arranged) :
    arranged.Perm pending := by
  induction rounds generalizing done pending arranged with
  | zero =>
      cases h
      exact .refl _
  | succ rounds ih =>
      obtain ⟨started, left, after, hstart, hround⟩ := arrange_succ_ok h
      obtain ⟨hperm, -, -⟩ := startReady_spec within done pending
      simp only [hstart] at hperm
      rcases hround with ⟨hnext, rfl⟩ | ⟨step, rest, tail, hnext, htail, rfl⟩
      · have hleft : left = [] := next_perm hnext
        simpa [hleft] using hperm
      · have hleft : (step :: rest).Perm left := next_perm hnext
        exact (((ih htail).cons step).trans hleft).append_left started |>.trans hperm

end Schedule

/-- Whatever a scheduler arranges, nothing is lost and nothing is made up. -/
theorem Scheduler.arrange_perm {scheduler : Scheduler} {steps arranged : List Step}
    (h : scheduler.arrange steps = .ok arranged) : arranged.Perm steps := by
  cases scheduler with
  | longestChain => exact Schedule.arrange_perm h
  | emission =>
      cases h
      exact .refl _

theorem Scheduler.Arranges.perm {scheduler : Scheduler} {isAsync : Bool} {steps arranged : List Step}
    (h : scheduler.Arranges isAsync steps arranged) : arranged.Perm steps := by
  unfold Arranges at h
  split at h
  · exact arrange_perm h
  · rw [h]

end Wiring
