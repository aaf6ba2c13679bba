import Mathlib.Data.List.Nodup
import Wiring.Proofs.Schedule.Linearization

/-!
# The scheduler is greedy

Given steps in a valid order, `Schedule.longestChain` follows one rule at every place of its answer
(`Greedy`): what suspends runs first, then what is no await, and an await only if nothing else can run.
Of several steps of one kind the first given runs; of several awaits the one that ends a chain with
the most awaits.

The rounds of the scheduler do more than one step at a time. Its pass over the pending steps looks at
each of them once; that none has to be looked at again is where the given order matters: a step that
the pass has left behind needs nothing that the pass starts later (`NeedsNoLater`).

* `startReady_greedy`, `next_greedy` — the parts of a round follow the rule.
* `longestChain_greedy` — so does the scheduler.
* `longestChain_not_greedy` — a need that has the number of a listed step, but is another step, can make
  it run a step too early.
-/

namespace Wiring.Schedule

/-! ### The rule -/

/-- The steps still to run when some have run, in the order in which they were given. -/
def remaining (steps before : List Step) : List Step :=
  steps.filter fun s => s.id ∉ before.map Step.id

/-- The remaining steps that can run: what they need of the given steps has run. -/
def ready (steps before : List Step) : List Step :=
  (remaining steps before).filter fun s =>
    decide (∀ need ∈ s.needs, need.id ∈ steps.map Step.id → need.id ∈ before.map Step.id)

/-- Whether a number is that of a given step still to run. -/
abbrev isRemaining (steps before : List Step) : Nat → Bool :=
  isPending (steps.map Step.id) (before.map Step.id)

/-- What runs next when some steps have run: the first that suspends and is ready, else the first that
is ready and no await, else the await at the end of the longest chain. -/
inductive Greedy (steps before : List Step) (step : Step) : Prop
  /-- The first ready step that suspends. -/
  | start (h : (ready steps before).find? (·.statement.suspends) = some step)
  /-- Where none suspends, the first ready step that is no await. -/
  | run (hnone : ∀ s ∈ ready steps before, s.statement.suspends = false)
      (h : (ready steps before).find? (fun s => !s.statement.isAwait) = some step)
  /-- Where all are awaits, a ready one to which a chain with the most awaits leads from the last
  remaining step. -/
  | wait (hawaits : ∀ s ∈ ready steps before, s.statement.isAwait = true)
      (h : step ∈ ready steps before) {last : Step} {m : Nat}
      (hlast : (remaining steps before).getLast? = some last)
      (hchain : Chain (isRemaining steps before) 0 last step m)
      (hmax : ∀ v k, Chain (isRemaining steps before) 0 last v k → k ≤ m)

/-- When some steps have run, each of further ones is what runs next. -/
def GreedyRun (steps : List Step) : (before : List Step) → List Step → Prop
  | _, [] => True
  | before, step :: rest => Greedy steps before step ∧ GreedyRun steps (before ++ [step]) rest

/-- No step needs one that stands behind it. -/
def NeedsNoLater (steps : List Step) : Prop :=
  steps.Pairwise fun s t => ∀ need ∈ s.needs, need.id ≠ t.id

variable {steps before : List Step} {s t step : Step}

theorem greedyRun_append {first second : List Step} :
    GreedyRun steps before (first ++ second) ↔
      GreedyRun steps before first ∧ GreedyRun steps (before ++ first) second := by
  induction first generalizing before with
  | nil => simp [GreedyRun]
  | cons step rest ih => simp [GreedyRun, ih, and_assoc]

theorem needsNoLater_of_ordered (hnodup : (steps.map Step.id).Nodup) (h : Plan.Ordered steps) :
    NeedsNoLater steps := by
  refine List.pairwise_iff_forall_sublist.mpr fun {s t} hsub need hneed hid => ?_
  -- `t` stands somewhere behind `s`, but what `s` needs stands before it.
  obtain ⟨upto, behind, rfl, hs, ht⟩ := List.cons_sublist_iff.mp hsub
  obtain ⟨front, rest, rfl⟩ := List.append_of_mem hs
  have ht : t ∈ behind := List.singleton_sublist.mp ht
  have hfront : need.id ∈ front.map Step.id := by
    refine h front s (rest ++ behind) (by simp) need hneed ?_
    rw [hid]
    exact List.mem_map_of_mem (List.mem_append_right _ ht)
  rw [List.map_append, List.nodup_append] at hnodup
  refine hnodup.2.2 need.id ?_ t.id (List.mem_map_of_mem ht) hid
  exact List.map_subset _ (List.subset_append_left _ _) hfront

theorem suspends_not_isAwait {statement : Statement} (h : statement.suspends = true) :
    statement.isAwait = false := by
  cases statement <;> first | rfl | cases h

/-! ### Steps still to run -/

theorem mem_remaining : s ∈ remaining steps before ↔ s ∈ steps ∧ s.id ∉ before.map Step.id := by
  simp [remaining]

/-- A remaining step is ready when the scheduler says so. -/
theorem ready_eq (steps before : List Step) :
    ready steps before =
      (remaining steps before).filter
        (isReady (steps.map Step.id) (before.map Step.id).reverse) := by
  refine List.filter_congr fun s _ => ?_
  rw [Bool.eq_iff_iff, isReady_iff, decide_eq_true_iff]
  simp only [List.mem_reverse]

theorem mem_ready :
    s ∈ ready steps before ↔
      s ∈ remaining steps before ∧
        isReady (steps.map Step.id) (before.map Step.id).reverse s = true := by
  rw [ready_eq, List.mem_filter]

/-- The first ready step of a kind, where the remaining steps before it are not ready or of another
kind. -/
theorem find?_ready {p : Step → Bool} {passed rest : List Step}
    (hremaining : remaining steps before = passed ++ step :: rest)
    (hready : isReady (steps.map Step.id) (before.map Step.id).reverse step = true)
    (hp : p step = true)
    (hpassed : ∀ s ∈ passed, p s = true →
      isReady (steps.map Step.id) (before.map Step.id).reverse s = false) :
    (ready steps before).find? p = some step := by
  rw [ready_eq, List.find?_filter, hremaining]
  refine List.find?_eq_some_iff_append.mpr ⟨by simp [hready, hp], passed, rest, rfl, ?_⟩
  intro s hs
  cases hps : p s with
  | false => simp
  | true => simp [hpassed s hs hps]

/-- Running a remaining step takes it out of the remaining ones. -/
theorem remaining_concat (hnodup : (steps.map Step.id).Nodup) {passed rest : List Step}
    (hremaining : remaining steps before = passed ++ step :: rest) :
    remaining steps (before ++ [step]) = passed ++ rest := by
  have hfilter : remaining steps (before ++ [step]) =
      (remaining steps before).filter fun s => s.id ≠ step.id := by
    simp only [remaining, List.filter_filter]
    refine List.filter_congr fun s _ => ?_
    rw [Bool.eq_iff_iff]
    simp only [List.map_append, List.map_cons, List.map_nil, List.mem_append, List.mem_singleton,
      Bool.and_eq_true, decide_eq_true_eq, not_or, and_comm]
  have hids : ((step :: (passed ++ rest)).map Step.id).Nodup := by
    have hsublist : (passed ++ step :: rest).Sublist steps := hremaining ▸ List.filter_sublist
    exact (List.perm_middle.map Step.id).nodup_iff.mp (hnodup.sublist (hsublist.map Step.id))
  have hother : ∀ s ∈ passed ++ rest, s.id ≠ step.id := by
    intro s hs heq
    exact (List.nodup_cons.mp hids).1 (heq ▸ List.mem_map_of_mem hs)
  rw [hfilter, hremaining, List.filter_append, List.filter_cons_of_neg (by simp), ← List.filter_append]
  exact List.filter_eq_self.mpr fun s hs => by simpa using hother s hs

/-! ### One round -/

/-- A step that is not ready, and needs nothing that stands behind it, does not become ready by a step
that stands behind it. -/
theorem not_ready_concat (h : ∀ need ∈ s.needs, need.id ≠ step.id)
    (hs : isReady (steps.map Step.id) (before.map Step.id).reverse s = false) :
    isReady (steps.map Step.id) ((before ++ [step]).map Step.id).reverse s = false := by
  rw [Bool.eq_false_iff] at hs ⊢
  refine fun hready => hs (isReady_iff.mpr fun need hneed hwithin => ?_)
  have hdone := isReady_iff.mp hready need hneed hwithin
  simpa [h need hneed] using hdone

/-- The pass over the pending steps starts what the rule asks for, and leaves nothing that suspends and
is ready. It has left `passed` behind already. -/
theorem startReady_greedy (hnodup : (steps.map Step.id).Nodup) (hlater : NeedsNoLater steps)
    (before passed rest : List Step) (hremaining : remaining steps before = passed ++ rest)
    (hpassed : ∀ s ∈ passed, s.statement.suspends = true →
      isReady (steps.map Step.id) (before.map Step.id).reverse s = false) :
    ∃ started left,
      startReady (steps.map Step.id) (before.map Step.id).reverse rest =
        (started, left, ((before ++ started).map Step.id).reverse) ∧
      GreedyRun steps before started ∧
      remaining steps (before ++ started) = passed ++ left ∧
      ∀ s ∈ passed ++ left, s.statement.suspends = true →
        isReady (steps.map Step.id) ((before ++ started).map Step.id).reverse s = false := by
  induction rest generalizing before passed with
  | nil => exact ⟨[], [], by simp [startReady], trivial, by simpa using hremaining, by simpa using hpassed⟩
  | cons step rest ih =>
      by_cases h : (step.statement.suspends && isReady (steps.map Step.id)
          (before.map Step.id).reverse step) = true
      case pos =>
        -- Started: it is the first pending step that suspends and is ready, as all those left behind
        -- are not.
        obtain ⟨hsuspends, hready⟩ := Bool.and_eq_true_iff.mp h
        have hgreedy : Greedy steps before step :=
          .start (find?_ready hremaining hready hsuspends hpassed)
        -- What is left behind does not wait for the step started: that one stands further back.
        have hbehind : ∀ s ∈ passed, ∀ need ∈ s.needs, need.id ≠ step.id := by
          have hsublist : (passed ++ step :: rest).Sublist steps := hremaining ▸ List.filter_sublist
          have hsplit := List.pairwise_append.mp (List.Pairwise.sublist hsublist hlater)
          exact fun s hs => hsplit.2.2 s hs step List.mem_cons_self
        obtain ⟨started, left, hstart, hrun, hremaining', hleft⟩ := ih (before ++ [step]) passed
          (remaining_concat hnodup hremaining)
          fun s hs hsus => not_ready_concat (hbehind s hs) (hpassed s hs hsus)
        refine ⟨step :: started, left, ?_, ⟨hgreedy, hrun⟩, by simpa using hremaining',
          by simpa using hleft⟩
        simp only [List.map_append, List.map_cons, List.map_nil, List.reverse_append,
          List.reverse_cons, List.reverse_nil, List.nil_append, List.singleton_append] at hstart ⊢
        simp [startReady, h, hstart]
      case neg =>
        -- Left behind: then it does not suspend, or it is not ready.
        obtain ⟨started, left, hstart, hrun, hremaining', hleft⟩ := ih before (passed ++ [step])
          (by simpa using hremaining) (by
            intro s hs hsus
            rcases List.mem_append.mp hs with hs | hs
            · exact hpassed s hs hsus
            · obtain rfl := List.mem_singleton.mp hs
              simpa [hsus] using h)
        exact ⟨started, step :: left, by simp [startReady, h, hstart], hrun,
          by simpa using hremaining', by simpa using hleft⟩

theorem isPending_reverse (within done : List Nat) :
    isPending within done.reverse = isPending within done := by
  funext id
  simp only [isPending, List.contains_reverse]

/-- With nothing left that suspends and is ready, the step that the round chooses is the one that the
rule asks for. -/
theorem next_greedy
    (h : Split (steps.map Step.id) (before.map Step.id).reverse (remaining steps before))
    (hidle : ∀ s ∈ remaining steps before, s.statement.suspends = true →
      isReady (steps.map Step.id) (before.map Step.id).reverse s = false)
    (hchosen : Chooses (steps.map Step.id) (before.map Step.id).reverse (remaining steps before) step) :
    Greedy steps before step := by
  cases hchosen with
  | first hready hawait hremaining hpassed =>
      refine .run (fun s hs => ?_) (find?_ready hremaining hready (by simp [hawait]) ?_)
      · obtain ⟨hmem, hsready⟩ := mem_ready.mp hs
        by_contra hsus
        simp [hidle s hmem (by simpa using hsus)] at hsready
      · exact fun s hs hsawait => hpassed s hs (by simpa using hsawait)
  | forced hready hstuck hlast hchain hmax =>
      have hmem := h.chain_mem (List.mem_of_getLast? hlast) hchain
      rw [isPending_reverse] at hchain hmax
      refine .wait (fun s hs => ?_) (mem_ready.mpr ⟨hmem, hready⟩) hlast hchain hmax
      obtain ⟨hsmem, hsready⟩ := mem_ready.mp hs
      by_contra hsawait
      simp [hstuck s hsmem (by simpa using hsawait)] at hsready

/-! ### All rounds -/

/-- Where the remaining steps are split, those that remain after some of them are. -/
theorem split_append {run : List Step}
    (h : Split (steps.map Step.id) (before.map Step.id).reverse (remaining steps before))
    (hperm : (run ++ remaining steps (before ++ run)).Perm (remaining steps before)) :
    Split (steps.map Step.id) ((before ++ run).map Step.id).reverse
      (remaining steps (before ++ run)) := by
  have hrest := h.rest hperm
  rwa [← List.reverse_append, ← List.map_append] at hrest

/-- The rounds follow the rule. The pass at the start of a round leaves nothing that suspends and is
ready, so that the step taken after it is the one the rule asks for. -/
theorem arrange_greedy (hnodup : (steps.map Step.id).Nodup) (hlater : NeedsNoLater steps)
    {rounds : Nat} {arranged : List Step}
    (h : Split (steps.map Step.id) (before.map Step.id).reverse (remaining steps before))
    (hrounds : (remaining steps before).length ≤ rounds)
    (harrange : arrange (steps.map Step.id) rounds (before.map Step.id).reverse
      (remaining steps before) = .ok arranged) : GreedyRun steps before arranged := by
  induction rounds generalizing before arranged with
  | zero =>
      cases harrange
      rw [List.length_eq_zero_iff.mp (Nat.le_zero.mp hrounds)]
      trivial
  | succ rounds ih =>
      -- One round starts what suspends and is ready, and then takes one more step, if any is left.
      -- After the pass nothing that suspends is ready, which is when the rule asks for the longest
      -- chain.
      obtain ⟨started, left, hstart, hrun, hleft, hidle⟩ := startReady_greedy hnodup hlater before []
        (remaining steps before) rfl (by simp)
      rw [List.nil_append] at hleft hidle
      subst hleft
      have hperm : (started ++ remaining steps (before ++ started)).Perm (remaining steps before) := by
        have hspec := (startReady_spec (steps.map Step.id) (before.map Step.id).reverse
          (remaining steps before)).1
        rwa [hstart] at hspec
      have hsplit := split_append h hperm
      obtain ⟨_, _, _, hstart', hround⟩ := arrange_succ_ok harrange
      cases hstart.symm.trans hstart'
      rcases hround with ⟨-, rfl⟩ | ⟨step, rest, tail, hnext, htail, rfl⟩
      · exact hrun
      · rcases next_spec hsplit with ⟨-, hnone⟩ | ⟨passed, _, behind, hremaining, hnext', hchosen⟩
        · cases hnext.symm.trans hnone
        cases hnext.symm.trans hnext'
        -- The step chosen comes out of the remaining ones, and the next rounds arrange the others.
        have hrest := remaining_concat hnodup hremaining
        have hperm' : ([step] ++ remaining steps (before ++ started ++ [step])).Perm
            (remaining steps (before ++ started)) := by
          rw [hrest, hremaining, List.singleton_append]
          exact List.perm_middle.symm
        have hshorter : (remaining steps (before ++ started ++ [step])).length ≤ rounds := by
          have h₁ := hperm.length_eq
          have h₂ := hperm'.length_eq
          simp only [List.length_append, List.length_singleton] at h₁ h₂
          omega
        have htail' := ih (split_append hsplit hperm') hshorter (by rw [hrest]; simpa using htail)
        exact greedyRun_append.mpr ⟨hrun, next_greedy hsplit hidle hchosen, htail'⟩

/-! ### What the rule says -/

namespace Greedy

/-- While a ready step suspends, what runs suspends. -/
theorem suspends (h : Greedy steps before step) (hs : s ∈ ready steps before)
    (hsuspends : s.statement.suspends = true) : step.statement.suspends = true := by
  cases h with
  | start h => simpa using List.find?_some h
  | run hnone _ => exact absurd hsuspends (by simp [hnone s hs])
  | wait hawaits _ _ _ _ => exact absurd (hawaits s hs) (by simp [suspends_not_isAwait hsuspends])

/-- An await runs only where every ready step is one. -/
theorem awaits (h : Greedy steps before step) (hawait : step.statement.isAwait = true) :
    ∀ s ∈ ready steps before, s.statement.isAwait = true := by
  cases h with
  | start h =>
      have hsuspends : step.statement.suspends = true := by simpa using List.find?_some h
      exact absurd hawait (by simp [suspends_not_isAwait hsuspends])
  | run _ h => exact absurd hawait (by simpa using List.find?_some h)
  | wait hawaits _ _ _ _ => exact hawaits

end Greedy

/-- A ready step stays ready until it runs. -/
theorem mem_ready_append {between : List Step} (h : s ∈ ready steps before)
    (hs : s.id ∉ between.map Step.id) : s ∈ ready steps (before ++ between) := by
  obtain ⟨hremaining, hready⟩ := List.mem_filter.mp h
  obtain ⟨hmem, hbefore⟩ := mem_remaining.mp hremaining
  have hready := decide_eq_true_eq.mp hready
  refine List.mem_filter.mpr ⟨mem_remaining.mpr ⟨hmem, ?_⟩, decide_eq_true fun need hneed hwithin => ?_⟩
  · rw [List.map_append, List.mem_append]
    exact not_or.mpr ⟨hbefore, hs⟩
  · rw [List.map_append]
    exact List.mem_append_left _ (hready need hneed hwithin)

/-- Of steps in a valid order, with distinct numbers that tell whether a need is one of them, the
scheduler arranges all, and at every place of its answer stands what the rule asks for. So once a step
that suspends is ready nothing runs before it but what suspends too, and no await runs while anything
else can. -/
theorem longestChain_greedy (steps : List Step) (hnodup : (steps.map Step.id).Nodup)
    (hneeds : ∀ s ∈ steps, ∀ need ∈ s.needs, need.id ∈ steps.map Step.id → need ∈ steps)
    (hordered : Plan.Ordered steps) :
    ∃ arranged, longestChain steps = .ok arranged ∧ arranged.Perm steps ∧
      (∀ before step after, arranged = before ++ step :: after → Greedy steps before step) ∧
      (∀ before between step after, arranged = before ++ between ++ step :: after →
        step ∈ ready steps before → step.statement.suspends = true →
          ∀ s ∈ between, s.statement.suspends = true) ∧
      ∀ before step after, arranged = before ++ step :: after → step.statement.isAwait = true →
        ∀ s ∈ ready steps before, s.statement.isAwait = true := by
  have hinitial := Split.initial hnodup hneeds
  obtain ⟨arranged, hok, hperm, -⟩ := arrange_spec steps.length hinitial (Nat.le_refl _)
  have hall : remaining steps [] = steps := List.filter_eq_self.mpr (by simp)
  have hsplit : Split (steps.map Step.id) (([] : List Step).map Step.id).reverse
      (remaining steps []) := by rwa [hall]
  have hrun : GreedyRun steps [] arranged :=
    arrange_greedy hnodup (needsNoLater_of_ordered hnodup hordered) hsplit
      (Nat.le_of_eq (congrArg List.length hall)) (by rwa [hall])
  have hgreedy : ∀ before step after, arranged = before ++ step :: after →
      Greedy steps before step := by
    rintro before step after rfl
    exact (greedyRun_append.mp hrun).2.1
  refine ⟨arranged, hok, hperm, hgreedy, ?_, fun before step after heq hawait =>
    (hgreedy before step after heq).awaits hawait⟩
  -- The step that suspends has not run yet at any place in between, so it is still ready there.
  rintro before between step after rfl hready hsuspends s hs
  obtain ⟨front, rest, rfl⟩ := List.append_of_mem hs
  have hids := (hperm.map Step.id).nodup_iff.mpr hnodup
  have hnot : step.id ∉ front.map Step.id := by
    intro hmem
    simp only [List.map_append, List.map_cons, List.append_assoc] at hids
    have hfront := (List.nodup_append.mp (List.nodup_append.mp hids).2.1).2.2
    exact hfront step.id hmem step.id (by simp) rfl
  exact (hgreedy (before ++ front) s (rest ++ step :: after) (by simp)).suspends
    (mem_ready_append hready hnot) hsuspends

/-- Two tasks of which one is awaited to start a third. -/
theorem longestChain_greedy_chained :
    let held : Provider := .held ⟨.plain "C", "f", .plain "A"⟩
    let asking : Step := ⟨0, .single "task" held true, none, [], false⟩
    let asked : Step := ⟨1, .await (some "a") "task" none, none, [asking], false⟩
    let starting : Step := ⟨2, .start (some "start") "a" true, none, [asked], false⟩
    let started : Step := ⟨3, .await none "start" none, none, [starting], false⟩
    let calling : Step := ⟨4, .single "other" held true, none, [], false⟩
    let called : Step := ⟨5, .await (some "b") "other" none, none, [calling], false⟩
    let last : Step := ⟨6, .start none "b" false, none, [started, called], false⟩
    let steps := [asking, asked, starting, started, calling, called, last]
    (steps.map Step.id).Nodup ∧
      (∀ s ∈ steps, ∀ need ∈ s.needs, need.id ∈ steps.map Step.id → need ∈ steps) ∧
      Plan.Ordered steps ∧
      longestChain steps = .ok [asking, calling, asked, starting, started, called, last] ∧
      ∃ arranged, longestChain steps = .ok arranged ∧ arranged.Perm steps ∧
        (∀ before step after, arranged = before ++ step :: after → Greedy steps before step) ∧
        (∀ before between step after, arranged = before ++ between ++ step :: after →
          step ∈ ready steps before → step.statement.suspends = true →
            ∀ s ∈ between, s.statement.suspends = true) ∧
        ∀ before step after, arranged = before ++ step :: after → step.statement.isAwait = true →
          ∀ s ∈ ready steps before, s.statement.isAwait = true := by
  intro held asking asked starting started calling called last steps
  have hnodup : (steps.map Step.id).Nodup := by decide
  have hneeds : ∀ s ∈ steps, ∀ need ∈ s.needs, need.id ∈ steps.map Step.id → need ∈ steps := by
    simp [steps, last, called, calling, started, starting, asked, asking]
  have hordered : Plan.Ordered steps := (Plan.isTopological_iff ⟨steps, ""⟩).mp (by decide)
  exact ⟨hnodup, hneeds, hordered, rfl, longestChain_greedy steps hnodup hneeds hordered⟩

/-- A need with the number of a listed step, but another step: an await, which the scheduler forces.
What runs first is the listed step, though it is no await and waits for one. -/
theorem longestChain_not_greedy :
    let waiting : Step := ⟨0, .await none "task" none, none, [], false⟩
    let listed : Step := ⟨1, .start none "a" false, none, [waiting], false⟩
    let another : Step := ⟨1, .await none "other" none, none, [], false⟩
    let last : Step := ⟨2, .start none "b" false, none, [another], false⟩
    let steps := [waiting, listed, last]
    (steps.map Step.id).Nodup ∧ Plan.Ordered steps ∧
      longestChain steps = .ok [listed, last, waiting] ∧ ¬ Greedy steps [] listed := by
  intro waiting listed another last steps
  have hready : ready steps [] = [waiting] := rfl
  refine ⟨by decide, (Plan.isTopological_iff ⟨steps, ""⟩).mp (by decide), rfl, fun h => ?_⟩
  cases h with
  | start h =>
      rw [hready] at h
      cases h
  | run _ h =>
      rw [hready] at h
      cases h
  | wait _ h _ _ _ =>
      rw [hready, List.mem_singleton] at h
      exact absurd (congrArg Step.id h) (by decide)

end Wiring.Schedule
