import Mathlib.Logic.Basic
import Wiring.Plan.Basic

/-!
# Steps in order

`Plan.inOrder` decides whether a list of steps respects the needs of its steps. This module says
what that decision means.

* `Ordered` — every step stands strictly after the steps of the list that it needs; a need outside
  the list puts no demand on the order.
* `Plan.isTopological_iff` — the decision and the predicate agree.
* `inOrder_append` — a run in order followed by a run in order, the workhorse for everything that
  builds a list of steps from left to right.
-/

namespace Wiring.Plan

/-- Every step stands strictly after the steps of the list that it needs. -/
def Ordered (steps : List Step) : Prop :=
  ∀ before step after, steps = before ++ step :: after →
    ∀ need ∈ step.needs, need.id ∈ steps.map Step.id → need.id ∈ before.map Step.id

theorem inOrder_cons {within seen : List Nat} {step : Step} {rest : List Step} :
    inOrder within seen (step :: rest) = true ↔
      (∀ need ∈ step.needs, need.id ∈ within → need.id ∈ seen) ∧
        inOrder within (step.id :: seen) rest = true := by
  simp [inOrder, List.contains_eq_mem, imp_iff_not_or]

/-- A list is in order when its first part is, and its second part is once the first has run. -/
theorem inOrder_append {within seen : List Nat} {first second : List Step} :
    inOrder within seen (first ++ second) = true ↔
      inOrder within seen first = true ∧
        inOrder within ((first.map Step.id).reverse ++ seen) second = true := by
  induction first generalizing seen with
  | nil => simp [inOrder]
  | cons step rest ih => simp [inOrder_cons, ih, and_assoc]

/-- What `inOrder` decides: each step of the list finds what it needs among the steps seen before
the list or standing before it in the list. -/
theorem inOrder_iff {within seen : List Nat} {steps : List Step} :
    inOrder within seen steps = true ↔
      ∀ before step after, steps = before ++ step :: after →
        ∀ need ∈ step.needs, need.id ∈ within →
          need.id ∈ before.map Step.id ∨ need.id ∈ seen := by
  constructor
  · rintro h before step after rfl need hneed hwithin
    have hstep := (inOrder_cons.mp (inOrder_append.mp h).2).1 need hneed hwithin
    simpa using hstep
  · intro h
    induction steps generalizing seen with
    | nil => rfl
    | cons step rest ih =>
        refine inOrder_cons.mpr ⟨fun need hneed hwithin => ?_, ih ?_⟩
        · simpa using h [] step rest rfl need hneed hwithin
        · rintro before later after rfl need hneed hwithin
          have := h (step :: before) later after rfl need hneed hwithin
          simpa [or_assoc, or_left_comm] using this

/-- A plan is topological exactly when each of its steps stands after those it needs. -/
theorem isTopological_iff (plan : Plan) : plan.isTopological = true ↔ Ordered plan.steps := by
  simp [isTopological, inOrder_iff, Ordered]

end Wiring.Plan
