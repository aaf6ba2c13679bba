import Mathlib.Data.List.Nodup
import Wiring.Proofs.Parameters
import Wiring.Proofs.Schedule.Linearization

/-!
# The tree of a plan

The statements that create a delegate or define the function of an owned value hold the plan of a
body, so a plan is a tree of plans.

* `Plan.tree` — the steps of a plan and of every body in it.
* `Plan.Within` — a plan somewhere in the tree, with the way to it: the plans around, each with the
  step that holds the next one, innermost first.
* `Statement.reads`, `Statement.assigned?` — the variables that a statement uses and the one it
  fills.
-/

namespace Wiring

/-! ### Variables -/

/-- The variables that a statement reads when it runs: arguments, the task waited for, the value
initialized, and the function of an owned value. -/
def Statement.reads : Statement → List String
  | .create _ _ args => args.filterMap id
  | .start _ name _ => [name]
  | .await _ task _ => [task]
  | .owned _ _ _ function => [function]
  | .single .. | .delegate .. | .registry .. | .ownedFunction .. => []

/-- The variable that a statement fills, or the function that it defines. -/
def Statement.assigned? : Statement → Option String
  | .single name _ _ | .delegate name _ _ _ | .registry name _ | .owned name _ _ _
  | .create name _ _ => some name
  | .ownedFunction function _ _ _ => some function
  | .start task _ _ => task
  | .await name _ _ => name

/-- The variables that exist in the body of a delegate without a step that fills them: the delegate
itself, and its parameters under the names they have with so many bodies around. -/
def Statement.bound (depth : Nat) : Statement → List String
  | .delegate name provider _ _ => name :: provider.bodyNames depth
  | _ => []

/-- A step stands behind a variable when the step, or one that it needs, fills it. -/
def Step.Provides (step : Step) (name : String) : Prop :=
  ∃ d, step.Reaches d ∧ d.statement.assigned? = some name

theorem Step.Provides.of_assigned {step : Step} {name : String}
    (h : step.statement.assigned? = some name) : step.Provides name :=
  ⟨step, .refl step, h⟩

theorem Step.Provides.of_need {step need : Step} {name : String} (hneed : need ∈ step.needs)
    (h : need.Provides name) : step.Provides name := by
  obtain ⟨d, hreaches, hassigned⟩ := h
  exact ⟨d, .need hneed hreaches, hassigned⟩

/-! ### All steps -/

mutual

/-- The steps of the body that a statement holds, and of the bodies in it. -/
def Statement.inner : Statement → List Step
  | .delegate _ _ body _ | .ownedFunction _ _ _ body => body.tree
  | .single .. | .registry .. | .owned .. | .create .. | .start .. | .await .. => []

/-- The steps of a plan and of every body in it. -/
def Plan.tree : Plan → List Step
  | ⟨steps, _⟩ => treeOf steps

/-- The given steps and those of every body in them. -/
def treeOf : List Step → List Step
  | [] => []
  | ⟨id, statement, release, needs, releasable⟩ :: rest =>
      ⟨id, statement, release, needs, releasable⟩ :: (statement.inner ++ treeOf rest)

end

/-- A step and those of the bodies in it. -/
def Step.tree (step : Step) : List Step := step :: step.statement.inner

theorem treeOf_eq_flatMap (steps : List Step) : treeOf steps = steps.flatMap Step.tree := by
  induction steps with
  | nil => rfl
  | cons step rest ih =>
      cases step
      simp [treeOf, ih, Step.tree]

theorem Plan.tree_eq (plan : Plan) : plan.tree = treeOf plan.steps := by
  cases plan
  rfl

theorem treeOf_append (first second : List Step) :
    treeOf (first ++ second) = treeOf first ++ treeOf second := by
  simp [treeOf_eq_flatMap]

theorem treeOf_singleton (step : Step) : treeOf [step] = step.tree := by
  simp [treeOf_eq_flatMap]

theorem treeOf_perm {first second : List Step} (h : first.Perm second) :
    (treeOf first).Perm (treeOf second) := by
  rw [treeOf_eq_flatMap, treeOf_eq_flatMap]
  exact h.flatMap_right _

theorem Statement.inner_of_body {statement : Statement} {body : Plan}
    (h : statement.body? = some body) : statement.inner = body.tree := by
  cases statement <;> simp_all [Statement.body?, Statement.inner]

theorem Statement.inner_of_no_body {statement : Statement} (h : statement.body? = none) :
    statement.inner = [] := by
  cases statement <;> simp_all [Statement.body?, Statement.inner]

/-- The listed steps, and those of the bodies that they hold. -/
theorem mem_treeOf {steps : List Step} {step : Step} :
    step ∈ treeOf steps ↔ step ∈ steps ∨
      ∃ carrier ∈ steps, ∃ body, carrier.statement.body? = some body ∧ step ∈ body.tree := by
  rw [treeOf_eq_flatMap, List.mem_flatMap]
  constructor
  · rintro ⟨carrier, hcarrier, hmem⟩
    rcases List.mem_cons.mp hmem with rfl | hinner
    · exact .inl hcarrier
    · cases hbody : carrier.statement.body? with
      | none =>
          rw [Statement.inner_of_no_body hbody] at hinner
          cases hinner
      | some body =>
          rw [Statement.inner_of_body hbody] at hinner
          exact .inr ⟨carrier, hcarrier, body, hbody, hinner⟩
  · rintro (hmem | ⟨carrier, hcarrier, body, hbody, hinner⟩)
    · exact ⟨step, hmem, List.mem_cons_self⟩
    · rw [← Statement.inner_of_body hbody] at hinner
      exact ⟨carrier, hcarrier, List.mem_cons_of_mem _ hinner⟩

/-- The listed steps, and then those of the bodies that they hold. -/
theorem treeOf_perm_inner (steps : List Step) :
    (treeOf steps).Perm (steps ++ steps.flatMap fun step => step.statement.inner) := by
  rw [treeOf_eq_flatMap]
  induction steps with
  | nil => exact .refl _
  | cons step rest ih =>
      simp only [List.flatMap_cons, Step.tree, List.cons_append]
      refine .cons _ ((ih.append_left _).trans ?_)
      rw [← List.append_assoc, ← List.append_assoc]
      exact List.perm_append_comm.append_right _

theorem Plan.mem_tree {plan : Plan} {step : Step} (h : step ∈ plan.steps) : step ∈ plan.tree := by
  rw [Plan.tree_eq]
  exact mem_treeOf.mpr (.inl h)

/-- The steps of a body are in the tree around it. -/
theorem Plan.tree_of_body {plan body : Plan} {carrier : Step} (hcarrier : carrier ∈ plan.steps)
    (hbody : carrier.statement.body? = some body) : body.tree ⊆ plan.tree := by
  intro step hstep
  rw [Plan.tree_eq]
  exact mem_treeOf.mpr (.inr ⟨carrier, hcarrier, body, hbody, hstep⟩)

/-! ### The plans in a plan -/

/-- A plan in the tree of a plan, and the plans around it, innermost first, each with the step that
holds the next one. -/
inductive Plan.Within (root : Plan) : List (Plan × Step) → Plan → Prop
  | root : Plan.Within root [] root
  | body {around : List (Plan × Step)} {plan body : Plan} {carrier : Step}
      (outer : Plan.Within root around plan) (hcarrier : carrier ∈ plan.steps)
      (hbody : carrier.statement.body? = some body) :
      Plan.Within root ((plan, carrier) :: around) body

/-- Whether waiting is possible in the body that a statement holds: its delegate or owned value is
asynchronous. -/
def Statement.isBodyAsync (statement : Statement) : Bool :=
  statement.provider?.any Provider.isAsync

/-- Whether waiting is possible in a plan in a tree, given whether it is at the root of the tree. -/
def canWait (isAsync : Bool) : List (Plan × Step) → Bool
  | [] => isAsync
  | (_, carrier) :: _ => carrier.statement.isBodyAsync

/-- The steps of a body are in the tree around it, in the same order. -/
theorem Plan.tree_sublist_of_body {plan body : Plan} {carrier : Step} (hcarrier : carrier ∈ plan.steps)
    (hbody : carrier.statement.body? = some body) : body.tree.Sublist plan.tree := by
  rw [Plan.tree_eq plan, treeOf_eq_flatMap, List.flatMap_def]
  refine .trans ?_ (List.sublist_flatten_of_mem (List.mem_map_of_mem hcarrier))
  rw [Step.tree, Statement.inner_of_body hbody]
  exact List.sublist_cons_self _ _

theorem Plan.Within.tree_sublist {root nested : Plan} {around : List (Plan × Step)}
    (h : root.Within around nested) : nested.tree.Sublist root.tree := by
  induction h with
  | root => exact .refl _
  | body _ hcarrier hbody ih => exact (Plan.tree_sublist_of_body hcarrier hbody).trans ih

/-- The plans around belong to the tree as well. -/
theorem Plan.Within.of_mem {root nested plan : Plan} {carrier : Step} {around : List (Plan × Step)}
    (h : root.Within around nested) (hmem : (plan, carrier) ∈ around) :
    ∃ outer, root.Within outer plan ∧ carrier ∈ plan.steps ∧ nested.tree ⊆ carrier.statement.inner := by
  induction h with
  | root => cases hmem
  | @body around plan' body carrier' houter hcarrier hbody ih =>
      rcases List.mem_cons.mp hmem with heq | hmem
      · cases heq
        exact ⟨around, houter, hcarrier, by rw [Statement.inner_of_body hbody]; exact List.Subset.refl _⟩
      · obtain ⟨outer, hwithin, hin, hsubset⟩ := ih hmem
        exact ⟨outer, hwithin, hin, List.Subset.trans (Plan.tree_of_body hcarrier hbody) hsubset⟩

theorem Plan.Within.mem_tree {root nested : Plan} {around : List (Plan × Step)} {step : Step}
    (h : root.Within around nested) (hstep : step ∈ nested.steps) : step ∈ root.tree :=
  h.tree_sublist.subset (Plan.mem_tree hstep)

theorem Plan.Within.mem_tree_of_mem {root nested : Plan} {around : List (Plan × Step)}
    {level : Plan × Step} {step : Step} (h : root.Within around nested) (hlevel : level ∈ around)
    (hstep : step ∈ level.1.steps) : step ∈ root.tree := by
  obtain ⟨outer, hwithin, -, -⟩ := h.of_mem hlevel
  exact hwithin.mem_tree hstep

/-- What is within a plan in the tree is in the tree. -/
theorem Plan.Within.trans {root nested inner : Plan} {around further : List (Plan × Step)}
    (h : root.Within around nested) (h' : nested.Within further inner) :
    root.Within (further ++ around) inner := by
  induction h' with
  | root => exact h
  | body _ hcarrier hbody ih => exact .body ih hcarrier hbody

/-- A plan is around those that are strictly within it. -/
theorem Plan.Within.exists_mem {root nested : Plan} {around : List (Plan × Step)}
    (h : root.Within around nested) (haround : around ≠ []) : ∃ carrier, (root, carrier) ∈ around := by
  induction h with
  | root => exact absurd rfl haround
  | @body around plan body carrier outer hcarrier hbody ih =>
      cases outer with
      | root => exact ⟨carrier, List.mem_cons_self⟩
      | body =>
          obtain ⟨carrier', hmem⟩ := ih (List.cons_ne_nil _ _)
          exact ⟨carrier', List.mem_cons_of_mem _ hmem⟩

/-- The plan of a body is smaller than the plan around it. -/
theorem Plan.sizeOf_body_lt {plan body : Plan} {carrier : Step} (hcarrier : carrier ∈ plan.steps)
    (hbody : carrier.statement.body? = some body) : sizeOf body < sizeOf plan := by
  obtain ⟨steps, target⟩ := plan
  obtain ⟨id, statement, release, needs, releasable⟩ := carrier
  have hsteps := List.sizeOf_lt_of_mem hcarrier
  have hstatement : sizeOf body < sizeOf statement := by
    cases statement <;> cases hbody <;>
      simp only [Statement.delegate.sizeOf_spec, Statement.ownedFunction.sizeOf_spec] <;> omega
  simp only [Plan.mk.sizeOf_spec, Step.mk.sizeOf_spec] at hsteps ⊢
  omega

/-- Every step of the tree is a step of one of the plans in it. -/
theorem Plan.exists_within {root plan : Plan} {around : List (Plan × Step)} {step : Step}
    (hwithin : root.Within around plan) (h : step ∈ plan.tree) :
    ∃ around nested, root.Within around nested ∧ step ∈ nested.steps := by
  rw [Plan.tree_eq] at h
  rcases mem_treeOf.mp h with h | ⟨carrier, hcarrier, body, hbody, h⟩
  · exact ⟨around, plan, hwithin, h⟩
  · have := Plan.sizeOf_body_lt hcarrier hbody
    exact Plan.exists_within (.body hwithin hcarrier hbody) h
termination_by sizeOf plan

/-- Where no two steps of the tree have one number, a step of a body is none of the plans around. -/
theorem Plan.Within.not_mem {root nested plan : Plan} {carrier step : Step}
    {around : List (Plan × Step)} (h : root.Within around nested)
    (hnodup : (root.tree.map Step.id).Nodup) (hmem : (plan, carrier) ∈ around)
    (hstep : step ∈ nested.tree) : step ∉ plan.steps := by
  obtain ⟨outer, hplan, hcarrier, hinner⟩ := h.of_mem hmem
  have htree : plan.tree.Nodup := (hnodup.of_map _).sublist hplan.tree_sublist
  rw [Plan.tree_eq, (treeOf_perm_inner _).nodup_iff] at htree
  intro hsteps
  exact (List.nodup_append.mp htree).2.2 step hsteps step
    (List.mem_flatMap.mpr ⟨carrier, hcarrier, hinner hstep⟩) rfl

end Wiring
