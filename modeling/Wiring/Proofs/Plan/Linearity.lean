import Wiring.Proofs.Plan.Values

/-!
# Values used once

A value that is not shared belongs to the one that asked for it: it is an argument in one place, or it
is the result of the plan.

* `Step.unshared?` — the variable in which a step leaves such a value.
* `Step.takes` — the arguments that a step takes from providers that do not share.
* `Plan.UsesOnce`, `Plan.Mentions` — where a variable occurs.
* `Provider.Avoids` — no parameter is called like a variable.
-/

namespace Wiring

/-- The value of the statement is not shared. -/
def Statement.isUnshared (statement : Statement) : Bool :=
  statement.value?.any fun p => p.lifetime = .dependency

/-- The variable in which the step leaves a value that is not shared: its own, or that of the task it
waits for. -/
def Step.unshared? (step : Step) : Option String :=
  match step.statement with
  | .await name _ _ =>
      if step.needs.any fun maker => maker.statement.holdsTask && maker.statement.isUnshared then name
      else none
  | statement =>
      if statement.isUnshared && !statement.holdsTask then statement.assigned? else none

/-- The arguments that the step takes from providers that do not share. `env` is where the plan's value
is requested. -/
def Step.takes (env : Environment) (step : Step) : List String :=
  match step.statement with
  | .create _ p args =>
      argumentsFor (fun q => q.lifetime = .dependency) ((env.enter p).requests p) args
  | _ => []

/-- All argument lists of a plan. -/
def Plan.arguments (plan : Plan) : List String :=
  plan.steps.flatMap fun step => step.statement.arguments

/-- The registry of a delegate. -/
def Statement.registry? : Statement → Option String
  | .delegate _ _ _ actions => some actions
  | _ => none

/-- The variables that a release names. -/
def Release.names : Release → List String
  | .dispose name _ | .drain name _ => [name]
  | .giveBack name maker _ => [name, maker]

/-- The variables that occur in a step: the one it assigns, those it reads, the registry of a delegate
and those of its release. -/
def Step.mentions (step : Step) : List String :=
  step.statement.assigned?.toList ++ step.statement.reads ++ step.statement.registry?.toList ++
    step.release.toList.flatMap Release.names

/-- The variable occurs in the plan. -/
def Plan.Mentions (plan : Plan) (v : String) : Prop :=
  plan.target = v ∨ ∃ step ∈ plan.steps, v ∈ step.mentions

/-- The variable is one argument in the plan, or it is the result and no argument. -/
def Plan.UsesOnce (plan : Plan) (v : String) : Prop :=
  plan.arguments.count v = 1 ∧ plan.target ≠ v ∨ plan.target = v ∧ plan.arguments.count v = 0

/-- No parameter within the provider is called `v`. -/
def Provider.Avoids (v : String) (p : Provider) : Prop := Known (· ≠ v) (· ≠ v) p

/-- No parameter that can be found in the environment is called `v`. -/
def Environment.Avoids (env : Environment) (v : String) : Prop := env.Knows (· ≠ v) (· ≠ v)

theorem Provider.Avoids.identity_ne {p : Provider} {v : String} (h : p.Avoids v) (param : Parameter)
    (depth : Nat) : p.identity ≠ .parameter param v depth := by
  intro hi
  obtain rfl := Provider.eq_parameter_of_identity hi
  exact h.parameter.elim (fun hne => hne rfl) fun hne => hne rfl

namespace Step

variable {step maker : Step} {p : Provider} {v : String} {steps : List Step}

theorem assigned?_of_unshared? (h : step.unshared? = some v) : step.statement.assigned? = some v := by
  unfold unshared? at h
  split at h
  · rename_i hstatement
    obtain ⟨-, rfl⟩ := Option.ite_none_right_eq_some.mp h
    rw [hstatement]
    rfl
  · exact (Option.ite_none_right_eq_some.mp h).2

/-- The variable that holds a value that is not shared is one of those. -/
theorem unshared?_of_handsOver (h : HandsOver steps maker v) (hmaker : maker ∈ steps)
    (hunshared : maker.statement.isUnshared = true) : ∃ step ∈ steps, step.unshared? = some v := by
  cases h with
  | own hvalue hname =>
      refine ⟨maker, hmaker, ?_⟩
      unfold unshared?
      split
      · rename_i hstatement
        rw [hstatement] at hunshared
        cases hunshared
      · rw [hunshared, hvalue]
        exact hname
  | @awaited _ _ waiting htask _ hmem hneeds hwaiting =>
      exact ⟨waiting, hmem, by simp [unshared?, hwaiting, hneeds, htask, hunshared]⟩

/-- The step that finishes a value leaves it unshared only if its provider does not share. -/
theorem Finishes.lifetime_of_unshared? {name : String} (h : Finishes p name maker step)
    (hmaker : maker.statement.value? = some p) (hunshared : step.unshared? = some v) :
    p.lifetime = .dependency := by
  have hprovider : maker.statement.isUnshared = true → p.lifetime = .dependency := by
    intro h
    rw [Statement.isUnshared, hmaker] at h
    exact of_decide_eq_true h
  cases h with
  | own _ _ =>
      unfold unshared? at hunshared
      split at hunshared
      · rename_i hstatement
        rw [hstatement] at hmaker
        cases hmaker
      · have hboth := (Option.ite_none_right_eq_some.mp hunshared).1
        exact hprovider (Bool.and_eq_true_iff.mp hboth).1
  | awaited _ _ hneeds hwaiting =>
      simp only [unshared?, hwaiting, hneeds, List.any_cons, List.any_nil, Bool.or_false,
        Option.ite_none_right_eq_some, Bool.and_eq_true] at hunshared
      exact hprovider hunshared.1.2

end Step

end Wiring
