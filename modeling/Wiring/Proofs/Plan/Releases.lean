import Wiring.Proofs.Plan.Emission
import Wiring.Proofs.Plan.Values

/-!
# Releases of a plan

Releases run in the reverse order of the steps. What a release is about is the finished value of its
step, though the step itself may only hand out a task.

* `Step.released?` — the variable of the value that a step's release is about.
* `Plan.Passes` — the value of one variable goes into the value of another.
* `Plan.Precedes.releaseOrder` — the later step is released first.
* `Plan.ReleasesAll` — a plan in a tree releases what it has to, and the delegates around pass that on.
-/

namespace Wiring

/-- Whether the value that a provider creates is released: what a factory made always is, and what
offers a way of being released; a decorator's value only if the decorator was declared to be. -/
def Provider.isReleasable : Provider → Bool
  | .factory .. => true
  | .construct _ rule => rule.disposability != .none
  | .call _ rule => rule.disposability != .none
  | .decorated _ decorator _ => decorator.disposes && decorator.disposability != .none
  | _ => false

/-- Whether the value is made by a factory object. -/
def Provider.isFactory : Provider → Bool
  | .factory .. => true
  | _ => false

/-- The variable of the created value that a release is about. -/
def Release.value? : Release → Option String
  | .dispose name _ | .giveBack name _ _ => some name
  | .drain .. => none

/-- The variable of the value that the release of a step is about. A delegate stands for what its
body created. -/
def Step.released? (step : Step) : Option String :=
  step.release.bind fun release => release.value?.or step.statement.assigned?

/-- Whether the statement creates a delegate. -/
def Statement.isDelegate : Statement → Bool
  | .delegate .. => true
  | _ => false

/-- The values that a statement passes on, each with the variable it goes into: the arguments of a
creation and the result of a task waited for. `env` is where the plan's value is requested. A parameter
stands for a value from outside, whatever its name. -/
def Statement.passes (env : Environment) : Statement → List (String × String)
  | .create name p args =>
      (argumentsFor (fun q => q.parameterName?.isNone) ((env.enter p).requests p) args).map
        fun v => (v, name)
  | .await (some name) task _ => [(task, name)]
  | _ => []

theorem Statement.mem_passes_create {env : Environment} {p : Provider} {args : List (Option String)}
    {name v w : String} :
    (v, w) ∈ (Statement.create name p args).passes env ↔ w = name ∧
      ∃ request q, (request, some v) ∈ ((env.enter p).requests p).zip args ∧
        request.provider? = some q ∧ q.parameterName? = none := by
  simp only [passes, List.mem_map, mem_argumentsFor, Option.isNone_iff_eq_none, Prod.mk.injEq]
  constructor
  · rintro ⟨_, hmem, rfl, rfl⟩
    exact ⟨rfl, hmem⟩
  · rintro ⟨rfl, hmem⟩
    exact ⟨v, hmem, rfl, rfl⟩

theorem Statement.mem_passes_await {env : Environment} {name : Option String} {ty : Option Ty}
    {task v w : String} :
    (v, w) ∈ (Statement.await name task ty).passes env ↔ name = some w ∧ v = task := by
  cases name <;> simp [passes, and_comm, eq_comm]

/-- The value of one variable goes directly into the value of another. -/
def Plan.Passes (env : Environment) (plan : Plan) (v w : String) : Prop :=
  (v, w) ∈ plan.steps.flatMap fun step => step.statement.passes env

/-- A delegate passes on a release that its body needs: it drains the registry that its plan opens for
it, and can wait if the release has to. -/
def Step.Drains (carrier : Step) (plan : Plan) (release : Release) : Prop :=
  ∃ name p body registry isAsync, carrier.statement = .delegate name p body registry ∧
    carrier.release = some (.drain registry isAsync) ∧ (release.isAsync = true → isAsync = true) ∧
      ∃ opening ∈ plan.steps, opening.statement = .registry registry isAsync

/-- A plan in a tree, with the plans around it, releases what it has to. -/
structure Plan.ReleasesAll (around : List (Plan × Step)) (plan : Plan) : Prop where
  /-- A creation has a release exactly if its provider asks for one. -/
  exact : ∀ step ∈ plan.steps, ∀ name p args, step.statement = .create name p args →
    step.release.isSome = p.isReleasable
  /-- The release is about the finished value, which the plan declares. -/
  finished : ∀ step ∈ plan.steps, ∀ name p args, step.statement = .create name p args →
    ∀ release, step.release = some release →
      ∃ value last, release.value? = some value ∧ last ∈ plan.steps ∧ step.Finishes p value last ∧
        last.statement.givesTask = false ∧ ⟨value, p.ty⟩ ∈ plan.declarations
  /-- A release within a body is passed on by the delegates around, up to a body that is no
  delegate's. -/
  drained : ∀ step ∈ plan.steps, ∀ release, step.release = some release →
    ∀ inner outer plan' carrier, around = inner ++ (plan', carrier) :: outer →
      (∀ level ∈ inner, level.2.statement.isDelegate = true) → carrier.statement.isDelegate = true →
        carrier.Drains plan' release

/-! ### The order of releases -/

/-- Of two steps with a release the later one is released first. -/
theorem Plan.Precedes.releaseOrder {plan : Plan} {first second : Step}
    (h : plan.Precedes first second) (hfirst : first.release.isSome = true)
    (hsecond : second.release.isSome = true) :
    ∃ before after, plan.releaseOrder = before ++ second :: after ∧ first ∈ after := by
  obtain ⟨before, after, hsteps, hmem⟩ := h
  refine ⟨after.reverse.filter fun step => step.release.isSome,
    before.reverse.filter fun step => step.release.isSome, ?_, ?_⟩
  · simp [Plan.releaseOrder, hsteps, hsecond]
  · exact List.mem_filter.mpr ⟨List.mem_reverse.mpr hmem, hfirst⟩

end Wiring
