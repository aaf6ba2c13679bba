import Wiring.Provider

/-!
# Plans

A `Plan` is an ordered list of steps that produces one value. Each `Step` executes a statement, may
carry a release for the value it creates, and needs other steps, of its own plan or of a plan around
it. The statements that create a delegate or a function for an owned value hold the plan of its body.

* A step that suspends hands out a task; a later `await` step waits for it.
* Releases run in the reverse order of the steps (`Plan.releaseOrder`).
* `Plan.isTopological` says that every step stands after the steps of the plan that it needs.
-/

namespace Wiring

/-- How the value of a step is released, with what is needed for it. -/
inductive Release where
  /-- Call the value's own release. -/
  | dispose (name : String) (isAsync : Bool)
  /-- Hand the value back to the factory that made it. -/
  | giveBack (name maker : String) (isAsync : Bool)
  /-- Drain a delegate's registry. -/
  | drain (registry : String) (isAsync : Bool)
  deriving DecidableEq, Inhabited

/-- Whether a release suspends. -/
def Release.isAsync : Release → Bool
  | .dispose _ isAsync | .giveBack _ _ isAsync | .drain _ isAsync => isAsync

mutual

/-- What a step executes. Variables are strings; a body is a plan of its own. -/
inductive Statement where
  /-- Asks a singleton's accessor; an asynchronous one answers with a task. -/
  | single (name : String) (provider : Provider) (isAsync : Bool)
  /-- Creates a delegate. What its body creates is released through `registry`. -/
  | delegate (name : String) (provider : Provider) (body : Plan) (registry : String)
  /-- Creates the registry of a delegate. -/
  | registry (name : String) (isAsync : Bool)
  /-- Defines the function that produces an owned value. -/
  | ownedFunction (function : String) (provider : Provider) (isAsync : Bool) (body : Plan)
  /-- Calls that function. -/
  | owned (name : String) (provider : Provider) (isAsync : Bool) (function : String)
  /-- Creates a value. An argument is absent for an optional parameter that was left out. Where the
  creation suspends, `name` holds its task. -/
  | create (name : String) (provider : Provider) (args : List (Option String))
  /-- Runs the initialization hook of `name`. -/
  | start (task : Option String) (name : String) (isAsync : Bool)
  /-- Waits for a task, and may keep its result. -/
  | await (name : Option String) (task : String) (ty : Option Ty)

/-- A statement with what it needs and how its value is released. -/
structure Step where
  id : Nat
  statement : Statement
  release : Option Release
  /-- The steps that have to come before. -/
  needs : List Step
  /-- Whether the release can run where the plan runs. -/
  releasable : Bool

/-- Steps in order, and the variable with the result. -/
structure Plan where
  steps : List Step
  target : String

end

instance : Inhabited Plan := ⟨⟨[], ""⟩⟩

/-- A variable and its type. -/
structure Declaration where
  name : String
  ty : Ty
  deriving DecidableEq, Inhabited

namespace Statement

/-- The type of a task with a result. -/
def taskOf (ty : Ty) : Ty := .named "Task" [ty]

/-- The variable that a statement declares, with its type: where the statement hands out a task, the
variable holds that task. -/
def declaration? : Statement → Option Declaration
  | .single name provider isAsync => some ⟨name, if isAsync then taskOf provider.ty else provider.ty⟩
  | .delegate name provider _ _ | .owned name provider _ _ => some ⟨name, provider.ty⟩
  | .registry name _ => some ⟨name, .plain "DisposeActions"⟩
  | .create name provider _ =>
      some ⟨name, if provider.isAsync && !provider.isInitialized then taskOf provider.ty
        else provider.ty⟩
  | .start (some task) _ _ => some ⟨task, .plain "Task"⟩
  | .await (some name) _ (some ty) => some ⟨name, ty⟩
  | .ownedFunction .. | .start none _ _ | .await .. => none

/-- Whether the statement waits for a task. -/
def isAwait : Statement → Bool
  | .await .. => true
  | _ => false

/-- Whether the statement hands out a task to be awaited later. The creation of an initialized value
does not: its hook suspends, not its constructor. -/
def suspends : Statement → Bool
  | .single _ _ isAsync | .start _ _ isAsync => isAsync
  | .create _ provider _ =>
      match provider with
      | .call .. | .factory .. => provider.isAsync
      | .decorated _ decorator _ => decorator.kind = .function && decorator.isAsync
      | _ => false
  | _ => false

/-- The provider that the statement was planned for, if it produces a value or asks for one. -/
def provider? : Statement → Option Provider
  | .single _ provider _ | .delegate _ provider _ _ | .ownedFunction _ provider _ _
  | .owned _ provider _ _ | .create _ provider _ => some provider
  | .registry .. | .start .. | .await .. => none

/-- The plan of the body that the statement holds. -/
def body? : Statement → Option Plan
  | .delegate _ _ body _ | .ownedFunction _ _ _ body => some body
  | _ => none

end Statement

namespace Step

/-- Whether one step stands for another: its number tells. -/
def same (a b : Step) : Bool := a.id == b.id

end Step

namespace Plan

/-- The number of steps. -/
def size (plan : Plan) : Nat := plan.steps.length

/-- Whether there is no step. -/
def isEmpty (plan : Plan) : Bool := plan.steps.isEmpty

/-- The steps with a release, in the order in which the releases run: the reverse of the order of
the steps. -/
def releaseOrder (plan : Plan) : List Step :=
  plan.steps.reverse.filter fun step => step.release.isSome

/-- The variables to declare, in order. -/
def declarations (plan : Plan) : List Declaration :=
  plan.steps.filterMap fun step => step.statement.declaration?

/-- The steps whose release suspends where nothing can wait. -/
def unreleasable (plan : Plan) : List Step :=
  plan.steps.filter fun step => step.release.isSome && !step.releasable

/-- The position of the first step of a number. -/
def position? (plan : Plan) (id : Nat) : Option Nat :=
  plan.steps.findIdx? fun step => step.id = id

/-- Whether each of the steps needs, of the steps numbered in `within`, only ones seen before. -/
def inOrder (within seen : List Nat) : List Step → Bool
  | [] => true
  | step :: rest =>
      (step.needs.all fun need => !within.contains need.id || seen.contains need.id) &&
        inOrder within (step.id :: seen) rest

/-- Whether every step stands after the steps of the plan that it needs. -/
def isTopological (plan : Plan) : Bool :=
  inOrder (plan.steps.map Step.id) [] plan.steps

end Plan

end Wiring
