import Wiring.Cancellation
import Wiring.Environment
import Wiring.PlanningRun

/-!
# Surveys of the dependency graph

A survey walks everything a provider depends on and collects an answer. What it asks of each
provider is its `judge`, which also says whether to go on below that provider. A provider reached at
the container is entered once; inside bodies, where it may resolve differently, every time, except
that a delegate inside itself is not entered.
-/

namespace Wiring

/-- A question asked of every provider reached. -/
structure Survey (α : Type) where
  /-- How many requests may follow one another. -/
  maxDepth : Nat
  trigger : Trigger
  /-- Looks at a provider, in the light of what was found so far. The first answer says whether to
  go on to its dependencies. -/
  judge : Provider → α → Except PlanError (Bool × α)
  /-- Whether what was found settles the question. -/
  isSettled : α → Bool

namespace Survey

/-- The way by which the walk came, as far as it matters for what is met next. -/
structure Context where
  env : Environment
  /-- The delegates entered since the last singleton, innermost first. -/
  delegates : List Provider.Identity

/-- What the walk has found, and which providers it need not enter again. -/
structure State (α : Type) where
  found : α
  /-- The providers entered at the container. -/
  entered : List Provider.Identity

/-- A part of the walk. -/
abbrev Walk (α : Type) := EStateM PlanError (State α)

/-- The context of a provider's dependencies. A singleton is no longer inside any delegate. -/
def Context.enter (ctx : Context) (p : Provider) : Context where
  env := ctx.env.enter p
  delegates :=
    let around := if p.lifetime = .single then [] else ctx.delegates
    if p.isDelegate then p.identity :: around else around

/-- Whether a provider still has to be entered. Near the container that is noted, and it is entered
once only. A delegate inside itself is not entered. -/
def isFirstVisit {α : Type} (ctx : Context) (p : Provider) : Walk α Bool := do
  if ctx.env.isContainer || (ctx.env.enter p).isContainer then
    if p.identity ∈ (← get).entered then return false
    modify fun s => { s with entered := p.identity :: s.entered }
  return !(p.isDelegate && ctx.delegates.contains p.identity)

/-- Asks the question of a provider. The answer says whether to go on below it. -/
def ask {α : Type} (survey : Survey α) (p : Provider) : Walk α Bool := do
  match survey.judge p (← get).found with
  | .ok (goOn, found) =>
      modify fun s => { s with found }
      return goOn
  | .error e => throw e

/-- Follows a request and all that it leads to. `budget` is how many requests may still follow one
another, this one included. -/
def visit {α : Type} (survey : Survey α) : (budget : Nat) → Context → Request → Walk α Unit
  | 0, _, _ =>
      if survey.trigger.hasFired 0 then throw .cancelled else throw (.depthExceeded survey.maxDepth)
  | budget + 1, ctx, request => do
      if survey.trigger.hasFired 0 then throw .cancelled
      if survey.isSettled (← get).found then return
      match request.provider? with
      | none => return
      | some p =>
          if ← survey.ask p then
            if ← isFirstVisit ctx p then
              let body := ctx.enter p
              (body.env.requests p).forM (survey.visit budget body)

/-- Surveys what a request leads to in an environment, starting from an answer. -/
def run {α : Type} (survey : Survey α) (env : Environment) (request : Request) (start : α) :
    Except PlanError α :=
  match (survey.visit (survey.maxDepth + 1) ⟨env, []⟩ request).run ⟨start, []⟩ with
  | .ok _ s => .ok s.found
  | .error e _ => .error e

/-! ### Raw memory

Whether a root touches a pointer or a function pointer anywhere in its dependencies.
-/

/-- Asks whether a value is raw memory; the first that is settles the question. -/
def rawMemory (trigger : Trigger) : Survey Bool where
  maxDepth := standardDepth
  trigger
  judge p found := .ok (if p.ty.isRaw then (false, true) else (true, found))
  isSettled found := found

/-- Whether a root of a container leads to raw memory. The depth is always bounded by the standard
depth, whatever the settings of the run. -/
def touchesRawMemory (trigger : Trigger) (env : Environment) (root : Ty) : Except PlanError Bool :=
  (rawMemory trigger).run env.root (env.root.request root) false

end Survey

end Wiring
