import Wiring.Ty.Text

/-!
# Planning runs

What a planning run is told and how it can end without a plan. Its settings say which scheduler arranges
plans that wait, and how many requests may follow one another. Missing and circular dependencies are
diagnostics, not errors: they are reported and the root is stubbed. A `PlanError` ends the whole run.
-/

namespace Wiring

/-! ### Settings -/

/-- How the steps of a plan that waits are arranged. A plan that cannot wait keeps the order in which
its steps were made. -/
inductive Scheduler where
  /-- Start what suspends as early as possible. -/
  | longestChain
  /-- Keep the order in which the steps were planned. -/
  | emission
  deriving DecidableEq, Inhabited

/-- The name of a scheduler. -/
def Scheduler.name : Scheduler → String
  | .longestChain => "longest_suspension_chain"
  | .emission => "emission_order"

/-- The scheduler used unless another is chosen. -/
def Scheduler.standard : Scheduler := .longestChain

/-- How many requests may follow one another unless a run says otherwise. -/
def standardDepth : Nat := 1024

/-- The largest depth that can be set: the largest number of 64 bits. -/
def largestDepth : Nat := 0xFFFFFFFFFFFFFFFF

/-- The settings of a planning run. -/
structure Config where
  scheduler : Scheduler := .standard
  maxDepth : Nat := standardDepth
  deriving DecidableEq, Inhabited

/-! ### Errors -/

/-- Why a planning run ended without a plan. What is wrong with the declarations is reported instead, as
far as it was looked for. -/
inductive PlanError where
  /-- A required dependency without a provider reached planning. -/
  | unprovided (ty : Ty)
  /-- The value of a delegate or owned body has no provider. -/
  | unprovidedBody (ty : Ty)
  /-- A root passed the check but has no provider. -/
  | unprovidedRoot (ty : Ty)
  /-- Steps are pending, none is ready, and none of them waits for an await. -/
  | noAwaitToForce (pending : Nat)
  /-- The await to be forced is not among the pending steps. -/
  | forcedAwaitNotPending (id : Nat)
  /-- The run was cancelled. -/
  | cancelled
  /-- Requests are nested more deeply than allowed. -/
  | depthExceeded (limit : Nat)
  /-- Planning would not end, or not before stack or memory do. It sets no bound of its own to how
  deeply bodies are nested in one another, nor to the number of accessors: `limit` stands for what
  there is room for. -/
  | nestingExceeded (limit : Nat)
  deriving DecidableEq, Inhabited

namespace PlanError

/-- Whether providers and planning disagree, as opposed to the run having been stopped. -/
def isUnsupported : PlanError → Bool
  | .unprovided _ | .unprovidedBody _ | .unprovidedRoot _ | .noAwaitToForce _
  | .forcedAwaitNotPending _ => true
  | .cancelled | .depthExceeded _ | .nestingExceeded _ => false

/-- The text of an error. -/
def message : PlanError → String
  | .unprovided ty => unsupported ("no source for required '" ++ ty.text ++ "'")
  | .unprovidedBody ty => unsupported ("no source for '" ++ ty.text ++ "' reached lowering")
  | .unprovidedRoot ty => unsupported ("checked root '" ++ ty.text ++ "' has no source")
  | .noAwaitToForce pending =>
      unsupported ("scheduler found no await to force among " ++ toString pending ++
        " pending operations")
  | .forcedAwaitNotPending id =>
      unsupported ("forced await " ++ toString id ++ " is not pending")
  | .cancelled => "Planning was cancelled"
  | .depthExceeded limit => "Max depth " ++ toString limit ++ " exceeded"
  | .nestingExceeded limit => "Max nesting " ++ toString limit ++ " exceeded"
where
  /-- The text of a disagreement between providers and planning. -/
  unsupported (detail : String) : String :=
    "Unsupported provider combination: " ++ detail

instance : ToString PlanError := ⟨message⟩

end PlanError

end Wiring
