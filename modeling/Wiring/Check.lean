import Wiring.Cancellation
import Wiring.Diagnostic
import Wiring.Environment
import Wiring.PlanningRun

/-!
# Checking a root

`Check.run` walks the dependencies of a root depth first and reports what is wrong: missing and
ambiguous types, providers that depend on themselves, and values that take waiting for where nothing
can wait. Only what the root reaches is looked at.

The walk knows three things about the way it came, kept in `Check.Context`:

* whether it may wait: a delegate or owned body decides for itself;
* the providers since the last delegate: meeting one of them again is a cycle. A delegate defers its
  body, so a cycle through one is none;
* the delegates since the last singleton: a delegate inside itself is not entered again.

A provider reached at the container is entered once for each answer to whether it may wait; inside
bodies the same provider can resolve differently, so there nothing is skipped.
-/

namespace Wiring.Check

/-- What is checked and how: the root, the limits, and the place to name in diagnostics. -/
structure Settings where
  root : Ty
  /-- How many requests may follow one another. -/
  maxDepth : Nat
  trigger : Trigger
  /-- The place named in every diagnostic. -/
  location : Option Location

/-- The way by which the walk came, as far as it matters for what is met next. -/
structure Context where
  env : Environment
  /-- Whether waiting is possible. -/
  isAsync : Bool
  /-- The providers entered since the last delegate, innermost first. -/
  segment : List Provider.Identity
  /-- The delegates entered since the last singleton, innermost first. -/
  delegates : List Provider.Identity

/-- What the walk has found, and what it need not look at again. -/
structure State where
  reported : List Diagnostic
  /-- The providers entered at the container, with whether waiting was possible. -/
  entered : List (Provider.Identity × Bool)
  /-- The types reported as unresolved. -/
  unresolved : List Ty

/-- A part of the walk. What was reported before an error is kept. -/
abbrev Walk := EStateM PlanError State

/-- The context at the root. -/
def Context.atRoot (env : Environment) (isAsync : Bool) : Context :=
  ⟨env.root, isAsync, [], []⟩

/-- The context of a provider's dependencies. A delegate starts a new segment, since it defers its body;
a singleton is no longer inside any delegate. -/
def Context.enter (ctx : Context) (p : Provider) : Context where
  env := ctx.env.enter p
  isAsync := match p with
    | .delegate _ _ _ isAsync | .owned _ _ isAsync => isAsync
    | _ => ctx.isAsync
  segment := if p.isDelegate then [] else p.identity :: ctx.segment
  delegates :=
    let around := if p.lifetime = .single then [] else ctx.delegates
    if p.isDelegate then p.identity :: around else around

/-- Fails if the run was cancelled. -/
def checkpoint (c : Settings) : Walk Unit := do
  if c.trigger.hasFired (← get).reported.length then throw .cancelled

/-- Reports a fault. -/
def report (c : Settings) (kind : DiagnosticKind) (offending : Ty) (candidates : Nat) :
    Walk Unit :=
  modify fun s => { s with
    reported := s.reported ++ [⟨kind, c.root, offending, candidates, c.location⟩] }

/-- Reports a required type without exactly one provider, once for each type. -/
def reportUnresolved (c : Settings) (env : Environment) (ty : Ty) : Walk Unit := do
  if ty ∈ (← get).unresolved then return
  modify fun s => { s with unresolved := ty :: s.unresolved }
  match env.resolve ty with
  | .ambiguous candidates => report c .ambiguous ty candidates
  | .found _ | .missing => report c .missing ty 0

/-- What is wrong with entering a provider, if anything: it is its own dependency, or it suspends where
nothing can wait. Creating a delegate never suspends, whatever its body does. -/
def fault? (ctx : Context) (p : Provider) : Option DiagnosticKind :=
  if p.identity ∈ ctx.segment then some .circular
  else if p.isAsync && !ctx.isAsync && !p.isDelegate then some .requiresAsync
  else none

/-- Whether a provider still has to be entered. Near the container that is noted, and it is entered
once only. A delegate inside itself is not entered. -/
def isFirstVisit (ctx : Context) (p : Provider) : Walk Bool := do
  let body := ctx.enter p
  let key := (p.identity, body.isAsync)
  if ctx.env.isContainer || body.env.isContainer then
    if key ∈ (← get).entered then return false
    modify fun s => { s with entered := key :: s.entered }
  return !(p.isDelegate && ctx.delegates.contains p.identity)

/-- Follows a request and all that it leads to. `budget` is how many requests may still follow one
another, this one included. -/
def visit (c : Settings) : (budget : Nat) → Context → Request → Walk Unit
  | 0, _, _ => do
      checkpoint c
      throw (.depthExceeded c.maxDepth)
  | budget + 1, ctx, request => do
      checkpoint c
      match request.provider? with
      | none => unless request.optional do reportUnresolved c ctx.env request.ty
      | some p =>
          match fault? ctx p with
          | some kind => report c kind p.ty 0
          | none =>
              if ← isFirstVisit ctx p then
                let body := ctx.enter p
                (body.env.requests p).forM (visit c budget body)

/-- The outcome of a check: what was reported, and whether it ran to its end. -/
structure Outcome where
  diagnostics : List Diagnostic
  error? : Option PlanError

/-- Checks a root of a container, with or without the possibility of waiting. -/
def run (c : Settings) (env : Environment) (isAsync : Bool) : Outcome :=
  let ctx := Context.atRoot env isAsync
  match (visit c (c.maxDepth + 1) ctx (ctx.env.request c.root)).run ⟨[], [], []⟩ with
  | .ok _ s => ⟨s.reported, none⟩
  | .error e s => ⟨s.reported, some e⟩

end Wiring.Check
