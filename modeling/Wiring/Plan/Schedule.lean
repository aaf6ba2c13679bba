import Wiring.PlanningRun
import Wiring.Plan.Basic

/-!
# Arranging steps

The order in which steps are planned is valid already. Where waiting is possible, a scheduler may
rearrange them so that what suspends starts early and the waiting overlaps.

`Schedule.longestChain` works in rounds.

1. Every step that suspends and is ready starts, in one pass from left to right; a step started in
   the pass may make a later one ready.
2. Then the first ready step that is no await runs.
3. If there is none, everything pending waits for some await. Going back from the last pending step
   through pending needs, the await at the end of the chain with the most awaits runs; of several
   the first one met.

A step is ready when each step it needs has run or is not among the steps to arrange.
-/

namespace Wiring.Schedule

/-- Whether everything a step needs, of the steps numbered in `within`, is among those done. -/
def isReady (within done : List Nat) (step : Step) : Bool :=
  step.needs.all fun need => done.contains need.id || !within.contains need.id

/-- Starts every ready step that suspends, from left to right. The answer holds the steps started,
the steps left, and the numbers of the steps done. -/
def startReady (within : List Nat) : (done : List Nat) → List Step → List Step × List Step × List Nat
  | done, [] => ([], [], done)
  | done, step :: rest =>
      if step.statement.suspends && isReady within done step then
        let (started, left, done) := startReady within (step.id :: done) rest
        (step :: started, left, done)
      else
        let (started, left, done) := startReady within done rest
        (started, step :: left, done)

/-- Takes the first element that satisfies a condition out of a list. -/
def takeFirst (p : α → Bool) : List α → Option (α × List α)
  | [] => none
  | a :: rest => if p a then some (a, rest) else (takeFirst p rest).map fun (b, left) => (b, a :: left)

mutual

/-- The await at the end of the chain with the most awaits, among the chains of pending needs that
start at a step: its number and that count. `length` awaits were passed on the way to the step, and
`best` is what was found before; only a longer chain replaces it. -/
def longestAwait (isPending : Nat → Bool) (length : Nat) (best : Option (Nat × Nat)) :
    Step → Option (Nat × Nat)
  | ⟨id, statement, _, needs, _⟩ =>
      if statement.isAwait then
        let best := if best.all fun found => found.2 < length + 1 then some (id, length + 1) else best
        longestAwaitOf isPending (length + 1) best needs
      else longestAwaitOf isPending length best needs

/-- The same for the chains that start at one of several steps, where these are pending. -/
def longestAwaitOf (isPending : Nat → Bool) (length : Nat) (best : Option (Nat × Nat)) :
    List Step → Option (Nat × Nat)
  | [] => best
  | step :: rest =>
      let best := if isPending step.id then longestAwait isPending length best step else best
      longestAwaitOf isPending length best rest

end

/-- The pending step to run when nothing that suspends is ready, and the steps left. -/
def next (within done : List Nat) (pending : List Step) :
    Except PlanError (Option (Step × List Step)) :=
  match takeFirst (fun step => !step.statement.isAwait && isReady within done step) pending with
  | some taken => .ok (some taken)
  | none =>
      match pending.getLast? with
      | none => .ok none
      | some last =>
          let isPending id := within.contains id && !done.contains id
          match longestAwait isPending 0 none last with
          | none => .error (.noAwaitToForce pending.length)
          | some (id, _) =>
              match takeFirst (fun step => step.id == id) pending with
              | none => .error (.forcedAwaitNotPending id)
              | some taken => .ok (some taken)

/-- Arranges the pending steps in at most `rounds` rounds. Each round takes a step away, so as many
rounds as there are steps arrange all of them. -/
def arrange (within : List Nat) : (rounds : Nat) → (done : List Nat) → (pending : List Step) →
    Except PlanError (List Step)
  | 0, _, pending => .ok pending
  | rounds + 1, done, pending => do
      let (started, pending, done) := startReady within done pending
      match ← next within done pending with
      | none => return started
      | some (step, left) => return started ++ step :: (← arrange within rounds (step.id :: done) left)

/-- Starts what suspends as early as its needs allow, and puts off awaits as long as anything else
can run. -/
def longestChain (steps : List Step) : Except PlanError (List Step) :=
  arrange (steps.map Step.id) steps.length [] steps

end Wiring.Schedule

namespace Wiring

/-- Arranges the steps of a plan that waits. -/
def Scheduler.arrange (scheduler : Scheduler) (steps : List Step) : Except PlanError (List Step) :=
  match scheduler with
  | .longestChain => Schedule.longestChain steps
  | .emission => .ok steps

/-- What the steps of a plan become in the end: a plan that waits is arranged, any other is left as it
was laid down. -/
def Scheduler.Arranges (scheduler : Scheduler) (isAsync : Bool) (steps arranged : List Step) : Prop :=
  if isAsync then scheduler.arrange steps = .ok arranged else arranged = steps

end Wiring
