import Wiring.Survey.Basic

/-!
# Suspension

Whether producing a value ever suspends, and which singletons a synchronous delegate needs that do.

The answer for a provider is remembered under its identity: `Answers` is the memory, kept for a whole
planning run. An answer that was remembered is given even to a cancelled run.
-/

namespace Wiring.Survey

/-- Asks whether producing a value suspends. Creating an asynchronous delegate only makes a task, so
what its body does is not looked at. -/
def suspension (maxDepth : Nat) (trigger : Trigger) : Survey Bool where
  maxDepth
  trigger
  judge p found :=
    .ok (if p.isDelegate && p.isAsync then (false, found)
      else if p.isAsync then (false, true)
      else (true, found))
  isSettled found := found

/-- Whether producing the value of a provider suspends, seen from the container. -/
def suspends (maxDepth : Nat) (trigger : Trigger) (env : Environment) (p : Provider) :
    Except PlanError Bool :=
  (suspension maxDepth trigger).run env.root (Environment.given p) false

/-- The answers remembered, the latest first. -/
abbrev Answers := List (Provider.Identity × Bool)

/-- The remembered answer for a provider. -/
def Answers.find? (answers : Answers) (p : Provider) : Option Bool :=
  (List.find? (fun entry => entry.1 = p.identity) answers).map (·.2)

/-- Whether producing the value of a provider suspends, from memory if the question was asked
before. -/
def suspendsWith (maxDepth : Nat) (trigger : Trigger) (env : Environment) (p : Provider)
    (answers : Answers) : Except PlanError (Bool × Answers) :=
  match answers.find? p with
  | some answer => .ok (answer, answers)
  | none => do
      let answer ← suspends maxDepth trigger env p
      return (answer, (p.identity, answer) :: answers)

/-- Collects the singletons that suspend. Below a singleton nothing is looked at, and neither is the
body of an asynchronous delegate. -/
def suspendingSingletons (maxDepth : Nat) (trigger : Trigger) (container : Environment) :
    Survey (List Provider × Answers) where
  maxDepth
  trigger
  judge p := fun (found, answers) =>
    if p.isDelegate && p.isAsync then .ok (false, found, answers)
    else if p.lifetime = .single then do
      let (answer, answers) ← suspendsWith maxDepth trigger container p answers
      let isNew := answer && !found.any p.same
      return (false, if isNew then found ++ [p] else found, answers)
    else .ok (true, found, answers)
  isSettled _ := false

/-- The singletons that a synchronous delegate's body needs and that suspend. The body cannot wait
for them, so where the delegate is created they are obtained beforehand. -/
def singletonsAhead (maxDepth : Nat) (trigger : Trigger) (env : Environment) (delegate : Provider)
    (answers : Answers) : Except PlanError (List Provider × Answers) :=
  (suspendingSingletons maxDepth trigger env.root).run env (Environment.given delegate) ([], answers)

end Wiring.Survey
