import Mathlib.Data.List.Forall2
import Wiring.Proofs.Plan.Tree

/-!
# Plans in which values are shared

A value that may be used again is produced by one step of a plan, and whatever needs it uses the
variable of that step, or of the step that waits for it.

* `Step.shared?` — the identity under which the value of a step is shared.
* `HandsOver` — the variable that holds the value of a step once it is there.
* `Plan.SharesOnce` — one step for each identity, here and in every body; what a plan around has
  obtained before a body is not produced in the body again.
* `Plan.ProducesOnce` — what that says of any plan in the tree (`Plan.SharesOnce.producesOnce`).
-/

namespace Wiring

/-- The provider whose value a step produces: it asks for a singleton, or it creates a delegate or a
value. -/
def Step.produced? (step : Step) : Option Provider :=
  match step.statement with
  | .single _ p _ | .delegate _ p _ _ | .create _ p _ => some p
  | .registry .. | .ownedFunction .. | .owned .. | .start .. | .await .. => none

/-- The identity under which the value of a provider may be used again. -/
def Provider.shared? (p : Provider) : Option Provider.Identity :=
  if p.lifetime.isShared then some p.identity else none

/-- The identity under which the value that a step produces may be used again. -/
def Step.shared? (step : Step) : Option Provider.Identity :=
  step.produced?.bind Provider.shared?

theorem Provider.shared?_eq_some {p : Provider} {i : Provider.Identity} :
    p.shared? = some i ↔ p.lifetime.isShared = true ∧ p.identity = i := by
  simp [shared?]

theorem Step.isShared_of_shared? {step : Step} {i : Provider.Identity} (h : step.shared? = some i) :
    i.lifetime.isShared = true := by
  obtain ⟨p, -, hp⟩ := Option.bind_eq_some_iff.mp h
  obtain ⟨hshared, rfl⟩ := Provider.shared?_eq_some.mp hp
  rwa [Provider.lifetime_identity]

/-- The variable of the statement holds the task of a value, not the value. -/
def Statement.holdsTask : Statement → Bool
  | .single _ _ isAsync => isAsync
  | .create _ p _ => p.isAsync && !p.isInitialized
  | _ => false

/-- The variable that holds the value of a step once it is there: that of the step which waits for
its task, or else its own. -/
inductive HandsOver (steps : List Step) (maker : Step) : String → Prop
  | own {name : String} (hvalue : maker.statement.holdsTask = false)
      (hname : maker.statement.assigned? = some name) : HandsOver steps maker name
  | awaited {name task : String} {ty : Option Ty} {waiting : Step}
      (htask : maker.statement.holdsTask = true) (hname : maker.statement.assigned? = some task)
      (hmem : waiting ∈ steps) (hneeds : waiting.needs = [maker])
      (hwaiting : waiting.statement = .await (some name) task ty) : HandsOver steps maker name

theorem HandsOver.mono {steps wider : List Step} {maker : Step} {name : String}
    (h : HandsOver steps maker name) (hwider : steps ⊆ wider) : HandsOver wider maker name := by
  cases h with
  | own hvalue hname => exact .own hvalue hname
  | awaited htask hname hmem hneeds hwaiting =>
      exact .awaited htask hname (hwider hmem) hneeds hwaiting

/-- What an argument for a request has to be: the variable of a value, where one of the steps
produces the value asked for. -/
def Shares (steps : List Step) (maker : Step) (i : Provider.Identity) (r : Request)
    (arg : Option String) : Prop :=
  ∀ q, r.provider? = some q → q.identity = i → ∃ name, arg = some name ∧ HandsOver steps maker name

mutual

/-- The value of a shared provider is produced once in a plan, and its variable is used wherever it
is asked for; what was obtained before is not produced. The same goes for the bodies in the plan,
which know what the plan has obtained before them. `env` is where the plan's value is requested. -/
inductive Plan.SharesOnce : Environment → (Provider.Identity → Prop) → Plan → Prop
  | plan {env : Environment} {before : Provider.Identity → Prop} {plan : Plan}
      (distinct : (plan.steps.filterMap Step.shared?).Nodup)
      (fresh : ∀ step ∈ plan.steps, ∀ i, step.shared? = some i → ¬ before i)
      (arguments : ∀ maker ∈ plan.steps, ∀ i, maker.shared? = some i →
        ∀ step ∈ plan.steps, ∀ name p args, step.statement = .create name p args →
          List.Forall₂ (Shares plan.steps maker i) ((env.enter p).requests p) args)
      (bodies : ∀ carrier ∈ plan.steps, ∀ body p, carrier.statement.body? = some body →
        carrier.statement.provider? = some p → Plan.BodyShares env before plan.steps p body) :
      Plan.SharesOnce env before plan

/-- The body of a provider knows the singletons that were known before, and those that the plan
around has obtained before the body was begun, that is, in a step with a lower number. -/
inductive Plan.BodyShares :
    Environment → (Provider.Identity → Prop) → List Step → Provider → Plan → Prop
  | body {env : Environment} {before inner : Provider.Identity → Prop} {steps : List Step}
      {p : Provider} {body : Plan} (shares : Plan.SharesOnce (env.enter p) inner body)
      (known : ∀ i, before i → inner i)
      (earlier : ∀ s ∈ steps, ∀ t ∈ body.tree, s.id < t.id → ∀ i, s.shared? = some i →
        i.lifetime = .single → inner i) : Plan.BodyShares env before steps p body

end

/-- A body knows as much if the steps around it are ordered otherwise, or if steps are added whose
numbers are not lower than those in the body. -/
theorem Plan.BodyShares.wider {env : Environment} {before : Provider.Identity → Prop}
    {steps wider : List Step} {p : Provider} {body : Plan}
    (h : Plan.BodyShares env before steps p body)
    (hwider : ∀ step ∈ wider, step ∈ steps ∨ ∀ inner ∈ body.tree, inner.id ≤ step.id) :
    Plan.BodyShares env before wider p body := by
  cases h with
  | body shares known earlier =>
      refine .body shares known fun s hs t ht hlt => ?_
      rcases hwider s hs with hs | hlater
      · exact earlier s hs t ht hlt
      · exact absurd hlt (Nat.not_lt.mpr (hlater t ht))

/-- The environment of a plan in a tree: from outside in, that of each provider with a body is
entered. -/
def Environment.within (env : Environment) (around : List (Plan × Step)) : Environment :=
  around.foldr (fun level env => (level.2.statement.provider?.map env.enter).getD env) env

theorem Statement.provider_of_body {statement : Statement} {body : Plan}
    (h : statement.body? = some body) : ∃ p, statement.provider? = some p := by
  cases statement <;> first | exact ⟨_, rfl⟩ | cases h

/-- A plan with the given plans around it: the value of a shared provider is produced by one step at
most, and its variable is used wherever it is asked for. A singleton that a plan around has obtained
before is not asked for again. `env` is where the plan's value is requested. -/
structure Plan.ProducesOnce (env : Environment) (around : List (Plan × Step)) (plan : Plan) :
    Prop where
  distinct : (plan.steps.filterMap Step.shared?).Nodup
  arguments : ∀ maker ∈ plan.steps, ∀ i, maker.shared? = some i →
    ∀ step ∈ plan.steps, ∀ name p args, step.statement = .create name p args →
      List.Forall₂ (Shares plan.steps maker i) ((env.enter p).requests p) args
  /-- The numbers of steps tell which was made before the other. -/
  inherited : ∀ level ∈ around, ∀ earlier ∈ level.1.steps, ∀ step ∈ plan.steps,
    earlier.id < step.id → ∀ i, earlier.shared? = some i → i.lifetime = .single →
      step.shared? ≠ some i

/-- In a plan that shares values, so does every plan in it, and it knows the singletons that were
obtained around it before. -/
theorem Plan.SharesOnce.within {env : Environment} {before : Provider.Identity → Prop}
    {plan nested : Plan} {around : List (Plan × Step)} (h : plan.SharesOnce env before)
    (hwithin : plan.Within around nested) :
    ∃ inner, nested.SharesOnce (env.within around) inner ∧
      ∀ level ∈ around, ∀ earlier ∈ level.1.steps, ∀ step ∈ nested.tree, earlier.id < step.id →
        ∀ i, earlier.shared? = some i → i.lifetime = .single → inner i := by
  induction hwithin with
  | root => exact ⟨before, h, fun _ hlevel => by cases hlevel⟩
  | @body around plan' body carrier _ hcarrier hbody ih =>
      obtain ⟨inner, hplan, hlevels⟩ := ih
      obtain ⟨p, hp⟩ := Statement.provider_of_body hbody
      cases hplan with
      | plan _ _ _ bodies =>
          cases bodies carrier hcarrier body p hbody hp with
          | @body _ _ deeper _ _ _ shares known earlier =>
              refine ⟨deeper, by simpa [Environment.within, hp] using shares, ?_⟩
              intro level hlevel s hs t ht hlt i hi hsingle
              rcases List.mem_cons.mp hlevel with rfl | hlevel
              · exact earlier s hs t ht hlt i hi hsingle
              · exact known i (hlevels level hlevel s hs t (Plan.tree_of_body hcarrier hbody ht) hlt i
                  hi hsingle)

/-- A plan that shares values produces them once, and so does every plan in it. -/
theorem Plan.SharesOnce.producesOnce {env : Environment} {before : Provider.Identity → Prop}
    {plan nested : Plan} {around : List (Plan × Step)} (h : plan.SharesOnce env before)
    (hwithin : plan.Within around nested) : nested.ProducesOnce (env.within around) around := by
  obtain ⟨inner, hnested, hlevels⟩ := h.within hwithin
  cases hnested with
  | plan distinct fresh arguments _ =>
      refine ⟨distinct, arguments, fun level hlevel earlier hearlier step hstep hlt i hi hsingle => ?_⟩
      intro hagain
      exact fresh step hstep i hagain
        (hlevels level hlevel earlier hearlier step (Plan.mem_tree hstep) hlt i hi hsingle)

end Wiring
